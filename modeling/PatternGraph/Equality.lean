import PatternGraph.Heap
import PatternGraph.SameTree

/-!
# Equality of patterns

Two patterns are equal when their trees have the same shape and content, names and serial numbers
aside, where two recursions are compared by what their cells are bound to. A pair of cells whose
comparison is under way counts as equal and leaves the verdict to the comparison it is part of.
A recursion equals nothing but a recursion, and a tree equals itself without being walked. The
fuel is bookkeeping: there are no more pairs of cells than the square of the heap's size.
-/

namespace PatternGraph
set_option autoImplicit false

mutual
def Pattern.agrees (atCells : Nat → Nat → Bool) (p q : Pattern) : Bool :=
  p == q || match p, q with
    | .literal _ a, .literal _ b => a == b
    | .characterClass _ a, .characterClass _ b => a == b
    | .alternation _ as, .alternation _ bs => Pattern.agreesAll atCells as bs
    | .concatenation _ as, .concatenation _ bs => Pattern.agreesAll atCells as bs
    | .repetition _ a min max, .repetition _ b min' max' =>
      min == min' && max == max' && Pattern.agrees atCells a b
    | .latch _ a, .latch _ b => Pattern.agrees atCells a b
    | .recursion _ c, .recursion _ d => atCells c d
    | _, _ => false

def Pattern.agreesAll (atCells : Nat → Nat → Bool) : List Pattern → List Pattern → Bool
  | [], [] => true
  | a :: as, b :: bs => Pattern.agrees atCells a b && Pattern.agreesAll atCells as bs
  | _, _ => false
end

@[simp] theorem Pattern.agrees_self (atCells : Nat → Nat → Bool) (p : Pattern) :
    p.agrees atCells p = true := by
  cases p <;> simp [Pattern.agrees]

/-- Compares two cells; `underWay` are the pairs whose comparison this one is part of. -/
def cellsAgree (grammar : Nat → Option Pattern) : Nat → List (Nat × Nat) → Nat → Nat → Bool
  | 0, _, _, _ => true
  | fuel + 1, underWay, c, d =>
    if c = d ∨ (c, d) ∈ underWay then true
    else match grammar c, grammar d with
      | some p, some q => p.agrees (cellsAgree grammar fuel ((c, d) :: underWay)) q
      | none, none => true
      | _, _ => false

def Heap.equal (heap : Heap) (p q : Pattern) : Bool :=
  p.agrees (cellsAgree heap.grammar (heap.cells.size * heap.cells.size + 1) []) q

/-- Whether both are absent, or both present and equal. -/
def Heap.equalOutcome (heap : Heap) : Option Pattern → Option Pattern → Bool
  | some p, some q => heap.equal p q
  | none, none => true
  | _, _ => false

end PatternGraph
