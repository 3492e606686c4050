import PatternGraph.Combinators

/-!
# Heaps

A heap holds the cells that recursions point at and hands out serial numbers. A cell is unbound
at first, may be bound to a pattern, and may be frozen; cells are never removed, so a cell number
stays valid. A number without a cell is treated as an unbound cell. Entering a heap gives every
node built since its parts entered a serial number of its own and changes nothing else.
-/

namespace PatternGraph
set_option autoImplicit false

structure Cell where
  grammar : Option Pattern := none
  frozen : Bool := false
  /-- It was bound while it was frozen, which an assertion rules out. -/
  rebound : Bool := false

structure Heap where
  cells : Array Cell := #[]
  nextSerial : Nat := 0

/-- The right to bind one cell. -/
structure Placeholder where
  cell : Nat
deriving DecidableEq, Repr

/-- A new node for the placeholder's cell; every such node has the same identity. -/
def Placeholder.pattern (placeholder : Placeholder) : Pattern := .reference placeholder.cell

mutual
/-- Numbers the nodes of a pattern that have no serial number yet, from `next` on. -/
def Pattern.stamp : Pattern → Nat → Pattern × Nat
  | .literal ⟨none, name⟩ text, next => (.literal ⟨some next, name⟩ text, next + 1)
  | .characterClass ⟨none, name⟩ cls, next => (.characterClass ⟨some next, name⟩ cls, next + 1)
  | .alternation ⟨none, name⟩ elements, next =>
    let (elements, later) := Pattern.stampAll elements (next + 1)
    (.alternation ⟨some next, name⟩ elements, later)
  | .concatenation ⟨none, name⟩ elements, next =>
    let (elements, later) := Pattern.stampAll elements (next + 1)
    (.concatenation ⟨some next, name⟩ elements, later)
  | .repetition ⟨none, name⟩ inner min max, next =>
    let (inner, later) := Pattern.stamp inner (next + 1)
    (.repetition ⟨some next, name⟩ inner min max, later)
  | .latch ⟨none, name⟩ target, next =>
    let (target, later) := Pattern.stamp target (next + 1)
    (.latch ⟨some next, name⟩ target, later)
  | .recursion ⟨none, name⟩ cell, next => (.recursion ⟨some next, name⟩ cell, next + 1)
  | p, next => (p, next)

def Pattern.stampAll : List Pattern → Nat → List Pattern × Nat
  | [], next => ([], next)
  | p :: rest, next =>
    let (p, later) := Pattern.stamp p next
    let (rest, last) := Pattern.stampAll rest later
    (p :: rest, last)
end

namespace Heap

def cell (heap : Heap) (c : Nat) : Cell := heap.cells[c]?.getD {}

/-- What a cell is bound to. -/
def grammar (heap : Heap) (c : Nat) : Option Pattern := (heap.cell c).grammar

def isBound (heap : Heap) (c : Nat) : Bool := (heap.grammar c).isSome

def isFrozen (heap : Heap) (c : Nat) : Bool := (heap.cell c).frozen

def newPlaceholder (heap : Heap) : Placeholder × Heap :=
  (⟨heap.cells.size⟩, { heap with cells := heap.cells.push {} })

def bind (heap : Heap) (c : Nat) (p : Pattern) : Heap :=
  { heap with cells := heap.cells.modify c fun cell =>
    { cell with grammar := some p, rebound := cell.rebound || cell.frozen } }

def freeze (heap : Heap) (c : Nat) : Heap :=
  { heap with cells := heap.cells.modify c fun cell => { cell with frozen := true } }

def enter (heap : Heap) (p : Pattern) : Pattern × Heap :=
  let (p, next) := p.stamp heap.nextSerial
  (p, { heap with nextSerial := next })

/-- The direct children of a pattern; a recursion has what its cell is bound to, if anything. -/
def elements (heap : Heap) : Pattern → List Pattern
  | .literal .. => []
  | .characterClass .. => []
  | .alternation _ elements => elements
  | .concatenation _ elements => elements
  | .repetition _ inner _ _ => [inner]
  | .latch _ target => [target]
  | .recursion _ cell => (heap.grammar cell).toList

/-- What a latch or a bound recursion stands for. -/
def target (heap : Heap) : Pattern → Option Pattern
  | .latch _ target => some target
  | .recursion _ cell => heap.grammar cell
  | _ => none

theorem cell_modify (heap : Heap) (f : Cell → Cell) (c d : Nat) :
    ({ heap with cells := heap.cells.modify c f } : Heap).cell d =
      if c = d ∧ d < heap.cells.size then f (heap.cell d) else heap.cell d := by
  unfold cell
  rw [Array.getElem?_modify]
  by_cases hd : d < heap.cells.size
  · by_cases hc : c = d <;> simp [hc, hd]
  · simp [hd]

theorem grammar_bind_self {heap : Heap} {c : Nat} (h : c < heap.cells.size) (p : Pattern) :
    (heap.bind c p).grammar c = some p := by
  simp [grammar, bind, cell_modify, h]

theorem cell_bind_ne {c d : Nat} (h : c ≠ d) (heap : Heap) (p : Pattern) :
    (heap.bind c p).cell d = heap.cell d := by
  simp [bind, cell_modify, h]

theorem grammar_bind_ne {c d : Nat} (h : c ≠ d) (heap : Heap) (p : Pattern) :
    (heap.bind c p).grammar d = heap.grammar d := by
  simp only [grammar, cell_bind_ne h]

@[simp] theorem isFrozen_bind (heap : Heap) (c : Nat) (p : Pattern) (d : Nat) :
    (heap.bind c p).isFrozen d = heap.isFrozen d := by
  simp only [isFrozen, bind, cell_modify]
  split <;> rfl

@[simp] theorem grammar_freeze (heap : Heap) (c d : Nat) :
    (heap.freeze c).grammar d = heap.grammar d := by
  simp only [grammar, freeze, cell_modify]
  split <;> rfl

theorem isFrozen_freeze_self {heap : Heap} {c : Nat} (h : c < heap.cells.size) :
    (heap.freeze c).isFrozen c = true := by
  simp [isFrozen, freeze, cell_modify, h]

theorem isFrozen_freeze_ne {c d : Nat} (h : c ≠ d) (heap : Heap) :
    (heap.freeze c).isFrozen d = heap.isFrozen d := by
  simp [isFrozen, freeze, cell_modify, h]

@[simp] theorem cells_enter (heap : Heap) (p : Pattern) :
    (heap.enter p).2.cells = heap.cells := rfl

@[simp] theorem grammar_enter (heap : Heap) (p : Pattern) (c : Nat) :
    (heap.enter p).2.grammar c = heap.grammar c := rfl

@[simp] theorem size_bind (heap : Heap) (c : Nat) (p : Pattern) :
    (heap.bind c p).cells.size = heap.cells.size := by
  simp [bind]

@[simp] theorem size_freeze (heap : Heap) (c : Nat) :
    (heap.freeze c).cells.size = heap.cells.size := by
  simp [freeze]

/-- A number without a cell counts as an empty cell, and so does a new one. -/
theorem cell_newPlaceholder_heap (heap : Heap) (c : Nat) :
    heap.newPlaceholder.2.cell c = heap.cell c := by
  simp only [cell, newPlaceholder, Array.getElem?_push]
  split
  · rename_i h
    subst h
    simp
  · rfl

@[simp] theorem grammar_newPlaceholder (heap : Heap) (c : Nat) :
    heap.newPlaceholder.2.grammar c = heap.grammar c := by
  simp only [grammar, cell_newPlaceholder_heap]

end Heap
end PatternGraph
