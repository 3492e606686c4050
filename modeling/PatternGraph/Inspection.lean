import PatternGraph.Unfolding

/-!
# Inspection text

A one-line text of a pattern. The outermost name is followed by the body it stands for; inside, a
name stands alone. A recursion shows what its cell is bound to, two points inside the same cell,
and a question mark where it is unbound.
-/

namespace PatternGraph
set_option autoImplicit false

/-- The bounds of a repetition, with the infinity sign for no upper bound. -/
def inspectBounds (min : Nat) : Option Nat → String
  | some max => toString min ++ "..=" ++ toString max
  | none => toString min ++ "..=\u221e"

mutual
/-- The text of a node without its own name, given the texts at cells. -/
def Pattern.inspectWith (atCell : Nat → String) : Pattern → String
  | .literal _ text => "literal(" ++ QuotedText.ofString text ++ ")"
  | .characterClass _ cls => cls.inspect
  | .alternation _ elements =>
    "alt(" ++ String.intercalate " | " (Pattern.inspectParts atCell elements) ++ ")"
  | .concatenation _ elements =>
    "seq(" ++ String.intercalate ", " (Pattern.inspectParts atCell elements) ++ ")"
  | .repetition _ inner min max =>
    "repeat(" ++ (match inner.name with
      | some name => name
      | none => Pattern.inspectWith atCell inner) ++ ", " ++ inspectBounds min max ++ ")"
  | .latch _ target =>
    "latch(" ++ (match target.name with
      | some name => name
      | none => Pattern.inspectWith atCell target) ++ ")"
  | .recursion _ cell => atCell cell

/-- The text of each part; a name stands for its part. -/
def Pattern.inspectParts (atCell : Nat → String) : List Pattern → List String
  | [] => []
  | p :: rest =>
    (match p.name with
      | some name => name
      | none => Pattern.inspectWith atCell p) :: Pattern.inspectParts atCell rest
end

/-- The text of a part; a name stands for its part. -/
def Pattern.inspectPart (atCell : Nat → String) (p : Pattern) : String :=
  match p.name with
  | some name => name
  | none => p.inspectWith atCell

theorem Pattern.inspectParts_eq_map (atCell : Nat → String) (parts : List Pattern) :
    Pattern.inspectParts atCell parts = parts.map (·.inspectPart atCell) := by
  induction parts with
  | nil => rfl
  | cons p rest ih => simp [Pattern.inspectParts, Pattern.inspectPart, ih]

def inspectionWalk : Walk String where
  onRepeat := "recursion(..)"
  onUnbound := "recursion(?)"
  onTree atCell p := "recursion(" ++ p.inspectPart atCell ++ ")"

namespace Heap

/-- The text of a node without its own name. -/
def inspectBody (heap : Heap) (p : Pattern) : String :=
  p.inspectWith (inspectionWalk.atCell heap.grammar (heap.cells.size + 1) [])

def inspect (heap : Heap) (p : Pattern) : String :=
  match p.name with
  | some name => name ++ ":" ++ heap.inspectBody p
  | none => heap.inspectBody p

end Heap
end PatternGraph
