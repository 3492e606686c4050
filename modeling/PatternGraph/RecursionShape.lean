import PatternGraph.Reachability

/-!
# Shapes of recursion

How a rule body refers to the cell it will be bound to. A reference led by first parts of nested
concatenations can be stripped from an alternative, which leaves the parts that followed it. The
shape decides which elimination applies, if any; it says nothing about whether the body's language
is regular.
-/

namespace PatternGraph
set_option autoImplicit false

inductive RecursionShape where
  /-- The body never reaches the cell. -/
  | absent
  /-- An alternation with the bare reference as an alternative, and no other that leads to it. -/
  | direct
  /-- The reference leads the body, or leads some of its alternatives. -/
  | left
  /-- The reference ends a concatenation. -/
  | right
  /-- The reference leads and ends a concatenation. -/
  | outer
  /-- The reference is a part of a concatenation, but not an end. -/
  | center
  /-- The reference is reached only through nested patterns or other cells. -/
  | indirect
  /-- The body is neither an alternation nor a concatenation. -/
  | enclosed
  /-- The body is the reference itself. -/
  | unproductive
deriving DecidableEq, Repr

namespace Pattern

/-- Nothing for no part, the part itself for one, a concatenation for more. -/
def sequence? : List Pattern → Option Pattern
  | [] => none
  | [single] => some single
  | elements => some (inOrder elements)

/-- The alternative itself if there is one, an alternation otherwise. -/
def choice : List Pattern → Pattern
  | [single] => single
  | elements => anyOf elements

/-- Takes away a leading reference to a cell. The inner option holds what followed it, if anything
did; an anonymous concatenation that followed is continued rather than nested. -/
def stripLeading (cell : Nat) : Pattern → Option (Option Pattern)
  | .recursion _ other => if other = cell then some none else none
  | .concatenation _ (first :: rest) =>
    match stripLeading cell first with
    | none => none
    | some none => some (sequence? rest)
    | some (some head) => some (sequence? (head.parts ++ rest))
  | _ => none

/-- The alternatives that no reference to the cell leads. -/
def seeds (cell : Nat) (elements : List Pattern) : List Pattern :=
  elements.filter fun element => (element.stripLeading cell).isNone

/-- What follows the reference in the alternatives it leads; a bare reference has no tail. -/
def tails (cell : Nat) (elements : List Pattern) : List Pattern :=
  elements.filterMap fun element => (element.stripLeading cell).join

/-- The alternatives other than the bare reference. -/
def withoutReference (cell : Nat) (elements : List Pattern) : List Pattern :=
  elements.filter fun element => !element.isReferenceTo cell

def startsWith (cell : Nat) (elements : List Pattern) : Bool :=
  elements.head?.any (·.isReferenceTo cell)

def endsWith (cell : Nat) (elements : List Pattern) : Bool :=
  elements.getLast?.any (·.isReferenceTo cell)

/-- The shape of a concatenation that reaches the cell. -/
def concatenationShape (cell : Nat) (elements : List Pattern) : RecursionShape :=
  match startsWith cell elements, endsWith cell elements with
  | true, true => .outer
  | true, false => .left
  | false, true => .right
  | false, false => if elements.any (·.isReferenceTo cell) then .center else .indirect

end Pattern

namespace Heap

/-- The shape of an alternation that reaches the cell. -/
def alternationShape (heap : Heap) (cell : Nat) (elements : List Pattern) : RecursionShape :=
  if elements.any (·.isReferenceTo cell) ∧
      ¬ (Pattern.withoutReference cell elements).any (heap.reaches .leading · (.cell cell)) then
    .direct
  else if (Pattern.tails cell elements).isEmpty then .indirect
  else .left

/-- The shape of a body whose cell is `cell`. -/
def shape (heap : Heap) (cell : Nat) (body : Pattern) : RecursionShape :=
  if body.isReferenceTo cell then .unproductive
  else if heap.reaches .all body (.cell cell) then
    match body with
    | .alternation _ elements => heap.alternationShape cell elements
    | .concatenation _ elements => Pattern.concatenationShape cell elements
    | _ => .enclosed
  else .absent

end Heap

namespace Pattern

@[simp] theorem stripLeading_reference (cell : Nat) (tag : Tag) :
    (Pattern.recursion tag cell).stripLeading cell = some none := by
  simp [stripLeading]

theorem isSome_sequence? (elements : List Pattern) :
    (sequence? elements).isSome = !elements.isEmpty := by
  match elements with
  | [] => rfl
  | [_] => rfl
  | _ :: _ :: _ => rfl

end Pattern
end PatternGraph
