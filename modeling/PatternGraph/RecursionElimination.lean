import PatternGraph.RecursionShape

/-!
# Recursion elimination

Resolving a placeholder binds its cell to a body, in which repetitions take the place of the
recursion where its shape allows it, and freezes the cell. The result is what the cell was bound
to when that no longer reaches the cell, and a reference to the cell when it still does.

| body          | bound to      |
|---------------|---------------|
| `a`, `b`, `R` | `(a or b)+`   |
| `b`, `R a`    | `b a*`        |
| `R a`         | `a*`          |
| `a R`         | `a+`          |

Only the second row keeps the language in general. A body of any other shape is bound as it is.
-/

namespace PatternGraph
set_option autoImplicit false

inductive ResolveError where
  | recursionNotFound
  | unproductive
  | undefinedRule (name : String)
  | duplicateRule (name : String)
deriving DecidableEq, Repr

def ResolveError.message : ResolveError → String
  | .recursionNotFound => "recursion expected but not found"
  | .unproductive => "recursion has no non-recursive alternative"
  | .undefinedRule name => "rule " ++ QuotedText.ofString name ++ " is referenced but never defined"
  | .duplicateRule name => "rule " ++ QuotedText.ofString name ++ " is defined more than once"

namespace Pattern

/-- The body with its own recursion turned into repetitions, where the shape allows it. -/
def eliminated? (cell : Nat) : RecursionShape → Pattern → Option Pattern
  | .direct, .alternation _ elements => some (anyOf (withoutReference cell elements)).oneOrMore
  | .left, .alternation _ elements =>
    some (inOrder [choice (seeds cell elements), (choice (tails cell elements)).any])
  | .left, .concatenation _ elements => (sequence? elements.tail).map any
  | .right, .concatenation _ elements => (sequence? elements.dropLast).map oneOrMore
  | _, _ => none

/-- What the cell is bound to, under the name of the body. -/
def eliminate (cell : Nat) (shape : RecursionShape) (body : Pattern) : Pattern :=
  match eliminated? cell shape body with
  | some p => body.namedLike p
  | none => body

end Pattern

namespace Heap

/-- Binds a cell for good. -/
def settle (heap : Heap) (cell : Nat) (grammar : Pattern) : Heap :=
  (heap.bind cell grammar).freeze cell

/-- The reference to a cell under the name of its body. -/
def referenceLike (body : Pattern) (placeholder : Placeholder) : Pattern :=
  body.namedLike placeholder.pattern

/-- Binds and freezes the cell of a body that reaches it. -/
def resolveRecursive (heap : Heap) (body : Pattern) (placeholder : Placeholder)
    (shape : RecursionShape) : Pattern × Heap :=
  let cell := placeholder.cell
  let (grammar, heap) := heap.enter (body.eliminate cell shape)
  let heap := heap.settle cell grammar
  if heap.reaches .all grammar (.cell cell) then heap.enter (referenceLike body placeholder)
  else (grammar, heap)

/-- Resolves a placeholder by a body. A body that does not reach the cell is bound as it is,
unless a recursion is required. On an error the heap stays as it was. -/
def resolve (heap : Heap) (body : Pattern) (placeholder : Placeholder)
    (requireRecursion : Bool) : Except ResolveError (Pattern × Heap) :=
  match heap.shape placeholder.cell body with
  | .unproductive => .error .unproductive
  | .absent =>
    if requireRecursion then .error .recursionNotFound
    else .ok (body, heap.settle placeholder.cell body)
  | shape => .ok (heap.resolveRecursive body placeholder shape)

end Heap
end PatternGraph
