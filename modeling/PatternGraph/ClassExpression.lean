import Mathlib.Data.Set.Basic
import PatternGraph.CharacterClass

/-!
# Class expressions

An expression builds a class from items by removal and union. Operands are evaluated from left to
right and every item is checked when its turn comes, so the items given to an expression come in
an order of their own. What it stands for is said of the items as they were given: a set of
characters, put together by union and difference alone.
-/

namespace PatternGraph
set_option autoImplicit false

namespace RawItem

/-- A range that ends before it starts. -/
def isInverted : RawItem → Bool
  | .single _ => false
  | .range first last => last < first

def characters : RawItem → Set Char
  | .single c => {c}
  | .range first last => {c | first ≤ c ∧ c ≤ last}

/-- The characters of any of the items. -/
def charactersOf (items : List RawItem) : Set Char := {c | ∃ item ∈ items, c ∈ item.characters}

end RawItem

/-- The item as it may have been given. -/
def ClassItem.toRaw : ClassItem → RawItem
  | .single c => .single c
  | .range first last _ => .range first last

/-- The operator between two classes is their union. -/
inductive ClassExpression where
  | ofItems (items : List RawItem)
  | empty
  | except (cls : ClassExpression) (removed : List RawItem)
  | union (left right : ClassExpression)
  | withChar (cls : ClassExpression) (c : Char)
  | withItem (cls : ClassExpression) (item : RawItem)
deriving Repr

namespace ClassExpression

def evaluate : ClassExpression → Except ClassError CharacterClass
  | ofItems items => CharacterClass.ofItems items
  | empty => return CharacterClass.empty
  | except cls removed => do (← cls.evaluate).except removed
  | union left right => do
    let first ← left.evaluate
    return first.union (← right.evaluate)
  | withChar cls c => return (← cls.evaluate).insertChar c
  | withItem cls item => do (← cls.evaluate).insertItem item

/-- The items given to an expression, in the order in which they are checked. -/
def given : ClassExpression → List RawItem
  | ofItems items => items
  | empty => []
  | except cls removed => cls.given ++ removed
  | union left right => left.given ++ right.given
  | withChar cls c => cls.given ++ [.single c]
  | withItem cls item => cls.given ++ [item]

/-- The set that an expression stands for. -/
def characters : ClassExpression → Set Char
  | ofItems items => RawItem.charactersOf items
  | empty => ∅
  | except cls removed => cls.characters \ RawItem.charactersOf removed
  | union left right => left.characters ∪ right.characters
  | withChar cls c => cls.characters ∪ {c}
  | withItem cls item => cls.characters ∪ item.characters

end ClassExpression
end PatternGraph
