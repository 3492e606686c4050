import PatternGraph.MatchTree

/-!
# The text of a match

The text of a match is the text of its leaves in order. Its length is counted leaf by leaf, and a
given text is compared by taking the leaves off its front one after another, so neither builds the
whole text.
-/

namespace PatternGraph
set_option autoImplicit false

namespace Match

mutual
/-- The text of the leaves in order. -/
def display : Match → String
  | .text _ content _ => content
  | .alternative _ chosen _ => display chosen
  | .sequence _ values _ => displayAll values

def displayAll : List Match → String
  | [] => ""
  | value :: rest => display value ++ displayAll rest
end

mutual
/-- The number of characters of the leaves. -/
def length : Match → Nat
  | .text _ content _ => content.length
  | .alternative _ chosen _ => length chosen
  | .sequence _ values _ => totalLength values

def totalLength : List Match → Nat
  | [] => 0
  | value :: rest => length value + totalLength rest
end

mutual
/-- Takes the leaves off the front of a text and returns what is left. -/
def stripFrom : Match → List Char → Option (List Char)
  | .text _ content _, whole => content.toList.isPrefixOf? whole
  | .alternative _ chosen _, whole => stripFrom chosen whole
  | .sequence _ values _, whole => stripAllFrom values whole

def stripAllFrom : List Match → List Char → Option (List Char)
  | [], whole => some whole
  | value :: rest, whole => (stripFrom value whole).bind (stripAllFrom rest)
end

def equalsText (m : Match) (whole : String) : Bool :=
  m.stripFrom whole.toList == some []

mutual
/-- The length is that of the text. -/
theorem length_display : ∀ m : Match, m.display.length = m.length
  | .text _ _ _ => rfl
  | .alternative _ chosen _ => length_display chosen
  | .sequence _ values _ => length_displayAll values

theorem length_displayAll : ∀ values : List Match, (displayAll values).length = totalLength values
  | [] => rfl
  | value :: rest => by
    rw [displayAll, String.length_append, length_display value, length_displayAll rest, totalLength]
end

theorem toList_displayAll (values : List Match) :
    (displayAll values).toList = values.flatMap (·.display.toList) := by
  induction values with
  | nil => rfl
  | cons value rest ih => simp [displayAll, ih]

end Match
end PatternGraph
