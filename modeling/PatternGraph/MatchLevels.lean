import PatternGraph.MatchTree

/-!
# Levels of a match

A match has one level for every value inside it and one for itself. A level is found by a path: the
positions of the values that are entered on the way to it. Two matches are compared level by level,
and what is asked of the patterns and of the locations at a level is left open, so that one notion
covers equality, keys and hash streams.
-/

namespace PatternGraph
set_option autoImplicit false

namespace Match

/-- What a level holds beside its pattern and its location. -/
inductive Form where
  | text (content : String)
  | alternative
  | sequence (count : Nat)

def form : Match → Form
  | .text _ content _ => .text content
  | .alternative .. => .alternative
  | .sequence _ values _ => .sequence values.length

/-- The level at the end of a path, if the path does not leave the match. -/
def level : List Nat → Match → Option Match
  | [], m => some m
  | position :: path, m => m.values[position]?.bind (level path)

structure SameLevel (patterns : Pattern → Pattern → Prop)
    (locations : Option Span → Option Span → Prop) (a b : Match) : Prop where
  form : a.form = b.form
  pattern : patterns a.pattern b.pattern
  location : locations a.location b.location

/-- The same paths lead to levels of both, and what they lead to is the same up to the given
relations. -/
def Agree (patterns : Pattern → Pattern → Prop) (locations : Option Span → Option Span → Prop)
    (a b : Match) : Prop :=
  ∀ path, Option.Rel (SameLevel patterns locations) (a.level path) (b.level path)

/-- The locations of any two levels at the end of one path are equal. -/
def SameLocations (a b : Match) : Prop :=
  ∀ path, (a.level path).map location = (b.level path).map location

end Match
end PatternGraph
