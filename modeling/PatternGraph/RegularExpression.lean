import PatternGraph.CharacterClass

/-!
# Regular expressions

The syntax tree of a regular expression in the usual notation. A branch is a list of pieces, a
piece is an atom with at most one quantifier, a group holds at least one branch and a bracketed
class at least one item. So a quantifier always stands on an atom, its bounds are in order, and
every tree is the tree of some text.
-/

namespace PatternGraph
set_option autoImplicit false

/-- The permitted numbers of copies; without `max` there is no upper bound. -/
structure Quantifier where
  min : Nat
  max : Option Nat
  ordered : max.all (min ≤ ·) = true
deriving DecidableEq, Repr

namespace Regex

mutual
inductive Atom where
  | character (c : Char)
  /-- One character that some item includes. -/
  | oneOf (first : ClassItem) (rest : List ClassItem)
  /-- One character that no item includes. -/
  | noneOf (first : ClassItem) (rest : List ClassItem)
  | group (first : List Piece) (rest : List (List Piece))

inductive Piece where
  | mk (atom : Atom) (quantifier : Option Quantifier)
end

abbrev Branch := List Piece

/-- The atom alone, exactly once. -/
def Atom.once (atom : Atom) : Piece := .mk atom none

def Atom.repeated (atom : Atom) (quantifier : Quantifier) : Piece := .mk atom (some quantifier)

/-- All characters. -/
def allCharacters : ClassItem := .range '\x00' (Char.ofNat 0x10FFFF) (by decide)

/-- No character lies outside of all characters, so this atom matches nothing. -/
def Atom.nothing : Atom := .noneOf allCharacters []

/-- The characters of a text, one after another. -/
def Branch.ofText (text : List Char) : Branch := text.map fun c => (Atom.character c).once

theorem allCharacters_includes (c : Char) : allCharacters.includes c = true := by
  have hc := char_range c
  rw [ClassItem.includes_iff]
  constructor
  · exact Nat.zero_le _
  · show c.toNat ≤ 0x10FFFF
    omega

end Regex

/-- A choice between one or more branches. -/
structure Regex where
  first : Regex.Branch
  rest : List Regex.Branch := []

end PatternGraph
