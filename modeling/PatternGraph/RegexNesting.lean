import PatternGraph.RegularExpression

/-!
# Nesting depth

How deeply a regular expression is nested. A group, a quantifier, a choice of two or more
branches, a branch of two or more pieces and a bracketed class add one each to what is inside
them, and a bracketed class of two or more items adds one more. Single characters and empty
branches add nothing.
-/

namespace PatternGraph
set_option autoImplicit false

namespace Regex

/-- One level for two or more members. -/
def levelFor (count : Nat) : Nat := if 2 ≤ count then 1 else 0

mutual
def Atom.depth : Atom → Nat
  | .character _ => 0
  | .oneOf _ rest => 1 + levelFor (rest.length + 1)
  | .noneOf _ rest => 1 + levelFor (rest.length + 1)
  | .group first rest =>
    1 + levelFor (rest.length + 1) +
      max (levelFor first.length + Piece.deepest first) (Piece.deepestBranch rest)

def Piece.depth : Piece → Nat
  | .mk atom none => Atom.depth atom
  | .mk atom (some _) => 1 + Atom.depth atom

/-- The largest depth of a piece. -/
def Piece.deepest : List Piece → Nat
  | [] => 0
  | piece :: rest => max (Piece.depth piece) (Piece.deepest rest)

/-- The largest depth of a branch. -/
def Piece.deepestBranch : List (List Piece) → Nat
  | [] => 0
  | branch :: rest =>
    max (levelFor branch.length + Piece.deepest branch) (Piece.deepestBranch rest)
end

def depth (regex : Regex) : Nat :=
  levelFor (regex.rest.length + 1) +
    max (levelFor regex.first.length + Piece.deepest regex.first) (Piece.deepestBranch regex.rest)

end Regex
end PatternGraph
