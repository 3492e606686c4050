import PatternGraph.PatternLanguage
import PatternGraph.RegexText

/-!
# Languages of regular expressions

The words that a regular expression matches from end to end, read off its syntax tree. Groups do
not record anything here, so a group matches what its branches match.
-/

namespace PatternGraph
set_option autoImplicit false

namespace Regex

/-- How often an atom without a quantifier counts: exactly once. -/
def quantified (language : Language Char) : Option Quantifier → Language Char
  | none => language
  | some quantifier => copies language quantifier.min quantifier.max

mutual
def Atom.language : Atom → Language Char
  | .character c => {[c]}
  | .oneOf first rest => (CharacterClass.mk (first :: rest)).language
  | .noneOf first rest =>
    {word | ∃ c, (CharacterClass.mk (first :: rest)).includes c = false ∧ word = [c]}
  | .group first rest => Piece.languageOfAll first + Piece.languageOfAny rest

def Piece.language : Piece → Language Char
  | .mk atom quantifier => quantified (Atom.language atom) quantifier

/-- The product over the pieces of a branch. -/
def Piece.languageOfAll : List Piece → Language Char
  | [] => 1
  | piece :: rest => Piece.language piece * Piece.languageOfAll rest

/-- The union over further branches. -/
def Piece.languageOfAny : List (List Piece) → Language Char
  | [] => 0
  | branch :: rest => Piece.languageOfAll branch + Piece.languageOfAny rest
end

def language (regex : Regex) : Language Char :=
  Piece.languageOfAll regex.first + Piece.languageOfAny regex.rest

@[simp] theorem language_nothing : Atom.nothing.language = 0 := by
  ext word
  simp only [Atom.nothing, Atom.language]
  constructor
  · rintro ⟨c, hc, -⟩
    simp [CharacterClass.includes, allCharacters_includes] at hc
  · exact fun h => absurd h (Language.notMem_zero _)

@[simp] theorem languageOfAll_append (as bs : List Piece) :
    Piece.languageOfAll (as ++ bs) = Piece.languageOfAll as * Piece.languageOfAll bs := by
  induction as with
  | nil => simp [Piece.languageOfAll]
  | cons a as ih => simp [Piece.languageOfAll, ih, mul_assoc]

theorem languageOfAll_ofText (text : List Char) :
    Piece.languageOfAll (Branch.ofText text) = {text} := by
  induction text with
  | nil => rfl
  | cons c text ih =>
    have hcons : Branch.ofText (c :: text) = (Atom.character c).once :: Branch.ofText text := rfl
    rw [hcons, Piece.languageOfAll, ih]
    ext word
    simp only [Atom.once, Piece.language, quantified, Atom.language, Language.mem_mul]
    constructor
    · rintro ⟨a, rfl, b, rfl, rfl⟩
      rfl
    · rintro rfl
      exact ⟨[c], rfl, text, rfl, rfl⟩

end Regex
end PatternGraph
