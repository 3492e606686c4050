import Mathlib
import PatternGraph.Heap

/-!
# Languages of patterns

The words that a pattern matches, given a language for each cell, are read off its tree: texts,
characters of classes, unions, products and copies within bounds. A heap gives its cells the
least languages that contain the language of what each cell is bound to, so an unbound cell
matches nothing and a cell bound to itself matches nothing either. Nothing here is executable and
nothing refers to regular expressions or to match trees.
-/

namespace PatternGraph
set_option autoImplicit false

/-- One character of the class. -/
def CharacterClass.language (cls : CharacterClass) : Language Char :=
  {word | ∃ c, cls.includes c = true ∧ word = [c]}

/-- As many words of a language, one after another, as the bounds allow. -/
def copies (language : Language Char) (min : Nat) (max : Option Nat) : Language Char :=
  {word | ∃ count, withinBounds min max count = true ∧ word ∈ language ^ count}

mutual
def Pattern.languageWith (atCell : Nat → Language Char) : Pattern → Language Char
  | .literal _ text => {text.toList}
  | .characterClass _ cls => cls.language
  | .alternation _ elements => Pattern.languageOfAny atCell elements
  | .concatenation _ elements => Pattern.languageOfAll atCell elements
  | .repetition _ inner min max => copies (Pattern.languageWith atCell inner) min max
  | .latch _ target => Pattern.languageWith atCell target
  | .recursion _ cell => atCell cell

/-- The union over the alternatives. -/
def Pattern.languageOfAny (atCell : Nat → Language Char) : List Pattern → Language Char
  | [] => 0
  | p :: rest => Pattern.languageWith atCell p + Pattern.languageOfAny atCell rest

/-- The product over the parts. -/
def Pattern.languageOfAll (atCell : Nat → Language Char) : List Pattern → Language Char
  | [] => 1
  | p :: rest => Pattern.languageWith atCell p * Pattern.languageOfAll atCell rest
end

theorem mem_copies {language : Language Char} {min : Nat} {max : Option Nat} {word : List Char} :
    word ∈ copies language min max ↔
      ∃ count, withinBounds min max count = true ∧ word ∈ language ^ count := Iff.rfl

theorem CharacterClass.mem_language {cls : CharacterClass} {word : List Char} :
    word ∈ cls.language ↔ ∃ c, cls.includes c = true ∧ word = [c] := Iff.rfl

theorem copies_mono {l m : Language Char} (h : l ≤ m) (min : Nat) (max : Option Nat) :
    copies l min max ≤ copies m min max := by
  rintro word ⟨count, hc, hw⟩
  exact ⟨count, hc, pow_le_pow_left' h count hw⟩

namespace Pattern

theorem mem_languageOfAny {atCell : Nat → Language Char} {elements : List Pattern}
    {word : List Char} :
    word ∈ languageOfAny atCell elements ↔ ∃ p ∈ elements, word ∈ p.languageWith atCell := by
  induction elements with
  | nil => simp [languageOfAny, Language.notMem_zero]
  | cons p rest ih => simp [languageOfAny, Language.mem_add, ih]

theorem languageOfAll_eq_prod (atCell : Nat → Language Char) (elements : List Pattern) :
    languageOfAll atCell elements = (elements.map (·.languageWith atCell)).prod := by
  induction elements with
  | nil => rfl
  | cons p rest ih => simp [languageOfAll, ih]

variable {ρ σ : Nat → Language Char}

mutual
/-- Larger languages of cells give larger languages of patterns. -/
theorem languageWith_mono (h : ∀ c, ρ c ≤ σ c) :
    ∀ p : Pattern, p.languageWith ρ ≤ p.languageWith σ
  | .literal _ _ => le_refl _
  | .characterClass _ _ => le_refl _
  | .alternation _ elements => by
    simpa only [languageWith] using languageOfAny_mono h elements
  | .concatenation _ elements => by
    simpa only [languageWith] using languageOfAll_mono h elements
  | .repetition _ inner min max => by
    simpa only [languageWith] using copies_mono (languageWith_mono h inner) min max
  | .latch _ target => by simpa only [languageWith] using languageWith_mono h target
  | .recursion _ cell => by simpa only [languageWith] using h cell

theorem languageOfAny_mono (h : ∀ c, ρ c ≤ σ c) :
    ∀ elements : List Pattern, languageOfAny ρ elements ≤ languageOfAny σ elements
  | [] => le_refl _
  | p :: rest => by
    simpa only [languageOfAny] using add_le_add (languageWith_mono h p) (languageOfAny_mono h rest)

theorem languageOfAll_mono (h : ∀ c, ρ c ≤ σ c) :
    ∀ elements : List Pattern, languageOfAll ρ elements ≤ languageOfAll σ elements
  | [] => le_refl _
  | p :: rest => by
    simpa only [languageOfAll] using mul_le_mul' (languageWith_mono h p) (languageOfAll_mono h rest)
end

end Pattern

namespace Heap

/-- Whether the language of each bound cell contains that of what it is bound to. -/
def Closed (heap : Heap) (atCell : Nat → Language Char) : Prop :=
  ∀ c p, heap.grammar c = some p → p.languageWith atCell ≤ atCell c

/-- The words that every such family gives to a cell. -/
def cellLanguage (heap : Heap) (c : Nat) : Language Char :=
  {word | ∀ atCell, heap.Closed atCell → word ∈ atCell c}

/-- The words that a pattern matches in a heap. -/
def language (heap : Heap) (p : Pattern) : Language Char := p.languageWith heap.cellLanguage

theorem cellLanguage_le {heap : Heap} {atCell : Nat → Language Char} (h : heap.Closed atCell)
    (c : Nat) : heap.cellLanguage c ≤ atCell c :=
  fun _ hw => hw atCell h

theorem closed_cellLanguage (heap : Heap) : heap.Closed heap.cellLanguage := by
  intro c p hc word hw atCell h
  exact h c p hc (Pattern.languageWith_mono (cellLanguage_le h) p hw)

/-- A bound cell matches exactly what it is bound to. -/
theorem cellLanguage_of_bound {heap : Heap} {c : Nat} {p : Pattern} (h : heap.grammar c = some p) :
    heap.cellLanguage c = heap.language p := by
  classical
  refine le_antisymm ?_ (heap.closed_cellLanguage c p h)
  let smaller : Nat → Language Char := fun d =>
    if d = c then heap.language p else heap.cellLanguage d
  have hle : ∀ d, smaller d ≤ heap.cellLanguage d := by
    intro d
    by_cases hd : d = c
    · subst hd
      simpa [smaller, language] using heap.closed_cellLanguage d p h
    · simp [smaller, hd]
  have hclosed : heap.Closed smaller := by
    intro d q hq
    refine le_trans (Pattern.languageWith_mono hle q) ?_
    by_cases hd : d = c
    · subst hd
      rw [h, Option.some.injEq] at hq
      subst hq
      simp [smaller, language]
    · simpa [smaller, hd] using heap.closed_cellLanguage d q hq
  simpa [smaller] using cellLanguage_le hclosed c

/-- An unbound cell matches nothing. -/
theorem cellLanguage_of_unbound {heap : Heap} {c : Nat} (h : heap.grammar c = none) :
    heap.cellLanguage c = 0 := by
  classical
  refine le_antisymm ?_ (fun _ hw => absurd hw (Language.notMem_zero _))
  let smaller : Nat → Language Char := fun d => if d = c then 0 else heap.cellLanguage d
  have hle : ∀ d, smaller d ≤ heap.cellLanguage d := by
    intro d
    by_cases hd : d = c
    · simp only [smaller, hd, if_true]
      exact fun _ hw => absurd hw (Language.notMem_zero _)
    · simp [smaller, hd]
  have hclosed : heap.Closed smaller := by
    intro d q hq
    have hd : d ≠ c := by
      rintro rfl
      simp [h] at hq
    refine le_trans (Pattern.languageWith_mono hle q) ?_
    simpa [smaller, hd] using heap.closed_cellLanguage d q hq
  simpa [smaller] using cellLanguage_le hclosed c

end Heap
end PatternGraph
