import PatternGraph.PatternLanguage
import PatternGraph.RecursionShape

/-!
# Laws of pattern languages

Tags take no part in the language of a pattern, so neither names nor entering a heap change it.
Copies without an upper bound are iteration. The least languages of two heaps that differ in one
cell are compared by looking at that cell alone; this is the only induction principle that later
modules use, and it never mentions approximations of the least languages.
-/

namespace PatternGraph
set_option autoImplicit false

open scoped Computability

theorem copies_any (l : Language Char) : copies l 0 none = l∗ := by
  ext word
  rw [Language.kstar_eq_iSup_pow, Language.mem_iSup]
  constructor
  · rintro ⟨count, _, hw⟩
    exact ⟨count, hw⟩
  · rintro ⟨count, hw⟩
    exact ⟨count, by simp [withinBounds], hw⟩

theorem copies_oneOrMore (l : Language Char) : copies l 1 none = l * l∗ := by
  ext word
  rw [Language.kstar_eq_iSup_pow, Language.mul_iSup, Language.mem_iSup]
  constructor
  · rintro ⟨count, hc, hw⟩
    have hpos : 1 ≤ count := ((withinBounds_iff 1 none count).mp hc).1
    obtain ⟨rest, rfl⟩ := Nat.exists_eq_add_of_le' hpos
    exact ⟨rest, by rwa [← pow_succ']⟩
  · rintro ⟨count, hw⟩
    exact ⟨count + 1, by simp [withinBounds], by rwa [pow_succ']⟩

theorem copies_once (l : Language Char) : copies l 1 (some 1) = l := by
  ext word
  constructor
  · rintro ⟨count, hc, hw⟩
    obtain ⟨hmin, hmax⟩ := (withinBounds_iff 1 (some 1) count).mp hc
    have hone : count = 1 := Nat.le_antisymm (hmax 1 rfl) hmin
    rwa [hone, pow_one] at hw
  · intro hw
    exact ⟨1, by decide, by rwa [pow_one]⟩

theorem copies_optional (l : Language Char) : copies l 0 (some 1) = l + 1 := by
  ext word
  rw [Language.mem_add]
  constructor
  · rintro ⟨count, hcount, hword⟩
    have hmost := ((withinBounds_iff 0 (some 1) count).mp hcount).2 1 rfl
    obtain rfl | rfl : count = 0 ∨ count = 1 := by omega
    · exact .inr (by rwa [pow_zero] at hword)
    · exact .inl (by rwa [pow_one] at hword)
  · rintro (hword | hword)
    · exact ⟨1, by decide, by rwa [pow_one]⟩
    · exact ⟨0, by decide, by rwa [pow_zero]⟩

namespace Pattern
variable (ρ : Nat → Language Char)

/-! ## Tags -/

@[simp] theorem languageWith_withTag (tag : Tag) (p : Pattern) :
    (p.withTag tag).languageWith ρ = p.languageWith ρ := by
  cases p <;> rfl

@[simp] theorem languageWith_named (name : String) (p : Pattern) :
    (p.named name).languageWith ρ = p.languageWith ρ :=
  languageWith_withTag ρ _ p

@[simp] theorem languageWith_namedLike (model p : Pattern) :
    (model.namedLike p).languageWith ρ = p.languageWith ρ := by
  unfold namedLike
  split
  · exact languageWith_named ρ _ p
  · rfl

mutual
theorem languageWith_stamp : ∀ (p : Pattern) (next : Nat),
    (p.stamp next).1.languageWith ρ = p.languageWith ρ
  | .literal ⟨serial, _⟩ _, _ => by cases serial <;> rfl
  | .characterClass ⟨serial, _⟩ _, _ => by cases serial <;> rfl
  | .alternation ⟨serial, _⟩ elements, next => by
    cases serial with
    | none => simpa only [stamp, languageWith] using languageOfAny_stampAll elements (next + 1)
    | some _ => rfl
  | .concatenation ⟨serial, _⟩ elements, next => by
    cases serial with
    | none => simpa only [stamp, languageWith] using languageOfAll_stampAll elements (next + 1)
    | some _ => rfl
  | .repetition ⟨serial, _⟩ inner _ _, next => by
    cases serial with
    | none => simp only [stamp, languageWith, languageWith_stamp inner (next + 1)]
    | some _ => rfl
  | .latch ⟨serial, _⟩ target, next => by
    cases serial with
    | none => simpa only [stamp, languageWith] using languageWith_stamp target (next + 1)
    | some _ => rfl
  | .recursion ⟨serial, _⟩ _, _ => by cases serial <;> rfl

theorem languageOfAny_stampAll : ∀ (elements : List Pattern) (next : Nat),
    languageOfAny ρ (stampAll elements next).1 = languageOfAny ρ elements
  | [], _ => rfl
  | p :: rest, next => by
    simp only [stampAll, languageOfAny, languageWith_stamp p, languageOfAny_stampAll rest]

theorem languageOfAll_stampAll : ∀ (elements : List Pattern) (next : Nat),
    languageOfAll ρ (stampAll elements next).1 = languageOfAll ρ elements
  | [], _ => rfl
  | p :: rest, next => by
    simp only [stampAll, languageOfAll, languageWith_stamp p, languageOfAll_stampAll rest]
end

@[simp] theorem languageWith_enter (heap : Heap) (p : Pattern) :
    (heap.enter p).1.languageWith ρ = p.languageWith ρ :=
  languageWith_stamp ρ p heap.nextSerial

/-! ## Builders -/

@[simp] theorem languageWith_anyOf (elements : List Pattern) :
    (anyOf elements).languageWith ρ = languageOfAny ρ elements := rfl

@[simp] theorem languageWith_inOrder (elements : List Pattern) :
    (inOrder elements).languageWith ρ = languageOfAll ρ elements := rfl

@[simp] theorem languageWith_any (p : Pattern) :
    p.any.languageWith ρ = (p.languageWith ρ)∗ :=
  copies_any _

@[simp] theorem languageWith_oneOrMore (p : Pattern) :
    p.oneOrMore.languageWith ρ = p.languageWith ρ * (p.languageWith ρ)∗ :=
  copies_oneOrMore _

theorem languageOfAll_append (as bs : List Pattern) :
    languageOfAll ρ (as ++ bs) = languageOfAll ρ as * languageOfAll ρ bs := by
  simp only [languageOfAll_eq_prod, List.map_append, List.prod_append]

theorem languageOfAll_parts (p : Pattern) : languageOfAll ρ p.parts = p.languageWith ρ := by
  unfold parts
  split
  · rfl
  · exact mul_one _

theorem languageWith_choice (elements : List Pattern) :
    (choice elements).languageWith ρ = languageOfAny ρ elements := by
  unfold choice
  split
  · exact (add_zero _).symm
  · rfl

theorem languageOfAny_eq_sum (elements : List Pattern) :
    languageOfAny ρ elements = (elements.map (·.languageWith ρ)).sum := by
  induction elements with
  | nil => rfl
  | cons p rest ih => simp [languageOfAny, ih]

theorem languageOfAny_le_iff {elements : List Pattern} {l : Language Char} :
    languageOfAny ρ elements ≤ l ↔ ∀ p ∈ elements, p.languageWith ρ ≤ l := by
  constructor
  · intro h p hp word hw
    exact h (mem_languageOfAny.mpr ⟨p, hp, hw⟩)
  · intro h word hw
    obtain ⟨p, hp, hw⟩ := mem_languageOfAny.mp hw
    exact h p hp hw

theorem languageWith_le_languageOfAny {elements : List Pattern} {p : Pattern}
    (hp : p ∈ elements) : p.languageWith ρ ≤ languageOfAny ρ elements :=
  (languageOfAny_le_iff ρ).mp (le_refl _) p hp

end Pattern

/-! ## Two heaps -/

namespace Heap
variable {heap later : Heap}

theorem language_mono (h : ∀ c, heap.cellLanguage c ≤ later.cellLanguage c) (p : Pattern) :
    heap.language p ≤ later.language p :=
  Pattern.languageWith_mono h p

theorem cellLanguage_congr (h : ∀ c, heap.grammar c = later.grammar c) :
    heap.cellLanguage = later.cellLanguage := by
  have hclosed : ∀ atCell, heap.Closed atCell ↔ later.Closed atCell := by
    intro atCell
    simp only [Closed, h]
  funext c
  ext word
  exact forall_congr' fun atCell => imp_congr_left (hclosed atCell)

theorem language_congr (h : ∀ c, heap.grammar c = later.grammar c) (p : Pattern) :
    heap.language p = later.language p := by
  simp only [language, cellLanguage_congr h]

/-- If `later` differs from `heap` in one cell and matches there whatever `heap` has it bound to,
then no language gets smaller. -/
theorem language_le_of_rebound {c : Nat} (same : ∀ d, d ≠ c → heap.grammar d = later.grammar d)
    (contained : ∀ p, heap.grammar c = some p → later.language p ≤ later.cellLanguage c)
    (p : Pattern) : heap.language p ≤ later.language p := by
  apply language_mono
  apply cellLanguage_le
  intro d q hq
  by_cases hd : d = c
  · subst d
    exact contained q hq
  · rw [same d hd] at hq
    exact later.closed_cellLanguage d q hq

end Heap
end PatternGraph
