import PatternGraph.Proofs.LanguageLaws
import PatternGraph.Proofs.Regularity

/-!
# Finite unfoldings

Looking through latches and bound recursions leaves a tree without either, if it ever ends. A
regular pattern has such a tree, no pattern has two, and the words of the tree are the words of the
pattern. The tree needs no heap any more, so its language does not depend on what a cell matches.
-/

namespace PatternGraph
set_option autoImplicit false

namespace Heap

/-- The tree that is left of a pattern when latches and recursions are looked through. -/
inductive Unfolds (heap : Heap) : Pattern → Pattern → Prop where
  | literal (tag : Tag) (text : String) : Unfolds heap (.literal tag text) (.literal tag text)
  | characterClass (tag : Tag) (cls : CharacterClass) :
      Unfolds heap (.characterClass tag cls) (.characterClass tag cls)
  | alternation {tag : Tag} {elements trees : List Pattern}
      (length : elements.length = trees.length)
      (each : ∀ p tree, (p, tree) ∈ elements.zip trees → Unfolds heap p tree) :
      Unfolds heap (.alternation tag elements) (.alternation tag trees)
  | concatenation {tag : Tag} {elements trees : List Pattern}
      (length : elements.length = trees.length)
      (each : ∀ p tree, (p, tree) ∈ elements.zip trees → Unfolds heap p tree) :
      Unfolds heap (.concatenation tag elements) (.concatenation tag trees)
  | repetition {tag : Tag} {inner tree : Pattern} {min : Nat} {max : Option Nat}
      (once : Unfolds heap inner tree) :
      Unfolds heap (.repetition tag inner min max) (.repetition tag tree min max)
  | latch {tag : Tag} {target tree : Pattern} (through : Unfolds heap target tree) :
      Unfolds heap (.latch tag target) tree
  | recursion {tag : Tag} {cell : Nat} {grammar tree : Pattern}
      (bound : heap.grammar cell = some grammar) (through : Unfolds heap grammar tree) :
      Unfolds heap (.recursion tag cell) tree

variable {heap : Heap} {p tree : Pattern}

theorem map_languageWith_eq {ρ σ : Nat → Language Char} {elements trees : List Pattern}
    (h : List.Forall₂ (fun p tree => p.languageWith ρ = tree.languageWith σ) elements trees) :
    elements.map (·.languageWith ρ) = trees.map (·.languageWith σ) := by
  induction h with
  | nil => rfl
  | cons hhead _ ih => simp only [List.map_cons, hhead, ih]

theorem Unfolds.language_eq (h : heap.Unfolds p tree) (atCell : Nat → Language Char) :
    heap.language p = tree.languageWith atCell := by
  unfold language
  induction h with
  | literal tag text => rfl
  | characterClass tag cls => rfl
  | alternation length _ ih =>
    simp only [Pattern.languageWith, Pattern.languageOfAny_eq_sum]
    rw [map_languageWith_eq (List.forall₂_iff_zip.mpr ⟨length, fun h => ih _ _ h⟩)]
  | concatenation length _ ih =>
    simp only [Pattern.languageWith, Pattern.languageOfAll_eq_prod]
    rw [map_languageWith_eq (List.forall₂_iff_zip.mpr ⟨length, fun h => ih _ _ h⟩)]
  | repetition _ ih => simp only [Pattern.languageWith, ih]
  | latch _ ih => simpa only [Pattern.languageWith] using ih
  | recursion bound _ ih =>
    rw [← ih]
    exact cellLanguage_of_bound bound

theorem forall₂_unique {α β : Type} {related : α → β → Prop} {as : List α} {bs others : List β}
    (h : List.Forall₂ (fun a b => ∀ other, related a other → other = b) as bs)
    (k : List.Forall₂ related as others) : others = bs := by
  induction h generalizing others with
  | nil =>
    cases k
    rfl
  | cons hhead _ ih =>
    cases k with
    | cons khead ktail => rw [hhead _ khead, ih ktail]

/-- The tree is unique, so it may be called the unfolding of the pattern. -/
theorem Unfolds.unique (h : heap.Unfolds p tree) :
    ∀ other, heap.Unfolds p other → other = tree := by
  induction h with
  | literal tag text =>
    intro other hother
    cases hother
    rfl
  | characterClass tag cls =>
    intro other hother
    cases hother
    rfl
  | alternation length _ ih =>
    intro other hother
    cases hother with
    | alternation lengthOther eachOther =>
      have htrees := List.forall₂_iff_zip.mpr ⟨length, fun h => ih _ _ h⟩
      have hothers := List.forall₂_iff_zip.mpr ⟨lengthOther, fun h => eachOther _ _ h⟩
      rw [forall₂_unique htrees hothers]
  | concatenation length _ ih =>
    intro other hother
    cases hother with
    | concatenation lengthOther eachOther =>
      have htrees := List.forall₂_iff_zip.mpr ⟨length, fun h => ih _ _ h⟩
      have hothers := List.forall₂_iff_zip.mpr ⟨lengthOther, fun h => eachOther _ _ h⟩
      rw [forall₂_unique htrees hothers]
  | repetition _ ih =>
    intro other hother
    cases hother with
    | repetition once => rw [ih _ once]
  | latch _ ih =>
    intro other hother
    cases hother with
    | latch through => exact ih _ through
  | recursion bound _ ih =>
    intro other hother
    cases hother with
    | recursion boundOther through =>
      obtain rfl := Option.some.inj (bound.symm.trans boundOther)
      exact ih _ through

theorem exists_trees {elements : List Pattern}
    (h : ∀ p ∈ elements, ∃ tree, heap.Unfolds p tree) :
    ∃ trees, List.Forall₂ heap.Unfolds elements trees := by
  induction elements with
  | nil => exact ⟨[], .nil⟩
  | cons p rest ih =>
    obtain ⟨hp, hrest⟩ := List.forall_mem_cons.mp h
    obtain ⟨tree, htree⟩ := hp
    obtain ⟨trees, htrees⟩ := ih hrest
    exact ⟨tree :: trees, .cons htree htrees⟩

theorem Regular.exists_unfolds (h : heap.Regular p) : ∃ tree, heap.Unfolds p tree := by
  induction h with
  | @intro p _ bound _ ih =>
    cases p with
    | literal tag text => exact ⟨_, .literal tag text⟩
    | characterClass tag cls => exact ⟨_, .characterClass tag cls⟩
    | alternation tag elements =>
      obtain ⟨trees, htrees⟩ := exists_trees ih
      obtain ⟨hlength, heach⟩ := List.forall₂_iff_zip.mp htrees
      exact ⟨_, .alternation hlength fun _ _ h => heach h⟩
    | concatenation tag elements =>
      obtain ⟨trees, htrees⟩ := exists_trees ih
      obtain ⟨hlength, heach⟩ := List.forall₂_iff_zip.mp htrees
      exact ⟨_, .concatenation hlength fun _ _ h => heach h⟩
    | repetition tag inner min max =>
      obtain ⟨tree, htree⟩ := ih inner (List.mem_singleton.mpr rfl)
      exact ⟨_, .repetition htree⟩
    | latch tag target =>
      obtain ⟨tree, htree⟩ := ih target (List.mem_singleton.mpr rfl)
      exact ⟨tree, .latch htree⟩
    | recursion tag cell =>
      have hbound := bound cell (by simp [Pattern.isReferenceTo])
      obtain ⟨grammar, hgrammar⟩ := Option.isSome_iff_exists.mp hbound
      obtain ⟨tree, htree⟩ := ih grammar (by simp [hgrammar])
      exact ⟨tree, .recursion hgrammar htree⟩

end Heap
end PatternGraph
