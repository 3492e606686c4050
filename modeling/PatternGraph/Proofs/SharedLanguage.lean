import PatternGraph.Proofs.LanguageLaws
import PatternGraph.Proofs.StructuralEquality

/-!
# Patterns with the same unfolding have the same words

Words are compared across two heaps, because the cells of one rule set need not have the numbers
they have in another. If every bound cell of the one is matched by a cell of the other that is
bound alike, the languages of the first are contained in those of the second. Equality within one
heap is the case in which both heaps are the same.
-/

namespace PatternGraph
set_option autoImplicit false

namespace Pattern
variable {cells : Nat → Nat → Prop} {ρ σ : Nat → Language Char}

theorem languageOfAny_le_of_forall₂ {ps qs : List Pattern}
    (h : List.Forall₂ (fun p q => p.languageWith ρ ≤ q.languageWith σ) ps qs) :
    languageOfAny ρ ps ≤ languageOfAny σ qs := by
  induction h with
  | nil => exact le_refl _
  | cons hp _ ih => exact add_le_add hp ih

theorem languageOfAll_le_of_forall₂ {ps qs : List Pattern}
    (h : List.Forall₂ (fun p q => p.languageWith ρ ≤ q.languageWith σ) ps qs) :
    languageOfAll ρ ps ≤ languageOfAll σ qs := by
  induction h with
  | nil => exact le_refl _
  | cons hp _ ih => exact mul_le_mul' hp ih

/-- Trees that agree are ordered by their languages as their cells are. -/
theorem languageWith_le_of_alike (each : ∀ c d, cells c d → ρ c ≤ σ d) {p q : Pattern}
    (h : p.Alike cells q) : p.languageWith ρ ≤ q.languageWith σ := by
  refine Alike.induction (motive := fun p q => p.languageWith ρ ≤ q.languageWith σ)
    ?literal ?characterClass ?alternation ?concatenation ?repetition ?latch ?recursion h
  case literal | characterClass => exact fun _ _ _ => le_refl _
  case alternation => exact fun _ _ _ _ hall => languageOfAny_le_of_forall₂ hall
  case concatenation => exact fun _ _ _ _ hall => languageOfAll_le_of_forall₂ hall
  case repetition => exact fun _ _ _ _ min max hinner => copies_mono hinner min max
  case latch => exact fun _ _ _ _ htarget => htarget
  case recursion => exact fun _ _ c d hcd => each c d hcd

end Pattern

namespace Heap
variable {heap other : Heap} {cells : Nat → Nat → Prop}

/-- Each bound cell of the one heap has partners in the other, and all of them are bound alike. -/
def SimulatedBy (heap other : Heap) (cells : Nat → Nat → Prop) : Prop :=
  ∀ c d p, cells c d → heap.grammar c = some p → ∃ q, other.grammar d = some q ∧ p.Alike cells q

theorem SimulatedBy.cellLanguage_le (h : heap.SimulatedBy other cells) {c d : Nat}
    (hcd : cells c d) : heap.cellLanguage c ≤ other.cellLanguage d := by
  -- The words that all partners of a cell have solve the equations of the first heap.
  let shared : Nat → Language Char := fun c => {word | ∀ d, cells c d → word ∈ other.cellLanguage d}
  have hpartner : ∀ a b, cells a b → shared a ≤ other.cellLanguage b :=
    fun a b hab word hword => hword b hab
  have hclosed : heap.Closed shared := by
    intro a p hbound word hword b hab
    obtain ⟨q, hq, halike⟩ := h a b p hab hbound
    exact other.closed_cellLanguage b q hq (Pattern.languageWith_le_of_alike hpartner halike hword)
  exact (Heap.cellLanguage_le hclosed c).trans (hpartner c d hcd)

theorem SimulatedBy.language_le (h : heap.SimulatedBy other cells) {p q : Pattern}
    (hpq : p.Alike cells q) : heap.language p ≤ other.language q :=
  Pattern.languageWith_le_of_alike (fun _ _ hcd => h.cellLanguage_le hcd) hpq

theorem Bisimilar.language_le {p q : Pattern} (h : heap.Bisimilar p q) :
    heap.language p ≤ heap.language q := by
  obtain ⟨cells, hcells, halike⟩ := bisimilar_iff.mp h
  have hsimulated : heap.SimulatedBy heap cells := by
    intro c d p hcd hbound
    have hboth := hcells c d hcd
    unfold BoundAlike at hboth
    cases hd : heap.grammar d with
    | none => simp [hbound, hd] at hboth
    | some q => exact ⟨q, rfl, by simpa [hbound, hd] using hboth⟩
  exact hsimulated.language_le halike

/-- Equal patterns match the same words. -/
theorem language_of_equal {p q : Pattern} (h : heap.equal p q = true) :
    heap.language p = heap.language q := by
  have hpq := equal_iff_bisimilar.mp h
  exact le_antisymm hpq.language_le hpq.symm.language_le

end Heap
end PatternGraph
