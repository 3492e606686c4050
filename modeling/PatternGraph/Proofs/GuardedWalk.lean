import PatternGraph.ReachedSet
import PatternGraph.Unfolding

/-!
# Guarded walks

What holds at every cell of a guarded walk follows from what holds where it stops and from what a
tree passes on, whatever cells it stands inside. For the answers it gives inside a cell, and to
see that its fuel never runs out, the cells that it stands inside have to be followed: each of
them leads to where the walk is now, and none of them is met twice.
-/

namespace PatternGraph
set_option autoImplicit false

namespace Heap

@[simp] theorem successors_all (heap : Heap) (p : Pattern) :
    heap.successors .all p = heap.elements p := by
  cases p <;> rfl

@[simp] theorem elements_recursion (heap : Heap) (tag : Tag) (cell : Nat) :
    heap.elements (.recursion tag cell) = (heap.grammar cell).toList := rfl

theorem Reaches.of_element {heap : Heap} {p q r : Pattern} (hq : q ∈ heap.elements p)
    (hqr : heap.Reaches .all q r) : heap.Reaches .all p r :=
  .step (by rwa [successors_all]) hqr

/-- Every reference to a cell leads to the same places, whatever its tag. -/
theorem isRecursive_recursion_iff {heap : Heap} {tag : Tag} {cell : Nat} :
    heap.isRecursive (.recursion tag cell) = true ↔
      ∃ p, heap.grammar cell = some p ∧
        ∃ other, heap.Reaches .all p (.recursion other cell) := by
  unfold isRecursive returns
  rw [anyReaches_iff]
  simp only [successors_all, elements_recursion, Option.mem_toList]
  constructor
  · intro h
    obtain ⟨p, hp, q, hpq, hq⟩ := h
    cases q with
    | recursion other cell' =>
      have hsame : cell' = cell := by simpa [Pattern.identity] using hq
      subst cell'
      exact ⟨p, hp, other, hpq⟩
    | _ => simp [Pattern.identity] at hq
  · intro h
    obtain ⟨p, hp, other, hpq⟩ := h
    exact ⟨p, hp, _, hpq, rfl⟩

theorem length_le_size_of_nodup {heap : Heap} {cells : List Nat} (hnodup : cells.Nodup)
    (hlive : ∀ c ∈ cells, c < heap.cells.size) : cells.length ≤ heap.cells.size := by
  have hsubset : cells ⊆ List.range heap.cells.size := by
    intro c hc
    exact List.mem_range.mpr (hlive c hc)
  simpa using List.Nodup.length_le_of_subset hnodup hsubset

/-- The cells that a walk stands inside when it has come to `p`. -/
structure Inside (heap : Heap) (inside : List Nat) (p : Pattern) : Prop where
  nodup : inside.Nodup
  leads : ∀ c ∈ inside, ∃ q, heap.grammar c = some q ∧ heap.Reaches .all q p

namespace Inside
variable {heap : Heap} {inside : List Nat} {p : Pattern}

theorem nil (p : Pattern) : heap.Inside [] p := ⟨List.nodup_nil, by simp⟩

theorem along {q : Pattern} (h : heap.Inside inside p) (hpq : heap.Reaches .all p q) :
    heap.Inside inside q := by
  refine ⟨h.nodup, ?_⟩
  intro c hc
  obtain ⟨r, hr, hrp⟩ := h.leads c hc
  exact ⟨r, hr, hrp.trans hpq⟩

theorem enter {tag : Tag} {cell : Nat} {grammar : Pattern}
    (h : heap.Inside inside (.recursion tag cell)) (hnew : cell ∉ inside)
    (hbound : heap.grammar cell = some grammar) : heap.Inside (cell :: inside) grammar := by
  refine ⟨List.nodup_cons.mpr ⟨hnew, h.nodup⟩, ?_⟩
  intro c hc
  rcases List.mem_cons.mp hc with rfl | hc
  · exact ⟨grammar, hbound, .refl grammar⟩
  · obtain ⟨r, hr, hrp⟩ := h.leads c hc
    have hstep : heap.Reaches .all (.recursion tag cell) grammar :=
      .of_element (by simp [hbound]) (.refl grammar)
    exact ⟨r, hr, hrp.trans hstep⟩

theorem length_le (h : heap.Inside inside p) : inside.length ≤ heap.cells.size := by
  apply length_le_size_of_nodup h.nodup
  intro c hc
  obtain ⟨q, hq, _⟩ := h.leads c hc
  exact lt_size_of_grammar hq

theorem isRecursive {tag : Tag} {cell : Nat} (h : heap.Inside inside (.recursion tag cell))
    (hmet : cell ∈ inside) : heap.isRecursive (.recursion tag cell) = true := by
  obtain ⟨q, hq, hreach⟩ := h.leads cell hmet
  exact isRecursive_recursion_iff.mpr ⟨q, hq, tag, hreach⟩

end Inside
end Heap

namespace Walk
variable {β : Type} {walk : Walk β} {grammar : Nat → Option Pattern}

/-- Induction over the cells of a walk, where the cells it stands inside do not matter. -/
theorem atCell_induction {P : Nat → β → Prop} (onRepeat : ∀ c, P c walk.onRepeat)
    (onUnbound : ∀ c, grammar c = none → P c walk.onUnbound)
    (onTree : ∀ c p atCell, grammar c = some p → (∀ d, P d (atCell d)) →
      P c (walk.onTree atCell p)) :
    ∀ (fuel : Nat) (inside : List Nat) (c : Nat), P c (walk.atCell grammar fuel inside c) := by
  intro fuel
  induction fuel with
  | zero =>
    intro _ c
    exact onRepeat c
  | succ fuel ih =>
    intro inside c
    unfold atCell
    split
    · exact onRepeat c
    · split
      · exact onUnbound c ‹_›
      · exact onTree c _ _ ‹_› fun d => ih _ d

end Walk
end PatternGraph
