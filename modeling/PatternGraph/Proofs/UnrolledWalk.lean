import PatternGraph.Proofs.GuardedWalk
import PatternGraph.Proofs.StructuralEquality

/-!
# Unrolled walks

A guarded walk gives up where it would enter a cell that it stands inside. Unrolling a walk gives
up at a fixed depth instead, whichever cells it has come through, so its answer depends on the
unfolding alone. In a monotone walk giving up anywhere means giving up altogether. Then both find
the same answer at every depth beyond the number of cells: what the guarded walk does not enter a
second time would never have come to an end.
-/

namespace PatternGraph
set_option autoImplicit false

namespace Walk
variable {β : Type} {walk : Walk β} {grammar : Nat → Option Pattern}

/-- The walk from a cell that gives up below the given number of cells. -/
def unrolled (walk : Walk β) (grammar : Nat → Option Pattern) : Nat → Nat → β
  | 0, _ => walk.onRepeat
  | depth + 1, c =>
    match grammar c with
    | none => walk.onUnbound
    | some p => walk.onTree (walk.unrolled grammar depth) p

/-- The first answer is to give up, or it is the second one. -/
def Below (walk : Walk β) (x y : β) : Prop := x = walk.onRepeat ∨ x = y

/-- A walk that gives up where one of the answers it asks for is to give up. -/
structure Monotone (walk : Walk β) : Prop where
  below : ∀ (atCell atCell' : Nat → β) (p : Pattern),
    (∀ c, walk.Below (atCell c) (atCell' c)) →
      walk.Below (walk.onTree atCell p) (walk.onTree atCell' p)

/-- Such a walk that, in addition, sees of a tree only its form and the answers at its cells. -/
structure Strict (walk : Walk β) : Prop extends Monotone walk where
  alike : ∀ (atCell atCell' : Nat → β) (p q : Pattern),
    p.Alike (fun c d => atCell c = atCell' d) q → walk.onTree atCell p = walk.onTree atCell' q

namespace Below
variable {x y z : β}

theorem refl (x : β) : walk.Below x x := Or.inr rfl

theorem trans (hxy : walk.Below x y) (hyz : walk.Below y z) : walk.Below x z := by
  rcases hxy with hgiven | rfl
  · exact Or.inl hgiven
  · exact hyz

theorem antisymm (hxy : walk.Below x y) (hyx : walk.Below y x) : x = y := by
  rcases hxy with hx | hsame
  · rcases hyx with hy | hsame
    · exact hx.trans hy.symm
    · exact hsame.symm
  · exact hsame

end Below

theorem unrolled_unbound {c : Nat} (h : grammar c = none) (depth : Nat) :
    walk.unrolled grammar (depth + 1) c = walk.onUnbound := by
  simp [unrolled, h]

theorem unrolled_bound {c : Nat} {p : Pattern} (h : grammar c = some p) (depth : Nat) :
    walk.unrolled grammar (depth + 1) c = walk.onTree (walk.unrolled grammar depth) p := by
  simp [unrolled, h]

namespace Monotone

theorem unrolled_below_succ (h : walk.Monotone) (grammar : Nat → Option Pattern) (depth : Nat) :
    ∀ c, walk.Below (walk.unrolled grammar depth c) (walk.unrolled grammar (depth + 1) c) := by
  induction depth with
  | zero =>
    intro c
    exact Or.inl rfl
  | succ depth ih =>
    intro c
    cases hc : grammar c with
    | none =>
      rw [unrolled_unbound hc, unrolled_unbound hc]
      exact .refl _
    | some p =>
      rw [unrolled_bound hc, unrolled_bound hc]
      exact h.below _ _ p ih

theorem unrolled_below (h : walk.Monotone) {depth deeper : Nat} (hle : depth ≤ deeper) (c : Nat) :
    walk.Below (walk.unrolled grammar depth c) (walk.unrolled grammar deeper c) := by
  induction hle with
  | refl => exact .refl _
  | @step deeper _ ih => exact ih.trans (h.unrolled_below_succ grammar deeper c)

theorem atCell_below_unrolled (h : walk.Monotone) (fuel : Nat) : ∀ (inside : List Nat) (c : Nat),
    walk.Below (walk.atCell grammar fuel inside c) (walk.unrolled grammar fuel c) := by
  induction fuel with
  | zero =>
    intro inside c
    exact Or.inl rfl
  | succ fuel ih =>
    intro inside c
    by_cases hmet : c ∈ inside
    · exact Or.inl (walk.atCell_of_mem grammar _ hmet)
    · cases hc : grammar c with
      | none =>
        rw [walk.atCell_unbound fuel hmet hc, unrolled_unbound hc]
        exact .refl _
      | some p =>
        rw [walk.atCell_bound fuel hmet hc, unrolled_bound hc]
        exact h.below _ _ p (ih (c :: inside))

/-- The guarded walk has every answer that is found at some depth, as long as the cells it stands
inside have none at that depth. -/
theorem unrolled_below_atCell (h : walk.Monotone) {heap : Heap} (depth : Nat) :
    ∀ (fuel : Nat) (inside : List Nat) (c : Nat), inside.Nodup →
      (∀ d ∈ inside, d < heap.cells.size) → heap.cells.size < fuel + inside.length →
      (∀ d ∈ inside, walk.unrolled heap.grammar depth d = walk.onRepeat) →
      walk.Below (walk.unrolled heap.grammar depth c)
        (walk.atCell heap.grammar fuel inside c) := by
  induction depth with
  | zero =>
    intro _ _ _ _ _ _ _
    exact Or.inl rfl
  | succ depth ih =>
    intro fuel inside c hnodup hlive hfuel hnone
    have hearlier : ∀ d ∈ inside, walk.unrolled heap.grammar depth d = walk.onRepeat := by
      intro d hd
      rcases h.unrolled_below_succ heap.grammar depth d with hgiven | hsame
      · exact hgiven
      · exact hsame.trans (hnone d hd)
    rcases h.unrolled_below_succ heap.grammar depth c with hgiven | hsame
    · -- The answer at `c` is found at this depth first, so `c` joins the cells without one.
      by_cases hmet : c ∈ inside
      · exact Or.inl (hnone c hmet)
      · cases fuel with
        | zero =>
          have hlength := Heap.length_le_size_of_nodup hnodup hlive
          omega
        | succ fuel =>
          cases hc : heap.grammar c with
          | none =>
            rw [walk.atCell_unbound fuel hmet hc, unrolled_unbound hc]
            exact .refl _
          | some p =>
            rw [walk.atCell_bound fuel hmet hc, unrolled_bound hc]
            apply h.below
            intro e
            apply ih fuel (c :: inside) e (List.nodup_cons.mpr ⟨hmet, hnodup⟩)
            · exact List.forall_mem_cons.mpr ⟨Heap.lt_size_of_grammar hc, hlive⟩
            · rw [List.length_cons]
              omega
            · exact List.forall_mem_cons.mpr ⟨hgiven, hearlier⟩
    · rw [← hsame]
      exact ih fuel inside c hnodup hlive hfuel hearlier

theorem atCell_eq_unrolled (h : walk.Monotone) {heap : Heap} {depth : Nat}
    (hdepth : heap.cells.size < depth) (c : Nat) :
    walk.atCell heap.grammar (heap.cells.size + 1) [] c = walk.unrolled heap.grammar depth c := by
  apply Below.antisymm
  · exact (h.atCell_below_unrolled _ [] c).trans (h.unrolled_below hdepth c)
  · exact h.unrolled_below_atCell depth _ [] c List.nodup_nil (by simp) (by simp) (by simp)

theorem run_eq_unrolled (h : walk.Monotone) {heap : Heap} {depth : Nat}
    (hdepth : heap.cells.size < depth) (p : Pattern) :
    walk.run heap p = walk.onTree (walk.unrolled heap.grammar depth) p := by
  have hcells : walk.atCell heap.grammar (heap.cells.size + 1) [] =
      walk.unrolled heap.grammar depth := funext fun c => h.atCell_eq_unrolled hdepth c
  rw [run, hcells]

/-- Entering a bound cell first makes no difference. -/
theorem atCell_eq_run (h : walk.Monotone) {heap : Heap} {c : Nat} {p : Pattern}
    (hbound : heap.grammar c = some p) :
    walk.atCell heap.grammar (heap.cells.size + 1) [] c = walk.run heap p := by
  rw [h.run_eq_unrolled (Nat.lt_succ_self _), ← unrolled_bound hbound]
  exact h.atCell_eq_unrolled (by omega) c

end Monotone

namespace Strict

theorem unrolled_eq_of_bisimulation (h : walk.Strict) {heap : Heap} {cells : Nat → Nat → Prop}
    (hcells : heap.IsCellBisimulation cells) (depth : Nat) : ∀ c d, cells c d →
      walk.unrolled heap.grammar depth c = walk.unrolled heap.grammar depth d := by
  induction depth with
  | zero =>
    intro _ _ _
    rfl
  | succ depth ih =>
    intro c d hcd
    have hbound := hcells c d hcd
    unfold Heap.BoundAlike at hbound
    unfold unrolled
    cases hc : heap.grammar c <;> cases hd : heap.grammar d <;> simp only [hc, hd] at hbound ⊢
    exact h.alike _ _ _ _ (hbound.mono ih)

/-- A strict walk cannot tell patterns with the same unfolding apart. -/
theorem run_eq_of_bisimilar (h : walk.Strict) {heap : Heap} {p q : Pattern}
    (hpq : heap.Bisimilar p q) : walk.run heap p = walk.run heap q := by
  obtain ⟨cells, hcells, halike⟩ := Heap.bisimilar_iff.mp hpq
  rw [h.run_eq_unrolled (Nat.lt_succ_self _), h.run_eq_unrolled (Nat.lt_succ_self _)]
  exact h.alike _ _ p q (halike.mono (h.unrolled_eq_of_bisimulation hcells _))

end Strict
end Walk
end PatternGraph
