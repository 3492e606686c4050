import PatternGraph.Reachability

/-!
# The reached set is exact

The patterns gathered from some starting points are exactly those that a path leads to. Nothing is
gathered but along edges. Conversely a walk leaves no edge open: whatever it adds has its
successors in the result, because the fuel outlasts the cells whose grammar was not met yet.
-/

namespace PatternGraph
set_option autoImplicit false

namespace Heap
variable {heap : Heap} {edges : Edges}

theorem Reaches.trans {p q r : Pattern} (hpq : heap.Reaches edges p q)
    (hqr : heap.Reaches edges q r) : heap.Reaches edges p r := by
  induction hpq with
  | refl _ => exact hqr
  | step h _ ih => exact .step h (ih hqr)

theorem lt_size_of_grammar {c : Nat} {p : Pattern} (h : heap.grammar c = some p) :
    c < heap.cells.size := by
  refine Decidable.byContradiction fun hc => ?_
  have : heap.cells[c]? = none := by simpa using hc
  simp [grammar, cell, this] at h

/-- The number of cells whose grammar has not been met. -/
def unmetCells (heap : Heap) (met : PatternSet) : Nat :=
  (List.range heap.cells.size).countP fun c =>
    (heap.grammar c).any fun p => decide (p ∉ met)

theorem unmetCells_anti {met later : PatternSet} (h : ∀ q ∈ met, q ∈ later) :
    heap.unmetCells later ≤ heap.unmetCells met := by
  refine List.countP_mono_left fun c _ hc => ?_
  cases hg : heap.grammar c with
  | none => simp [hg] at hc
  | some p =>
    simp only [hg, Option.any_some, decide_eq_true_eq] at hc ⊢
    exact fun hp => hc (h p hp)

theorem unmetCells_insert_lt {met : PatternSet} {c : Nat} {p : Pattern}
    (hc : heap.grammar c = some p) (hp : p ∉ met) :
    heap.unmetCells (met.insert p) < heap.unmetCells met := by
  have hlt := lt_size_of_grammar hc
  obtain ⟨before, after, hsplit⟩ := List.append_of_mem (List.mem_range.mpr hlt)
  have hle : ∀ cells : List Nat,
      cells.countP (fun c => (heap.grammar c).any fun q => decide (q ∉ met.insert p)) ≤
        cells.countP (fun c => (heap.grammar c).any fun q => decide (q ∉ met)) := by
    intro cells
    refine List.countP_mono_left fun d _ hd => ?_
    cases hg : heap.grammar d with
    | none => simp [hg] at hd
    | some q =>
      simp only [hg, Option.any_some, decide_eq_true_eq] at hd ⊢
      exact fun hq => hd (PatternSet.mem_insert.mpr (.inr hq))
  unfold unmetCells
  rw [hsplit, List.countP_append, List.countP_append, List.countP_cons, List.countP_cons]
  have hb := hle before
  have ha := hle after
  have hnow : ((heap.grammar c).any fun q => decide (q ∉ met.insert p)) = false := by simp [hc]
  have hthen : ((heap.grammar c).any fun q => decide (q ∉ met)) = true := by simp [hc, hp]
  simp only [hnow, hthen, Bool.false_eq_true, if_false, if_true]
  omega

/-- Nothing is lost, and whatever is added has its successors in the result. -/
structure Grows (heap : Heap) (edges : Edges) (met later : PatternSet) : Prop where
  subset : ∀ q ∈ met, q ∈ later
  closed : ∀ q ∈ later, q ∉ met → ∀ r ∈ heap.successors edges q, r ∈ later

theorem Grows.refl (met : PatternSet) : heap.Grows edges met met :=
  ⟨fun _ h => h, fun _ h hn => absurd h hn⟩

theorem Grows.trans {a b c : PatternSet} (hab : heap.Grows edges a b)
    (hbc : heap.Grows edges b c) : heap.Grows edges a c := by
  refine ⟨fun q h => hbc.subset q (hab.subset q h), fun q hq hn r hr => ?_⟩
  by_cases hb : q ∈ b
  · exact hbc.subset r (hab.closed q hb hn r hr)
  · exact hbc.closed q hq hb r hr

/-- A pattern is added first and its successors afterwards. -/
theorem Grows.of_insert {met later : PatternSet} {p : Pattern}
    (h : heap.Grows edges (met.insert p) later)
    (hp : ∀ r ∈ heap.successors edges p, r ∈ later) : heap.Grows edges met later := by
  refine ⟨fun q hq => h.subset q (PatternSet.mem_insert.mpr (.inr hq)), fun q hq hn r hr => ?_⟩
  by_cases hqp : q = p
  · exact hp r (hqp ▸ hr)
  · exact h.closed q hq (fun hi => (PatternSet.mem_insert.mp hi).elim hqp hn) r hr

/-- What a walk has to do at cells while fewer than `fuel` of them are unmet. -/
def CellsGrow (heap : Heap) (edges : Edges) (fuel : Nat)
    (atCell : Nat → PatternSet → PatternSet) : Prop :=
  ∀ c met, heap.unmetCells met < fuel →
    heap.Grows edges met (atCell c met) ∧ ∀ p, heap.grammar c = some p → p ∈ atCell c met

end Heap

namespace Pattern

theorem gather_of_mem {edges : Edges} {atCell : Nat → PatternSet → PatternSet} {p : Pattern} {met : PatternSet} (h : p ∈ met) :
    p.gather edges atCell met = met := by
  unfold gather
  simp [h]

mutual
theorem grows_gather {heap : Heap} {edges : Edges} {atCell : Nat → PatternSet → PatternSet}
    {fuel : Nat} (hcells : heap.CellsGrow edges fuel atCell) :
    ∀ (p : Pattern) (met : PatternSet), (p ∉ met → heap.unmetCells (met.insert p) < fuel) →
      heap.Grows edges met (p.gather edges atCell met) ∧ p ∈ p.gather edges atCell met
  | p, met, hfuel => by
    by_cases h : p ∈ met
    · rw [gather_of_mem h]
      exact ⟨.refl met, h⟩
    · replace hfuel := hfuel h
      have hp : p ∈ met.insert p := PatternSet.mem_insert.mpr (.inl rfl)
      have finish : ∀ later, heap.Grows edges (met.insert p) later →
          (∀ r ∈ heap.successors edges p, r ∈ later) →
          heap.Grows edges met later ∧ p ∈ later :=
        fun later hg hs => ⟨hg.of_insert hs, hg.subset p hp⟩
      unfold gather
      rw [if_neg h]
      cases p with
      | literal | characterClass =>
        exact finish _ (.refl _) (by cases edges <;> simp [Heap.successors, Heap.elements])
      | alternation tag elements =>
        obtain ⟨hg, hm⟩ := grows_gatherAll hcells elements _ hfuel
        exact finish _ hg (by cases edges <;> simpa [Heap.successors, Heap.elements] using hm)
      | concatenation tag elements =>
        cases edges with
        | all =>
          obtain ⟨hg, hm⟩ := grows_gatherAll hcells elements _ hfuel
          exact finish _ hg (by simpa [Heap.successors, Heap.elements] using hm)
        | leading =>
          cases elements with
          | nil => exact finish _ (.refl _) (by simp [Heap.successors])
          | cons first rest =>
            obtain ⟨hg, hm⟩ := grows_gather hcells first _ fun _ =>
              Nat.lt_of_le_of_lt
                (Heap.unmetCells_anti fun q hq => PatternSet.mem_insert.mpr (.inr hq)) hfuel
            exact finish _ hg (by simpa [Heap.successors, gatherHead] using hm)
      | repetition tag inner min max =>
        obtain ⟨hg, hm⟩ := grows_gather hcells inner _ fun _ =>
          Nat.lt_of_le_of_lt
            (Heap.unmetCells_anti fun q hq => PatternSet.mem_insert.mpr (.inr hq)) hfuel
        exact finish _ hg (by cases edges <;> simpa [Heap.successors, Heap.elements] using hm)
      | latch tag target =>
        obtain ⟨hg, hm⟩ := grows_gather hcells target _ fun _ =>
          Nat.lt_of_le_of_lt
            (Heap.unmetCells_anti fun q hq => PatternSet.mem_insert.mpr (.inr hq)) hfuel
        exact finish _ hg (by cases edges <;> simpa [Heap.successors, Heap.elements] using hm)
      | recursion tag cell =>
        obtain ⟨hg, hm⟩ := hcells cell _ hfuel
        exact finish _ hg (by cases edges <;> simpa [Heap.successors, Heap.elements] using hm)

theorem grows_gatherAll {heap : Heap} {edges : Edges} {atCell : Nat → PatternSet → PatternSet}
    {fuel : Nat} (hcells : heap.CellsGrow edges fuel atCell) :
    ∀ (ps : List Pattern) (met : PatternSet), heap.unmetCells met < fuel →
      heap.Grows edges met (gatherAll edges atCell ps met) ∧
        ∀ p ∈ ps, p ∈ gatherAll edges atCell ps met
  | [], met, _ => ⟨.refl met, by simp⟩
  | p :: rest, met, hfuel => by
    obtain ⟨hg, hp⟩ := grows_gather hcells p met fun _ =>
      Nat.lt_of_le_of_lt
        (Heap.unmetCells_anti fun q hq => PatternSet.mem_insert.mpr (.inr hq)) hfuel
    obtain ⟨hrest, hm⟩ := grows_gatherAll hcells rest (p.gather edges atCell met)
      (Nat.lt_of_le_of_lt (Heap.unmetCells_anti hg.subset) hfuel)
    refine ⟨hg.trans hrest, fun q hq => ?_⟩
    rcases List.mem_cons.mp hq with rfl | hq
    · exact hrest.subset q hp
    · exact hm q hq
end

mutual
theorem reaches_of_mem_gather {heap : Heap} {edges : Edges}
    {atCell : Nat → PatternSet → PatternSet}
    (hcells : ∀ c met q, q ∈ atCell c met →
      q ∈ met ∨ ∃ p, heap.grammar c = some p ∧ heap.Reaches edges p q) :
    ∀ (p : Pattern) {met : PatternSet} {q : Pattern}, q ∈ p.gather edges atCell met →
      q ∈ met ∨ heap.Reaches edges p q
  | p, met, q, hq => by
    by_cases h : p ∈ met
    · rw [gather_of_mem h] at hq
      exact .inl hq
    · have back : q ∈ met.insert p → q ∈ met ∨ heap.Reaches edges p q := by
        intro hi
        rcases PatternSet.mem_insert.mp hi with rfl | hi
        · exact .inr (.refl q)
        · exact .inl hi
      have along : ∀ r ∈ heap.successors edges p, heap.Reaches edges r q →
          q ∈ met ∨ heap.Reaches edges p q := fun r hr hrq => .inr (.step hr hrq)
      unfold gather at hq
      rw [if_neg h] at hq
      cases p with
      | literal | characterClass => exact back hq
      | alternation tag elements =>
        rcases reaches_of_mem_gatherAll hcells elements hq with hi | ⟨r, hr, hrq⟩
        · exact back hi
        · exact along r (by cases edges <;> simpa [Heap.successors, Heap.elements] using hr) hrq
      | concatenation tag elements =>
        cases edges with
        | all =>
          rcases reaches_of_mem_gatherAll hcells elements hq with hi | ⟨r, hr, hrq⟩
          · exact back hi
          · exact along r (by simpa [Heap.successors, Heap.elements] using hr) hrq
        | leading =>
          cases elements with
          | nil => exact back hq
          | cons first rest =>
            rcases reaches_of_mem_gather hcells first hq with hi | hrq
            · exact back hi
            · exact along first (by simp [Heap.successors]) hrq
      | repetition tag inner min max =>
        rcases reaches_of_mem_gather hcells inner hq with hi | hrq
        · exact back hi
        · exact along inner (by cases edges <;> simp [Heap.successors, Heap.elements]) hrq
      | latch tag target =>
        rcases reaches_of_mem_gather hcells target hq with hi | hrq
        · exact back hi
        · exact along target (by cases edges <;> simp [Heap.successors, Heap.elements]) hrq
      | recursion tag cell =>
        rcases hcells cell _ q hq with hi | ⟨r, hr, hrq⟩
        · exact back hi
        · exact along r (by cases edges <;> simpa [Heap.successors, Heap.elements] using hr) hrq

theorem reaches_of_mem_gatherAll {heap : Heap} {edges : Edges}
    {atCell : Nat → PatternSet → PatternSet}
    (hcells : ∀ c met q, q ∈ atCell c met →
      q ∈ met ∨ ∃ p, heap.grammar c = some p ∧ heap.Reaches edges p q) :
    ∀ (ps : List Pattern) {met : PatternSet} {q : Pattern},
      q ∈ gatherAll edges atCell ps met → q ∈ met ∨ ∃ p ∈ ps, heap.Reaches edges p q
  | [], _, _, hq => .inl hq
  | p :: rest, met, q, hq => by
    rcases reaches_of_mem_gatherAll hcells rest hq with hq | ⟨r, hr, hrq⟩
    · rcases reaches_of_mem_gather hcells p hq with hq | hpq
      · exact .inl hq
      · exact .inr ⟨p, List.mem_cons_self, hpq⟩
    · exact .inr ⟨r, List.mem_cons_of_mem p hr, hrq⟩
end

end Pattern

namespace Heap
variable {heap : Heap} {edges : Edges}

theorem cellsGrow_gatherCell (heap : Heap) (edges : Edges) :
    ∀ fuel : Nat, heap.CellsGrow edges fuel (heap.gatherCell edges fuel)
  | 0, _, _, h => absurd h (Nat.not_lt_zero _)
  | fuel + 1, c, met, h => by
    unfold gatherCell
    cases hg : heap.grammar c with
    | none => exact ⟨.refl met, by simp⟩
    | some p =>
      obtain ⟨hgrows, hp⟩ := Pattern.grows_gather (heap.cellsGrow_gatherCell edges fuel) p met
        fun hn => Nat.lt_of_lt_of_le (unmetCells_insert_lt hg hn) (Nat.lt_succ_iff.mp h)
      exact ⟨hgrows, by simpa using hp⟩

theorem reaches_of_mem_gatherCell (heap : Heap) (edges : Edges) :
    ∀ (fuel c : Nat) (met : PatternSet) (q : Pattern), q ∈ heap.gatherCell edges fuel c met →
      q ∈ met ∨ ∃ p, heap.grammar c = some p ∧ heap.Reaches edges p q
  | 0, _, _, _, hq => .inl hq
  | fuel + 1, c, met, q, hq => by
    unfold gatherCell at hq
    cases hg : heap.grammar c with
    | none => simpa [hg] using hq
    | some p =>
      rw [hg] at hq
      rcases Pattern.reaches_of_mem_gather (heap.reaches_of_mem_gatherCell edges fuel) p hq with
        hq | hpq
      · exact .inl hq
      · exact .inr ⟨p, rfl, hpq⟩

/-- The gathered patterns are those that paths lead to. -/
theorem mem_reached_iff {starts : List Pattern} {q : Pattern} :
    q ∈ heap.reached edges starts ↔ ∃ p ∈ starts, heap.Reaches edges p q := by
  constructor
  · intro hq
    rcases Pattern.reaches_of_mem_gatherAll (heap.reaches_of_mem_gatherCell edges _) starts hq with
      hq | h
    · exact absurd hq (PatternSet.notMem_empty q)
    · exact h
  · rintro ⟨p, hp, hpq⟩
    have hunmet : heap.unmetCells {} < heap.cells.size + 1 := by
      refine Nat.lt_succ_of_le ?_
      simpa [unmetCells] using
        List.countP_le_length (l := List.range heap.cells.size)
    obtain ⟨hgrows, hstarts⟩ := Pattern.grows_gatherAll (heap.cellsGrow_gatherCell edges _) starts
      {} hunmet
    have hmem : p ∈ heap.reached edges starts := hstarts p hp
    clear hp
    induction hpq with
    | refl _ => exact hmem
    | step h _ ih =>
      exact ih (hgrows.closed _ hmem (PatternSet.notMem_empty _) _ h)

theorem anyReaches_iff {starts : List Pattern} {root : Identity} :
    heap.anyReaches edges starts root = true ↔
      ∃ p ∈ starts, ∃ q, heap.Reaches edges p q ∧ q.identity = root := by
  simp only [anyReaches, List.any_eq_true, beq_iff_eq, PatternSet.mem_toList, mem_reached_iff]
  constructor
  · rintro ⟨q, ⟨p, hp, hpq⟩, hq⟩
    exact ⟨p, hp, q, hpq, hq⟩
  · rintro ⟨p, hp, q, hpq, hq⟩
    exact ⟨q, ⟨p, hp, hpq⟩, hq⟩

theorem reaches_iff {p : Pattern} {root : Identity} :
    heap.reaches edges p root = true ↔ ∃ q, heap.Reaches edges p q ∧ q.identity = root := by
  simp [reaches, anyReaches_iff]

end Heap
end PatternGraph
