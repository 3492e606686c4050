import PatternGraph.Proofs.Resolution
import PatternGraph.RuleSet

/-!
# Assembling a rule set

A rule set is built by handing out references and by definitions, in any order, and the heap may
be used for other things in between. Whatever the order was, each name has one live cell of its
own, and every handle handed out for a name refers to that cell. Nothing is assumed about what the
other uses of the heap bind, only that they take no cell away.
-/

namespace PatternGraph
set_option autoImplicit false

namespace Heap

theorem size_newPlaceholder (heap : Heap) :
    heap.newPlaceholder.2.cells.size = heap.cells.size + 1 := by
  simp [newPlaceholder]

theorem cell_newPlaceholder (heap : Heap) : heap.newPlaceholder.1.cell = heap.cells.size := rfl

end Heap

namespace RuleSet

/-- The rule sets that come of references and definitions, with the handles handed out so far and
the names they were asked for. -/
inductive Assembled : RuleSet → Heap → List (String × Pattern) → Prop where
  | new (heap : Heap) : Assembled {} heap []
  | reference {rules : RuleSet} {heap : Heap} {handles : List (String × Pattern)} (name : String)
      (before : Assembled rules heap handles) :
      Assembled (rules.reference heap name).2.1 (rules.reference heap name).2.2
        ((name, (rules.reference heap name).1) :: handles)
  | define {rules later : RuleSet} {heap heap' : Heap} {handles : List (String × Pattern)}
      (name : String) (body : Pattern) (before : Assembled rules heap handles)
      (accepted : rules.define heap name body = .ok (later, heap')) : Assembled later heap' handles
  /-- Other uses of the heap. -/
  | meanwhile {rules : RuleSet} {heap heap' : Heap} {handles : List (String × Pattern)}
      (before : Assembled rules heap handles) (kept : heap.cells.size ≤ heap'.cells.size) :
      Assembled rules heap' handles

/-- What every step of assembling preserves. -/
structure WellFormed (rules : RuleSet) (heap : Heap) (handles : List (String × Pattern)) :
    Prop where
  live : ∀ name placeholder, rules.placeholder? name = some placeholder →
    placeholder.cell < heap.cells.size
  apart : ∀ name other placeholder, rules.placeholder? name = some placeholder →
    rules.placeholder? other = some placeholder → name = other
  owned : ∀ rule ∈ rules.defined, rules.placeholder? rule.name = some rule.placeholder
  once : (rules.defined.map (·.name)).Nodup
  handed : ∀ handle ∈ handles, ∃ placeholder, rules.placeholder? handle.1 = some placeholder ∧
    handle.2.isReferenceTo placeholder.cell = true

variable {rules : RuleSet} {heap : Heap} {handles : List (String × Pattern)}

theorem mem_of_placeholder? {name : String} {placeholder : Placeholder}
    (h : rules.placeholder? name = some placeholder) : (name, placeholder) ∈ rules.mentioned := by
  obtain ⟨before, after, hsplit, _⟩ := List.lookup_eq_some_iff.mp h
  simp [hsplit]

/-- A name keeps its cell; one without a cell gets a new one. -/
theorem mention_cases (rules : RuleSet) (heap : Heap) (name : String) :
    (∃ placeholder, rules.placeholder? name = some placeholder ∧
      rules.mention heap name = (placeholder, rules, heap)) ∨
    (rules.placeholder? name = none ∧
      rules.mention heap name = (heap.newPlaceholder.1,
        { rules with mentioned := rules.mentioned ++ [(name, heap.newPlaceholder.1)] },
        heap.newPlaceholder.2)) := by
  unfold mention
  cases hname : rules.placeholder? name with
  | some placeholder => exact Or.inl ⟨placeholder, rfl, rfl⟩
  | none => exact Or.inr ⟨rfl, rfl⟩

theorem placeholder?_append (rules : RuleSet) (name : String) (placeholder : Placeholder)
    (hnew : rules.placeholder? name = none) (other : String) :
    ({ rules with mentioned := rules.mentioned ++ [(name, placeholder)] } : RuleSet).placeholder?
        other =
      if other = name then some placeholder else rules.placeholder? other := by
  show (rules.mentioned ++ [(name, placeholder)]).lookup other = _
  rw [List.lookup_append]
  by_cases hother : other = name
  · subst other
    rw [if_pos rfl, show rules.mentioned.lookup name = none from hnew]
    simp
  · have hne : (other == name) = false := by simpa using hother
    rw [if_neg hother]
    simp [List.lookup_cons, hne, placeholder?]

@[simp] theorem defined_mention (rules : RuleSet) (heap : Heap) (name : String) :
    (rules.mention heap name).2.1.defined = rules.defined := by
  rcases mention_cases rules heap name with ⟨_, _, hmention⟩ | ⟨_, hmention⟩
  · rw [hmention]
  · rw [hmention]

theorem placeholder?_mention_self (rules : RuleSet) (heap : Heap) (name : String) :
    (rules.mention heap name).2.1.placeholder? name = some (rules.mention heap name).1 := by
  rcases mention_cases rules heap name with ⟨placeholder, hname, hmention⟩ | ⟨hname, hmention⟩
  · rw [hmention]
    exact hname
  · rw [hmention, placeholder?_append rules name _ hname, if_pos rfl]

theorem of_define_ok {rules later : RuleSet} {heap heap' : Heap} {name : String} {body : Pattern}
    (accepted : rules.define heap name body = .ok (later, heap')) :
    rules.isDefined name = false ∧ heap' = (rules.mention heap name).2.2 ∧
      later = { mentioned := (rules.mention heap name).2.1.mentioned
                defined := rules.defined ++ [⟨name, (rules.mention heap name).1, body⟩] } := by
  unfold define at accepted
  split at accepted
  · exact absurd accepted (by simp)
  · rename_i hundefined
    have hpair := Except.ok.inj accepted
    rw [← defined_mention rules heap name]
    exact ⟨Bool.eq_false_iff.mpr hundefined, (congrArg Prod.snd hpair).symm,
      (congrArg Prod.fst hpair).symm⟩

namespace WellFormed

theorem new (heap : Heap) : ({} : RuleSet).WellFormed heap [] where
  live := by simp [placeholder?]
  apart := by simp [placeholder?]
  owned := by simp
  once := List.nodup_nil
  handed := by simp

theorem mention (h : rules.WellFormed heap handles) (name : String) :
    (rules.mention heap name).2.1.WellFormed (rules.mention heap name).2.2 handles := by
  rcases mention_cases rules heap name with ⟨_, _, hmention⟩ | ⟨hname, hmention⟩
  · rw [hmention]
    exact h
  · rw [hmention]
    have hlookup := placeholder?_append rules name heap.newPlaceholder.1 hname
    -- A name that had a cell before is not the new one, so its cell is still the same.
    have kept : ∀ other placeholder, rules.placeholder? other = some placeholder →
        ({ rules with mentioned := rules.mentioned ++ [(name, heap.newPlaceholder.1)] } :
          RuleSet).placeholder? other = some placeholder := by
      intro other placeholder hother
      rw [hlookup]
      split
      · subst other
        rw [hname] at hother
        exact absurd hother (by simp)
      · exact hother
    refine ⟨?_, ?_, ?_, h.once, ?_⟩
    · intro other placeholder hother
      rw [hlookup] at hother
      rw [Heap.size_newPlaceholder]
      split at hother
      · rw [← Option.some.inj hother, Heap.cell_newPlaceholder]
        exact Nat.lt_succ_self _
      · have hlive := h.live other placeholder hother
        omega
    · intro a b placeholder ha hb
      rw [hlookup] at ha hb
      split at ha
      · split at hb
        · exact ‹a = name›.trans ‹b = name›.symm
        · have hlive := h.live b placeholder hb
          rw [← Option.some.inj ha, Heap.cell_newPlaceholder] at hlive
          omega
      · split at hb
        · have hlive := h.live a placeholder ha
          rw [← Option.some.inj hb, Heap.cell_newPlaceholder] at hlive
          omega
        · exact h.apart a b placeholder ha hb
    · intro rule hrule
      exact kept _ _ (h.owned rule hrule)
    · intro handle hhandle
      obtain ⟨placeholder, hplaceholder, hreference⟩ := h.handed handle hhandle
      exact ⟨placeholder, kept _ _ hplaceholder, hreference⟩

theorem meanwhile (h : rules.WellFormed heap handles) (heap' : Heap)
    (kept : heap.cells.size ≤ heap'.cells.size) : rules.WellFormed heap' handles :=
  { h with live := fun name placeholder hname =>
      Nat.lt_of_lt_of_le (h.live name placeholder hname) kept }

theorem reference (h : rules.WellFormed heap handles) (name : String) :
    (rules.reference heap name).2.1.WellFormed (rules.reference heap name).2.2
      ((name, (rules.reference heap name).1) :: handles) := by
  have hmention := (h.mention name).meanwhile (rules.reference heap name).2.2 (Nat.le_refl _)
  refine { hmention with handed := ?_ }
  intro handle hhandle
  rcases List.mem_cons.mp hhandle with rfl | hhandle
  · refine ⟨_, placeholder?_mention_self rules heap name, ?_⟩
    simp [RuleSet.reference]
  · exact hmention.handed handle hhandle

theorem define (h : rules.WellFormed heap handles) {name : String} {body : Pattern}
    {later : RuleSet} {heap' : Heap} (accepted : rules.define heap name body = .ok (later, heap')) :
    later.WellFormed heap' handles := by
  obtain ⟨hundefined, rfl, rfl⟩ := of_define_ok accepted
  have hmention := h.mention name
  refine ⟨hmention.live, hmention.apart, ?_, ?_, hmention.handed⟩
  · intro rule hrule
    rcases List.mem_append.mp hrule with hrule | hrule
    · rw [← defined_mention rules heap name] at hrule
      exact hmention.owned rule hrule
    · obtain rfl := List.mem_singleton.mp hrule
      exact placeholder?_mention_self rules heap name
  · simp only [List.map_append, List.map_cons, List.map_nil]
    rw [List.nodup_append]
    refine ⟨h.once, by simp, ?_⟩
    intro other hother last hlast hsame
    rw [List.mem_singleton] at hlast
    obtain ⟨rule, hrule, rfl⟩ := List.mem_map.mp hother
    have hdefined : rules.isDefined name = true :=
      List.any_eq_true.mpr ⟨rule, hrule, by simp [hsame, hlast]⟩
    rw [hundefined] at hdefined
    exact absurd hdefined (by decide)

theorem name_eq_of_cell_eq (h : rules.WellFormed heap handles) {rule other : Rule}
    (hrule : rule ∈ rules.defined) (hother : other ∈ rules.defined)
    (hcell : rule.placeholder.cell = other.placeholder.cell) : rule.name = other.name := by
  have hplaceholder : rule.placeholder = other.placeholder := congrArg Placeholder.mk hcell
  have howned := h.owned rule hrule
  rw [hplaceholder] at howned
  exact h.apart _ _ _ howned (h.owned other hother)

theorem cells_nodup (h : rules.WellFormed heap handles) :
    (rules.defined.map (·.placeholder.cell)).Nodup := by
  have honce := h.once
  unfold List.Nodup at honce ⊢
  rw [List.pairwise_map] at honce ⊢
  apply honce.imp_of_mem
  intro rule other hrule hother hname hcell
  exact hname (h.name_eq_of_cell_eq hrule hother hcell)

theorem live_of_mem (h : rules.WellFormed heap handles) {rule : Rule}
    (hrule : rule ∈ rules.defined) : rule.placeholder.cell < heap.cells.size :=
  h.live _ _ (h.owned rule hrule)

theorem isReferenceTo_of_handed (h : rules.WellFormed heap handles) {rule : Rule}
    (hrule : rule ∈ rules.defined) {handle : String × Pattern} (hhandle : handle ∈ handles)
    (hname : rule.name = handle.1) : handle.2.isReferenceTo rule.placeholder.cell = true := by
  obtain ⟨placeholder, hplaceholder, hreference⟩ := h.handed handle hhandle
  have howned := h.owned rule hrule
  rw [hname, hplaceholder, Option.some.injEq] at howned
  rwa [← howned]

end WellFormed

theorem Assembled.wellFormed (h : Assembled rules heap handles) :
    rules.WellFormed heap handles := by
  induction h with
  | new heap => exact .new heap
  | reference name _ ih => exact ih.reference name
  | define name body _ accepted ih => exact ih.define accepted
  | meanwhile _ kept ih => exact ih.meanwhile _ kept

end RuleSet
end PatternGraph
