import PatternGraph.Proofs.CellLifeCycle
import PatternGraph.Proofs.SettledRules

/-!
# Rule sets that cannot be finished

A rule set has one way to fail once every name is defined: a rule whose body is a reference to the
rule itself. By then all bodies have been bound, and the rules before it have been resolved, and
none of this is undone. So the first such rule divides the others into those that are settled and
those that keep their bodies as defined, while no other cell is touched. A resolution that fails on
its own leaves no trace, and neither does a name without a body, which is found before anything is
bound.
-/

namespace PatternGraph
set_option autoImplicit false

namespace Heap
variable {heap later : Heap} {rules : List Rule} {stored : List (String × Pattern)}

theorem shape_eq_unproductive_iff {cell : Nat} {body : Pattern} :
    heap.shape cell body = .unproductive ↔ body.isReferenceTo cell = true := by
  constructor
  · intro h
    unfold shape alternationShape Pattern.concatenationShape at h
    grind
  · intro h
    unfold shape
    exact if_pos h

theorem resolve_of_isReferenceTo {body : Pattern} {placeholder : Placeholder}
    {requireRecursion : Bool} (h : body.isReferenceTo placeholder.cell = true) :
    heap.resolve body placeholder requireRecursion = .error .unproductive := by
  rw [resolve, shape_eq_unproductive_iff.mpr h]

theorem resolve_eq_ok {body : Pattern} {placeholder : Placeholder}
    (h : body.isReferenceTo placeholder.cell = false) :
    ∃ p later, heap.resolve body placeholder false = .ok (p, later) := by
  unfold resolve
  split
  · rename_i hshape
    rw [shape_eq_unproductive_iff.mp hshape] at h
    exact absurd h (by decide)
  · exact ⟨_, _, rfl⟩
  · exact ⟨_, _, rfl⟩

theorem resolveRules_cons {rule : Rule} {rest : List Rule} {p : Pattern} {resolved : Heap}
    (h : heap.resolve rule.body rule.placeholder false = .ok (p, resolved)) :
    heap.resolveRules (rule :: rest) =
      (((resolved.enter (p.named rule.name)).2.resolveRules rest).1.map
          ((rule.name, (resolved.enter (p.named rule.name)).1) :: ·),
        ((resolved.enter (p.named rule.name)).2.resolveRules rest).2) := by
  simp only [resolveRules, h]

/-- The first rule whose body is a reference to the rule itself, with the rules around it. -/
structure StuckAt (heap : Heap) (rules before : List Rule) (rule : Rule) (rest : List Rule)
    (later : Heap) : Prop where
  split : rules = before ++ rule :: rest
  resolved : ∃ stored, heap.resolveRules before = (.ok stored, later)
  selfReference : rule.body.isReferenceTo rule.placeholder.cell = true

/-- Resolving in turn succeeds or gets stuck, and it gets stuck in one way only. -/
theorem resolveRules_cases (heap : Heap) (rules : List Rule) :
    (∃ stored later, heap.resolveRules rules = (.ok stored, later) ∧
      ∀ rule ∈ rules, rule.body.isReferenceTo rule.placeholder.cell = false) ∨
    ∃ before rule rest later, heap.resolveRules rules = (.error .unproductive, later) ∧
      heap.StuckAt rules before rule rest later := by
  induction rules generalizing heap with
  | nil => exact Or.inl ⟨[], heap, rfl, by simp⟩
  | cons rule rest ih =>
    cases hself : rule.body.isReferenceTo rule.placeholder.cell with
    | true =>
      refine Or.inr ⟨[], rule, rest, heap, ?_, rfl, ⟨[], rfl⟩, hself⟩
      simp only [resolveRules, resolve_of_isReferenceTo hself]
    | false =>
      obtain ⟨p, resolved, hresolve⟩ := heap.resolve_eq_ok hself
      rcases ih (resolved.enter (p.named rule.name)).2 with
        ⟨stored, later, hrest, hothers⟩ | ⟨before, other, others, later, hrest, hstuck⟩
      · refine Or.inl ⟨(rule.name, (resolved.enter (p.named rule.name)).1) :: stored, later, ?_,
          List.forall_mem_cons.mpr ⟨hself, hothers⟩⟩
        rw [resolveRules_cons hresolve, hrest]
        rfl
      · obtain ⟨stored, hbefore⟩ := hstuck.resolved
        refine Or.inr ⟨rule :: before, other, others, later, ?_, ?_,
          ⟨(rule.name, (resolved.enter (p.named rule.name)).1) :: stored, ?_⟩, hstuck.selfReference⟩
        · rw [resolveRules_cons hresolve, hrest]
          rfl
        · rw [hstuck.split, List.cons_append]
        · rw [resolveRules_cons hresolve, hbefore]
          rfl

/-- Every rule that was resolved has its cell bound and frozen. -/
theorem frozen_of_resolveRules (apart : (rules.map (·.placeholder.cell)).Nodup)
    (live : ∀ rule ∈ rules, rule.placeholder.cell < heap.cells.size)
    (hrun : heap.resolveRules rules = (.ok stored, later)) :
    ∀ rule ∈ rules, later.isBound rule.placeholder.cell = true ∧
      later.isFrozen rule.placeholder.cell = true := by
  induction rules generalizing heap stored with
  | nil => simp
  | cons rule rest ih =>
    obtain ⟨p, resolved, others, hresolve, hrest, _⟩ := resolveRules_cons_ok hrun
    obtain ⟨hnew, hapart⟩ := List.nodup_cons.mp apart
    obtain ⟨hlive, hothers⟩ := List.forall_mem_cons.mp live
    rw [List.forall_mem_cons]
    constructor
    · have hkept : later.cell rule.placeholder.cell = resolved.cell rule.placeholder.cell := by
        have hspends := spends_resolveRules (resolved.enter (p.named rule.name)).2 hapart
        rw [hrest] at hspends
        apply hspends.same
        simpa using hnew
      have hsettled := settled_of_resolve hresolve hlive
      simpa only [isBound, isFrozen, grammar, hkept] using hsettled
    · refine ih hapart ?_ hrest
      intro other hother
      exact Nat.lt_of_lt_of_le (hothers other hother) (spends_of_resolve hresolve).size_le

/-- What is left when a rule set with all bodies bound gets stuck. -/
theorem StuckAt.cells {before rest : List Rule} {rule : Rule}
    (h : (heap.bindBodies rules).StuckAt rules before rule rest later)
    (apart : (rules.map (·.placeholder.cell)).Nodup)
    (live : ∀ rule ∈ rules, rule.placeholder.cell < heap.cells.size) :
    (∀ other ∈ before, later.isBound other.placeholder.cell = true ∧
      later.isFrozen other.placeholder.cell = true) ∧
    (∀ other ∈ rule :: rest, later.grammar other.placeholder.cell = some other.body ∧
      later.isFrozen other.placeholder.cell = heap.isFrozen other.placeholder.cell) ∧
    ∀ c, (∀ other ∈ rules, other.placeholder.cell ≠ c) → later.cell c = heap.cell c := by
  have hprovisional := provisional_bindBodies heap apart live
  have hbodies := heap.spends_bindBodies apart
  obtain ⟨stored, hbefore⟩ := h.resolved
  obtain rfl := h.split
  rw [List.map_append, List.nodup_append] at apart
  obtain ⟨hapart, _, hdisjoint⟩ := apart
  have hspends := spends_resolveRules ((heap.bindBodies (before ++ rule :: rest))) hapart
  rw [hbefore] at hspends
  refine ⟨?_, ?_, ?_⟩
  · refine frozen_of_resolveRules hapart ?_ hbefore
    intro other hother
    exact Nat.lt_of_lt_of_le (live other (List.mem_append_left _ hother)) hbodies.size_le
  · intro other hother
    have hrest : ∀ placeholder ∈ before.map (·.placeholder),
        placeholder.cell ≠ other.placeholder.cell := by
      intro placeholder hplaceholder
      obtain ⟨earlier, hearlier, rfl⟩ := List.mem_map.mp hplaceholder
      exact hdisjoint _ (List.mem_map_of_mem hearlier) _ (List.mem_map_of_mem hother)
    refine ⟨(hprovisional.after hbefore).bound other hother, ?_⟩
    rw [hspends.isFrozen_eq hrest, isFrozen_bindBodies]
  · intro c hc
    rw [hspends.same, hbodies.same]
    · exact List.forall_mem_map.mpr hc
    · exact List.forall_mem_map.mpr fun other hother => hc other (List.mem_append_left _ hother)

end Heap

namespace RuleSet
variable {rules : RuleSet} {heap later : Heap} {handles : List (String × Pattern)}
  {error : ResolveError}

/-- What a failed run of a rule set leaves in the heap. Without a body for every name it is
nothing. Otherwise the rules before the first that is a mere reference to itself are settled, that
rule and the ones after it keep their bodies as defined, and all other cells are as before. -/
theorem cells_of_failed_finish (built : rules.Assembled heap handles)
    (failed : rules.finish heap = (.error error, later)) :
    (∃ name, rules.undefined? = some name ∧ error = .undefinedRule name ∧ later = heap) ∨
    (rules.undefined? = none ∧ error = .unproductive ∧
      ∃ before rule rest, rules.defined = before ++ rule :: rest ∧
        rule.body.isReferenceTo rule.placeholder.cell = true ∧
        (∀ other ∈ before, later.isBound other.placeholder.cell = true ∧
          later.isFrozen other.placeholder.cell = true) ∧
        (∀ other ∈ rule :: rest, later.grammar other.placeholder.cell = some other.body ∧
          later.isFrozen other.placeholder.cell = heap.isFrozen other.placeholder.cell) ∧
        ∀ c, (∀ other ∈ rules.defined, other.placeholder.cell ≠ c) →
          later.cell c = heap.cell c) := by
  unfold finish at failed
  split at failed
  · rename_i name hundefined
    obtain ⟨herror, rfl⟩ := Prod.mk.inj failed
    exact Or.inl ⟨name, hundefined, (Except.error.inj herror).symm, rfl⟩
  · rename_i hdefined
    rcases (heap.bindBodies rules.defined).resolveRules_cases rules.defined with
      ⟨stored, last, hrun, _⟩ | ⟨before, rule, rest, last, hrun, hstuck⟩
    · rw [hrun] at failed
      exact absurd (congrArg Prod.fst failed) nofun
    · rw [hrun] at failed
      obtain ⟨herror, rfl⟩ := Prod.mk.inj failed
      exact Or.inr ⟨hdefined, (Except.error.inj herror).symm, before, rule, rest, hstuck.split,
        hstuck.selfReference, hstuck.cells built.wellFormed.cells_nodup
          fun rule hrule => built.wellFormed.live_of_mem hrule⟩

/-- A letter, a rule that is a reference to itself, and a digit. -/
def stuck : RuleSet where
  mentioned := [("letter", ⟨0⟩), ("forever", ⟨1⟩), ("digit", ⟨2⟩)]
  defined := [⟨"letter", ⟨0⟩, .ofText "x"⟩, ⟨"forever", ⟨1⟩, .reference 1⟩,
    ⟨"digit", ⟨2⟩, .ofText "7"⟩]

def threeCells : Heap := { cells := #[{}, {}, {}], nextSerial := 3 }

def stuckAfter : Heap := (stuck.finish threeCells).2

theorem stuck_assembled : ∃ handles, stuck.Assembled threeCells handles ∧
    ∃ letter, ("letter", letter) ∈ handles ∧ letter.isReferenceTo 0 = true := by
  have referred := ((Assembled.reference "letter" (.new {})).reference "forever").reference "digit"
  have first : Assembled _ threeCells _ := referred.define "letter" (.ofText "x") rfl
  have second : Assembled _ threeCells _ := first.define "forever" (.reference 1) rfl
  have built : Assembled stuck threeCells _ := second.define "digit" (.ofText "7") rfl
  exact ⟨_, built, _, List.mem_cons_of_mem _ (List.mem_cons_of_mem _ List.mem_cons_self), rfl⟩

theorem cells_of_failed_finish_stuck :
    ∃ handles, stuck.Assembled threeCells handles ∧
      stuck.finish threeCells = (.error .unproductive, stuckAfter) ∧
      ∃ before rule rest, stuck.defined = before ++ rule :: rest ∧
        (∀ other ∈ before, stuckAfter.isFrozen other.placeholder.cell = true) ∧
        ∀ other ∈ rule :: rest, stuckAfter.grammar other.placeholder.cell = some other.body := by
  obtain ⟨handles, built, _⟩ := stuck_assembled
  have failed : stuck.finish threeCells = (.error .unproductive, stuckAfter) := rfl
  refine ⟨handles, built, failed, ?_⟩
  rcases cells_of_failed_finish built failed with
    ⟨name, _, herror, _⟩ | ⟨_, _, before, rule, rest, hsplit, _, hbefore, hrest, _⟩
  · exact absurd herror nofun
  · exact ⟨before, rule, rest, hsplit, fun other hother => (hbefore other hother).2,
      fun other hother => (hrest other hother).1⟩

/-- A failed run is not without a trace: the cell behind a handle changes from empty to bound and
frozen, and the cell of a rule that was not reached is left bound. -/
theorem finish_leaves_trace_stuck :
    (∃ handles, stuck.Assembled threeCells handles ∧
      ∃ letter, ("letter", letter) ∈ handles ∧ letter.isReferenceTo 0 = true) ∧
    stuck.finish threeCells = (.error .unproductive, stuckAfter) ∧
    threeCells.isBound 0 = false ∧ threeCells.isFrozen 0 = false ∧
    stuckAfter.isBound 0 = true ∧ stuckAfter.isFrozen 0 = true ∧
    threeCells.isBound 2 = false ∧ stuckAfter.isBound 2 = true :=
  ⟨stuck_assembled, rfl, rfl, rfl, rfl, rfl, rfl, rfl⟩

end RuleSet
end PatternGraph
