import PatternGraph.Session
import PatternGraph.Proofs.RuleEquations

/-!
# The life cycle of a cell

A placeholder is owned once: by the session or by one of its rule sets. A call uses up some
placeholders and makes some new ones, and it touches no cell but those of the placeholders it uses
up. So a cell stays empty until its placeholder is used up and keeps what it has from then on,
frozen or not.
-/

namespace PatternGraph
set_option autoImplicit false

/-! ## Cells -/

/-- It was never bound while it was frozen, and it is not frozen without being bound. -/
def Cell.Orderly (cell : Cell) : Prop :=
  cell.rebound = false ∧ (cell.frozen = true → cell.grammar.isSome = true)

namespace Heap
variable {heap midway later : Heap} {spent others : List Placeholder}

def Orderly (heap : Heap) : Prop := ∀ c, (heap.cell c).Orderly

theorem cell_of_size_le {c : Nat} (h : heap.cells.size ≤ c) : heap.cell c = {} := by
  simp [cell, h]

theorem cell_settle_ne {c d : Nat} (h : c ≠ d) (heap : Heap) (p : Pattern) :
    (heap.settle c p).cell d = heap.cell d := by
  simp [settle, freeze, cell_modify, h, cell_bind_ne]

theorem orderly_modify (h : heap.Orderly) {c : Nat} {f : Cell → Cell}
    (hf : c < heap.cells.size → (f (heap.cell c)).Orderly) :
    ({ heap with cells := heap.cells.modify c f } : Heap).Orderly := by
  intro d
  rw [cell_modify]
  split
  · rename_i hd
    obtain ⟨rfl, hlive⟩ := hd
    exact hf hlive
  · exact h d

theorem orderly_bind (h : heap.Orderly) {c : Nat} (hc : heap.isFrozen c = false) (p : Pattern) :
    (heap.bind c p).Orderly := by
  apply orderly_modify h
  intro _
  have hfrozen : (heap.cell c).frozen = false := hc
  simp [Cell.Orderly, (h c).1, hfrozen]

theorem orderly_settle (h : heap.Orderly) {c : Nat} (hc : heap.isFrozen c = false) (p : Pattern) :
    (heap.settle c p).Orderly := by
  have hbind := orderly_bind h hc p
  apply orderly_modify hbind
  intro hlive
  rw [size_bind] at hlive
  have hbound : ((heap.bind c p).cell c).grammar = some p := grammar_bind_self hlive p
  exact ⟨(hbind c).1, fun _ => by simp [hbound]⟩

/-! ## Spending placeholders -/

/-- From one heap to the other only the cells of the given placeholders are touched. They are left
in order if they were not frozen. -/
structure Spends (heap later : Heap) (spent : List Placeholder) : Prop where
  size_le : heap.cells.size ≤ later.cells.size
  same : ∀ c, (∀ placeholder ∈ spent, placeholder.cell ≠ c) → later.cell c = heap.cell c
  orderly : heap.Orderly → (∀ placeholder ∈ spent, heap.isFrozen placeholder.cell = false) →
    later.Orderly

namespace Spends

theorem of_cells_eq (h : later.cells = heap.cells) : heap.Spends later [] where
  size_le := Nat.le_of_eq (congrArg Array.size h.symm)
  same c _ := cell_of_cells_eq h c
  orderly horderly _ c := cell_of_cells_eq h c ▸ horderly c

theorem newPlaceholder (heap : Heap) : heap.Spends heap.newPlaceholder.2 [] where
  size_le := by simp [size_newPlaceholder]
  same c _ := cell_newPlaceholder_heap heap c
  orderly horderly _ c := cell_newPlaceholder_heap heap c ▸ horderly c

theorem bind (heap : Heap) (placeholder : Placeholder) (p : Pattern) :
    heap.Spends (heap.bind placeholder.cell p) [placeholder] where
  size_le := by simp
  same c hc := cell_bind_ne (hc placeholder List.mem_cons_self) heap p
  orderly horderly hfrozen := orderly_bind horderly (hfrozen placeholder List.mem_cons_self) p

theorem settle (heap : Heap) (placeholder : Placeholder) (p : Pattern) :
    heap.Spends (heap.settle placeholder.cell p) [placeholder] where
  size_le := by simp
  same c hc := cell_settle_ne (hc placeholder List.mem_cons_self) heap p
  orderly horderly hfrozen := orderly_settle horderly (hfrozen placeholder List.mem_cons_self) p

theorem mono (h : heap.Spends later spent) (hsub : spent ⊆ others) : heap.Spends later others where
  size_le := h.size_le
  same c hc := h.same c fun placeholder hplaceholder => hc placeholder (hsub hplaceholder)
  orderly horderly hfrozen :=
    h.orderly horderly fun placeholder hplaceholder => hfrozen placeholder (hsub hplaceholder)

theorem isFrozen_eq (h : heap.Spends later spent) {c : Nat}
    (hc : ∀ placeholder ∈ spent, placeholder.cell ≠ c) : later.isFrozen c = heap.isFrozen c := by
  simp only [isFrozen, h.same c hc]

/-- What the second run spends has not been frozen by the first. -/
theorem trans (h : heap.Spends midway spent) (k : midway.Spends later others)
    (hapart : ∀ other ∈ others, ∀ placeholder ∈ spent, other.cell ≠ placeholder.cell) :
    heap.Spends later (spent ++ others) where
  size_le := Nat.le_trans h.size_le k.size_le
  same c hc := by
    obtain ⟨hspent, hothers⟩ := List.forall_mem_append.mp hc
    rw [k.same c hothers, h.same c hspent]
  orderly horderly hfrozen := by
    obtain ⟨hspent, hothers⟩ := List.forall_mem_append.mp hfrozen
    apply k.orderly (h.orderly horderly hspent)
    intro other hother
    rw [h.isFrozen_eq fun placeholder hplaceholder =>
      (hapart other hother placeholder hplaceholder).symm]
    exact hothers other hother

end Spends

theorem spends_of_resolve {body result : Pattern} {placeholder : Placeholder}
    {requireRecursion : Bool}
    (h : heap.resolve body placeholder requireRecursion = .ok (result, later)) :
    heap.Spends later [placeholder] := by
  obtain ⟨grammar, hresolved⟩ := exists_resolved h
  exact (Spends.settle heap placeholder grammar).trans (.of_cells_eq hresolved.cells) (by simp)

theorem settled_of_resolve {body result : Pattern} {placeholder : Placeholder}
    {requireRecursion : Bool}
    (h : heap.resolve body placeholder requireRecursion = .ok (result, later))
    (hlive : placeholder.cell < heap.cells.size) :
    later.isBound placeholder.cell = true ∧ later.isFrozen placeholder.cell = true := by
  obtain ⟨grammar, hresolved⟩ := exists_resolved h
  constructor
  · simp [isBound, hresolved.grammar_self hlive]
  · have hfrozen : (heap.settle placeholder.cell grammar).isFrozen placeholder.cell = true :=
      isFrozen_freeze_self (by simpa using hlive)
    rwa [isFrozen, ← cell_of_cells_eq hresolved.cells] at hfrozen

@[simp] theorem isFrozen_bindBodies (heap : Heap) (rules : List Rule) (c : Nat) :
    (heap.bindBodies rules).isFrozen c = heap.isFrozen c := by
  induction rules generalizing heap with
  | nil => rfl
  | cons rule rest ih => exact (ih _).trans (isFrozen_bind heap _ _ c)

section
variable {rules : List Rule}

theorem spends_bindBodies (heap : Heap) (apart : (rules.map (·.placeholder.cell)).Nodup) :
    heap.Spends (heap.bindBodies rules) (rules.map (·.placeholder)) := by
  induction rules generalizing heap with
  | nil => exact .of_cells_eq rfl
  | cons rule rest ih =>
    obtain ⟨hnew, hrest⟩ := List.nodup_cons.mp apart
    exact (Spends.bind heap rule.placeholder rule.body).trans (ih _ hrest) (by simpa using hnew)

theorem spends_resolveRules (heap : Heap) (apart : (rules.map (·.placeholder.cell)).Nodup) :
    heap.Spends (heap.resolveRules rules).2 (rules.map (·.placeholder)) := by
  induction rules generalizing heap with
  | nil => exact .of_cells_eq rfl
  | cons rule rest ih =>
    obtain ⟨hnew, hrest⟩ := List.nodup_cons.mp apart
    unfold resolveRules
    split
    · exact (Spends.of_cells_eq rfl).mono (List.nil_subset _)
    · rename_i p resolved hresolve
      have hentered : resolved.Spends (resolved.enter (p.named rule.name)).2 [] :=
        .of_cells_eq rfl
      have hrule := (spends_of_resolve hresolve).trans hentered (by simp)
      exact hrule.trans (ih _ hrest) (by simpa using hnew)

end
end Heap

theorem RuleSet.WellFormed.defined_subset {rules : RuleSet} {heap : Heap}
    {handles : List (String × Pattern)} (h : rules.WellFormed heap handles) :
    rules.defined.map (·.placeholder) ⊆ rules.placeholders := by
  intro placeholder hplaceholder
  obtain ⟨rule, hrule, rfl⟩ := List.mem_map.mp hplaceholder
  exact List.mem_map_of_mem (mem_of_placeholder? (h.owned rule hrule))

/-- Each cell is bound twice before it is frozen; it does not matter where an error ends it. -/
theorem RuleSet.WellFormed.spends_finish {rules : RuleSet} {heap : Heap}
    {handles : List (String × Pattern)} (h : rules.WellFormed heap handles) :
    heap.Spends (rules.finish heap).2 rules.placeholders := by
  unfold finish
  split
  · exact (Heap.Spends.of_cells_eq rfl).mono (List.nil_subset _)
  · have hbound := heap.spends_bindBodies h.cells_nodup
    have hresolved := (heap.bindBodies rules.defined).spends_resolveRules h.cells_nodup
    refine Heap.Spends.mono ?_ h.defined_subset
    refine ⟨Nat.le_trans hbound.size_le hresolved.size_le, ?_, ?_⟩
    · intro c hc
      rw [← hbound.same c hc, ← hresolved.same c hc]
    · intro horderly hfrozen
      apply hresolved.orderly (hbound.orderly horderly hfrozen)
      simpa using hfrozen

/-- Mentioning a name makes at most one new placeholder. -/
theorem RuleSet.exists_fresh (rules : RuleSet) (heap : Heap) (name : String) :
    ∃ fresh, (rules.mention heap name).2.1.placeholders = rules.placeholders ++ fresh ∧
      fresh.Nodup ∧
      (∀ placeholder ∈ fresh, heap.cells.size ≤ placeholder.cell ∧
        placeholder.cell < (rules.mention heap name).2.2.cells.size) ∧
      heap.Spends (rules.mention heap name).2.2 [] := by
  rcases mention_cases rules heap name with ⟨_, _, hmention⟩ | ⟨_, hmention⟩
  · rw [hmention]
    exact ⟨[], (List.append_nil _).symm, .nil, by simp, .of_cells_eq rfl⟩
  · rw [hmention]
    refine ⟨[heap.newPlaceholder.1], by simp [placeholders], List.nodup_singleton _, ?_,
      .newPlaceholder heap⟩
    simp [Heap.newPlaceholder]

/-! ## Calls -/

namespace Session
variable {session later : Session} {spent fresh : List Placeholder}

/-- What a call does: it uses up some placeholders and makes some new ones. -/
structure Changes (session later : Session) (spent fresh : List Placeholder) : Prop where
  cells : session.heap.Spends later.heap spent
  balance : (fresh ++ session.unconsumed).Perm (spent ++ later.unconsumed)
  distinct : fresh.Nodup
  added : ∀ placeholder ∈ fresh,
    session.heap.cells.size ≤ placeholder.cell ∧ placeholder.cell < later.heap.cells.size
  formed : ∀ rules ∈ later.ruleSets, rules.WellFormed later.heap []

/-- What every call preserves. -/
structure Sound (session : Session) : Prop where
  formed : ∀ rules ∈ session.ruleSets, rules.WellFormed session.heap []
  owned : session.unconsumed.Nodup
  live : ∀ placeholder ∈ session.unconsumed, placeholder.cell < session.heap.cells.size
  empty : ∀ placeholder ∈ session.unconsumed, session.heap.cell placeholder.cell = {}
  orderly : session.heap.Orderly

namespace Changes

/-- A placeholder that is used up is one that had not been, or a new one. -/
theorem cell_of_spent (h : session.Sound) (k : session.Changes later spent fresh)
    {placeholder : Placeholder} (hspent : placeholder ∈ spent) :
    session.heap.cell placeholder.cell = {} := by
  have hmem : placeholder ∈ fresh ++ session.unconsumed :=
    k.balance.mem_iff.mpr (List.mem_append_left _ hspent)
  rcases List.mem_append.mp hmem with hfresh | hheld
  · exact Heap.cell_of_size_le (k.added placeholder hfresh).1
  · exact h.empty placeholder hheld

theorem nodup (h : session.Sound) (k : session.Changes later spent fresh) :
    (spent ++ later.unconsumed).Nodup := by
  apply k.balance.nodup_iff.mp
  refine List.nodup_append.mpr ⟨k.distinct, h.owned, ?_⟩
  intro placeholder hfresh other hheld hsame
  have hnew := (k.added placeholder hfresh).1
  have hlive := h.live other hheld
  rw [hsame] at hnew
  omega

theorem sound (h : session.Sound) (k : session.Changes later spent fresh) : later.Sound := by
  obtain ⟨_, howned, hdisjoint⟩ := List.nodup_append.mp (k.nodup h)
  have hheld : ∀ placeholder ∈ later.unconsumed,
      placeholder ∈ fresh ∨ placeholder ∈ session.unconsumed := by
    intro placeholder hplaceholder
    apply List.mem_append.mp
    exact k.balance.mem_iff.mpr (List.mem_append_right _ hplaceholder)
  refine ⟨k.formed, howned, ?_, ?_, ?_⟩
  · intro placeholder hplaceholder
    rcases hheld placeholder hplaceholder with hfresh | hold
    · exact (k.added placeholder hfresh).2
    · exact Nat.lt_of_lt_of_le (h.live placeholder hold) k.cells.size_le
  · intro placeholder hplaceholder
    rw [k.cells.same]
    · rcases hheld placeholder hplaceholder with hfresh | hold
      · exact Heap.cell_of_size_le (k.added placeholder hfresh).1
      · exact h.empty placeholder hold
    · intro other hspent hcell
      exact hdisjoint other hspent placeholder hplaceholder (congrArg Placeholder.mk hcell)
  · apply k.cells.orderly h.orderly
    intro placeholder hspent
    simp [Heap.isFrozen, k.cell_of_spent h hspent]

/-- A bound cell has no placeholder left that could be used up. -/
theorem grammar_eq (h : session.Sound) (k : session.Changes later spent fresh) {c : Nat}
    {p : Pattern} (hc : session.heap.grammar c = some p) : later.heap.grammar c = some p := by
  rw [← hc]
  unfold Heap.grammar
  rw [k.cells.same]
  rintro placeholder hspent rfl
  simp [Heap.grammar, k.cell_of_spent h hspent] at hc

end Changes

/-! ### One call -/

theorem perm_cons_eraseIdx {α : Type} {entries : List α} {position : Nat} {entry : α}
    (h : entries[position]? = some entry) : (entry :: entries.eraseIdx position).Perm entries := by
  obtain ⟨hlive, rfl⟩ := List.getElem?_eq_some_iff.mp h
  exact List.getElem_cons_eraseIdx_perm hlive

theorem perm_set {α : Type} {entries : List α} {position : Nat} {entry : α}
    (h : entries[position]? = some entry) (other : α) :
    (entries.set position other).Perm (other :: entries.eraseIdx position) :=
  List.set_perm_cons_eraseIdx (List.getElem?_eq_some_iff.mp h).choose other

namespace Changes
variable {position : Nat} {heap : Heap} {rules : RuleSet} {placeholder : Placeholder}

theorem idle (h : session.Sound) (hcells : heap.cells = session.heap.cells) :
    session.Changes { session with heap } [] [] where
  cells := .of_cells_eq hcells
  balance := .refl _
  distinct := .nil
  added := by simp
  formed rules hrules := (h.formed rules hrules).meanwhile heap (by rw [hcells])

theorem newPlaceholder (h : session.Sound) :
    session.Changes (session.step .newPlaceholder) [] [session.heap.newPlaceholder.1] where
  cells := .newPlaceholder session.heap
  balance := by
    simp only [step, unconsumed, List.nil_append, List.append_assoc]
    exact List.perm_append_comm_assoc _ _ _
  distinct := List.nodup_singleton _
  added := by simp [step, Heap.newPlaceholder]
  formed rules hrules := (h.formed rules hrules).meanwhile _ (by simp [step, Heap.newPlaceholder])

theorem newRuleSet (h : session.Sound) : session.Changes (session.step .newRuleSet) [] [] where
  cells := .of_cells_eq rfl
  balance := by simp [step, unconsumed, RuleSet.placeholders]
  distinct := .nil
  added := by simp
  formed rules hrules := by
    rcases List.mem_append.mp hrules with hold | hnew
    · exact h.formed rules hold
    · obtain rfl := List.mem_singleton.mp hnew
      exact .new _

/-- A placeholder of its own is used up. -/
theorem spendPlaceholder (h : session.Sound)
    (hheld : session.placeholders[position]? = some placeholder)
    (hcells : session.heap.Spends heap [placeholder]) :
    session.Changes { session with heap, placeholders := session.placeholders.eraseIdx position }
      [placeholder] [] where
  cells := hcells
  balance := (perm_cons_eraseIdx hheld).symm.append_right _
  distinct := .nil
  added := by simp
  formed rules hrules := (h.formed rules hrules).meanwhile heap hcells.size_le

/-- A rule set is used up with all placeholders that it owns. -/
theorem spendRuleSet (h : session.Sound) (hheld : session.ruleSets[position]? = some rules)
    (hcells : session.heap.Spends heap rules.placeholders) :
    session.Changes { session with heap, ruleSets := session.ruleSets.eraseIdx position }
      rules.placeholders [] where
  cells := hcells
  balance := by
    have hperm := ((perm_cons_eraseIdx hheld).flatMap_right RuleSet.placeholders).symm
    rw [List.flatMap_cons] at hperm
    exact (hperm.append_left _).trans (List.perm_append_comm_assoc _ _ _)
  distinct := .nil
  added := by simp
  formed other hother :=
    (h.formed other (List.mem_of_mem_eraseIdx hother)).meanwhile heap hcells.size_le

/-- A rule set is given some new placeholders. -/
theorem growRuleSet (h : session.Sound) (hheld : session.ruleSets[position]? = some rules)
    {grown : RuleSet} (hcells : session.heap.Spends heap [])
    (hplaceholders : grown.placeholders = rules.placeholders ++ fresh) (distinct : fresh.Nodup)
    (added : ∀ placeholder ∈ fresh,
      session.heap.cells.size ≤ placeholder.cell ∧ placeholder.cell < heap.cells.size)
    (formed : grown.WellFormed heap []) :
    session.Changes { session with heap, ruleSets := session.ruleSets.set position grown }
      [] fresh where
  cells := hcells
  balance := by
    have hbefore := (perm_cons_eraseIdx hheld).flatMap_right RuleSet.placeholders
    have hafter := (perm_set hheld grown).flatMap_right RuleSet.placeholders
    rw [List.flatMap_cons] at hbefore hafter
    rw [List.perm_iff_count] at hbefore hafter ⊢
    intro a
    have hbefore := hbefore a
    have hafter := hafter a
    simp only [unconsumed, hplaceholders, List.nil_append, List.count_append] at hbefore hafter ⊢
    omega
  distinct := distinct
  added := added
  formed other hother := by
    rcases List.mem_or_eq_of_mem_set hother with hold | rfl
    · exact (h.formed other hold).meanwhile heap hcells.size_le
    · exact formed

end Changes

/-- What each call does. -/
theorem exists_changes (h : session.Sound) (call : Call) :
    ∃ spent fresh, session.Changes (session.step call) spent fresh := by
  have unchanged : ∃ spent fresh, session.Changes session spent fresh :=
    ⟨[], [], .idle h rfl⟩
  cases call with
  | newPlaceholder => exact ⟨_, _, .newPlaceholder h⟩
  | selfReference position =>
    simp only [step]
    split
    · exact unchanged
    · exact ⟨_, _, .idle h rfl⟩
  | build p => exact ⟨_, _, .idle h rfl⟩
  | resolve position body requireRecursion =>
    simp only [step]
    split
    · exact unchanged
    · rename_i placeholder hheld
      split
      · have hkept : session.heap.Spends session.heap [placeholder] :=
          (Heap.Spends.of_cells_eq rfl).mono (List.nil_subset _)
        exact ⟨_, _, .spendPlaceholder h hheld hkept⟩
      · rename_i hresolve
        exact ⟨_, _, .spendPlaceholder h hheld (Heap.spends_of_resolve hresolve)⟩
  | newRuleSet => exact ⟨_, _, .newRuleSet h⟩
  | reference position name =>
    simp only [step]
    split
    · exact unchanged
    · rename_i rules hheld
      have hformed := h.formed rules (List.mem_of_getElem? hheld)
      obtain ⟨fresh, hplaceholders, hdistinct, hadded, hcells⟩ :=
        rules.exists_fresh session.heap name
      have hentered : session.heap.Spends (rules.reference session.heap name).2.2 [] :=
        hcells.trans (.of_cells_eq rfl) (by simp)
      have hlater := (hformed.mention name).meanwhile (rules.reference session.heap name).2.2
        (Nat.le_refl _)
      exact ⟨_, _, .growRuleSet h hheld hentered hplaceholders hdistinct hadded hlater⟩
  | define position name body =>
    simp only [step]
    split
    · exact unchanged
    · rename_i rules hheld
      have hformed := h.formed rules (List.mem_of_getElem? hheld)
      split
      · exact unchanged
      · rename_i later heap haccepted
        obtain ⟨fresh, hplaceholders, hdistinct, hadded, hcells⟩ :=
          rules.exists_fresh session.heap name
        have hlater := hformed.define haccepted
        obtain ⟨_, rfl, rfl⟩ := RuleSet.of_define_ok haccepted
        exact ⟨_, _, .growRuleSet h hheld hcells hplaceholders hdistinct hadded hlater⟩
  | finish position =>
    simp only [step]
    split
    · exact unchanged
    · rename_i rules hheld
      have hformed := h.formed rules (List.mem_of_getElem? hheld)
      exact ⟨_, _, .spendRuleSet h hheld hformed.spends_finish⟩

/-! ### Runs -/

theorem sound_new : ({} : Session).Sound where
  formed := by simp
  owned := .nil
  live := by simp [unconsumed]
  empty := by simp [unconsumed]
  orderly c := by simp [Heap.cell_of_size_le, Cell.Orderly]

theorem Sound.step (h : session.Sound) (call : Call) : (session.step call).Sound := by
  obtain ⟨_, _, hchanges⟩ := exists_changes h call
  exact hchanges.sound h

theorem Sound.run (h : session.Sound) (calls : List Call) : (session.run calls).Sound := by
  induction calls generalizing session with
  | nil => exact h
  | cons call rest ih => exact ih (h.step call)

theorem Sound.grammar_run (h : session.Sound) (calls : List Call) {c : Nat} {p : Pattern}
    (hc : session.heap.grammar c = some p) : (session.run calls).heap.grammar c = some p := by
  induction calls generalizing session with
  | nil => exact hc
  | cons call rest ih =>
    obtain ⟨_, _, hchanges⟩ := exists_changes h call
    exact ih (hchanges.sound h) (hchanges.grammar_eq h hc)

/-- Whatever calls were made, no cell has been bound while it was frozen, a frozen cell is bound,
and a cell whose placeholder has not been used up is neither. A failed resolution leaves its cell
so and changes no cell; one that succeeds binds and freezes its cell and changes no other. What a
cell is bound to stays the same through all further calls. -/
theorem cells_of_run (calls : List Call) :
    let session := run {} calls
    (∀ c, (session.heap.cell c).rebound = false) ∧
    (∀ c, session.heap.isFrozen c = true → session.heap.isBound c = true) ∧
    (∀ placeholder ∈ session.unconsumed, session.heap.isBound placeholder.cell = false ∧
      session.heap.isFrozen placeholder.cell = false) ∧
    (∀ position placeholder body requireRecursion,
      session.placeholders[position]? = some placeholder →
      let later := (session.step (.resolve position body requireRecursion)).heap
      (∀ error, session.heap.resolve body placeholder requireRecursion = .error error →
        later.isBound placeholder.cell = false ∧ later.isFrozen placeholder.cell = false ∧
          ∀ c, later.cell c = session.heap.cell c) ∧
      ∀ answer, session.heap.resolve body placeholder requireRecursion = .ok answer →
        later.isBound placeholder.cell = true ∧ later.isFrozen placeholder.cell = true ∧
          ∀ c, c ≠ placeholder.cell → later.cell c = session.heap.cell c) ∧
    ∀ c p more, session.heap.grammar c = some p →
      (session.run more).heap.grammar c = some p := by
  intro session
  have hsound : session.Sound := sound_new.run calls
  have hempty : ∀ placeholder ∈ session.unconsumed,
      session.heap.isBound placeholder.cell = false ∧
        session.heap.isFrozen placeholder.cell = false := by
    intro placeholder hplaceholder
    simp [Heap.isBound, Heap.grammar, Heap.isFrozen, hsound.empty placeholder hplaceholder]
  refine ⟨fun c => (hsound.orderly c).1, fun c => (hsound.orderly c).2, hempty, ?_, ?_⟩
  · intro position placeholder body requireRecursion hheld later
    have hmem : placeholder ∈ session.unconsumed :=
      List.mem_append_left _ (List.mem_of_getElem? hheld)
    constructor
    · intro error hresolve
      have hlater : later = session.heap := by
        simp only [later, step, hheld, hresolve]
      rw [hlater]
      exact ⟨(hempty placeholder hmem).1, (hempty placeholder hmem).2, fun _ => rfl⟩
    · intro answer hresolve
      have hlater : later = answer.2 := by
        simp only [later, step, hheld, hresolve]
      obtain ⟨hbound, hfrozen⟩ := Heap.settled_of_resolve hresolve (hsound.live placeholder hmem)
      rw [hlater]
      refine ⟨hbound, hfrozen, ?_⟩
      intro c hc
      exact (Heap.spends_of_resolve hresolve).same c (by simpa using hc.symm)
  · intro c p more hc
    exact hsound.grammar_run more hc

/-- A rule set that cannot be finished because its second rule is a reference to itself, with a
placeholder made in between. -/
def interrupted : List Call :=
  [.newRuleSet, .reference 0 "self", .newPlaceholder, .define 0 "letter" (.ofText "x"),
    .define 0 "self" (.reference 0), .finish 0]

theorem cells_of_run_interrupted :
    let session := run {} interrupted
    (session.heap.isFrozen 2 = true ∧ session.heap.isBound 2 = true) ∧
    (⟨1⟩ ∈ session.unconsumed ∧ session.heap.isBound 1 = false) ∧
    (session.heap.resolve (.reference 1) ⟨1⟩ true = .error .unproductive ∧
      (session.step (.resolve 0 (.reference 1) true)).heap.isBound 1 = false) ∧
    ((∃ answer, session.heap.resolve (.ofText "y") ⟨1⟩ false = .ok answer) ∧
      (session.step (.resolve 0 (.ofText "y") false)).heap.isFrozen 1 = true) ∧
    session.heap.isFrozen 0 = false ∧ session.heap.grammar 0 = some (.reference 0) ∧
      ∀ more, (session.run more).heap.grammar 0 = some (.reference 0) := by
  intro session
  obtain ⟨_, hfrozen, hempty, hresolved, hkept⟩ := cells_of_run interrupted
  have hheld : (⟨1⟩ : Placeholder) ∈ session.unconsumed := by decide
  have hresolve : session.heap.resolve (.reference 1) ⟨1⟩ true = .error .unproductive := rfl
  obtain ⟨answer, hanswer⟩ : ∃ answer,
      session.heap.resolve (.ofText "y") ⟨1⟩ false = .ok answer := ⟨_, rfl⟩
  have hself : session.heap.grammar 0 = some (.reference 0) := rfl
  exact ⟨⟨by decide, hfrozen 2 (by decide)⟩, ⟨hheld, (hempty _ hheld).1⟩,
    ⟨hresolve, ((hresolved 0 ⟨1⟩ _ true rfl).1 _ hresolve).1⟩,
    ⟨⟨answer, hanswer⟩, ((hresolved 0 ⟨1⟩ _ false rfl).2 answer hanswer).2.1⟩, by decide, hself,
    fun more => hkept 0 _ more hself⟩

end Session
end PatternGraph
