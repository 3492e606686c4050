import PatternGraph.Proofs.FailedFinish
import PatternGraph.Proofs.Renumbering

/-!
# Runs with other numbers

A run over the same rules in the same order takes the same course whatever numbers their cells
have: each rule has the same shape at its turn, is bound to the same pattern and returns the same
result, and the two heaps stay the same up to the numbers. Here nothing has to be said about which
shapes depend on an order.
-/

namespace PatternGraph
set_option autoImplicit false

namespace Heap
variable {f g : Nat → Nat} {heap other later later' : Heap} {rules rules' : List Rule}
  {stored : List (String × Pattern)}

section
variable {c d : Nat} {p q grammar grammar' result result' : Pattern}

theorem SameUnder.resolved (h : SameUnder f g heap other) (hpq : p.renumber f = q.renumber g)
    (hcd : f c = g d) (hr : heap.Resolved c p grammar result later)
    (hr' : other.Resolved d q grammar' result' later') (live : c < heap.cells.size)
    (live' : d < other.cells.size) :
    grammar.renumber f = grammar'.renumber g ∧ SameUnder f g later later' := by
  have hgrammars : grammar.renumber f = grammar'.renumber g := by
    rw [hr.renumber_grammar, hr'.renumber_grammar, h.shape_eq hpq hcd,
      ← Pattern.eliminate_renumber h.left, ← Pattern.eliminate_renumber h.right, hpq, hcd]
  refine ⟨hgrammars, h.left, h.right, ?_⟩
  intro a b hab
  by_cases ha : a = c
  · subst a
    obtain rfl : d = b := h.right (hcd.symm.trans hab)
    rw [hr.grammar_self live, hr'.grammar_self live']
    exact congrArg some hgrammars
  · have hb : b ≠ d := by
      rintro rfl
      exact ha (h.left (hab.trans hcd.symm))
    rw [hr.grammar_ne ha, hr'.grammar_ne hb]
    exact h.cells a b hab

/-- The results are the same, once they carry the name of the rule. -/
theorem SameUnder.result_eq (h : SameUnder f g later later') (hcd : f c = g d)
    (hgrammars : grammar.renumber f = grammar'.renumber g)
    (hr : heap.Resolved c p grammar result later) (hr' : other.Resolved d q grammar' result' later')
    (name : String) : (result.named name).renumber f = (result'.named name).renumber g := by
  have hreaches := h.reaches_eq hgrammars hcd .all
  rcases hr.result with ⟨hloop, hself⟩ | ⟨hplain, rfl⟩
  · rcases hr'.result with ⟨_, hself'⟩ | ⟨hplain', _⟩
    · obtain ⟨tag, rfl⟩ := (Pattern.isReferenceTo_iff_exists c result).mp hself
      obtain ⟨tag', rfl⟩ := (Pattern.isReferenceTo_iff_exists d result').mp hself'
      rw [Pattern.renumber_named, Pattern.renumber_named, Pattern.renumber, Pattern.renumber, hcd]
      rfl
    · rw [hloop, hplain'] at hreaches
      exact absurd hreaches (by decide)
  · rcases hr'.result with ⟨hloop', _⟩ | ⟨_, rfl⟩
    · rw [hplain, hloop'] at hreaches
      exact absurd hreaches (by decide)
    · rw [Pattern.renumber_named, Pattern.renumber_named, hgrammars]

end

theorem isReferenceTo_of_resolve {body result : Pattern} {placeholder : Placeholder}
    {requireRecursion : Bool}
    (h : heap.resolve body placeholder requireRecursion = .ok (result, later)) :
    body.isReferenceTo placeholder.cell = false := by
  apply Bool.eq_false_iff.mpr
  intro hself
  rw [resolve_of_isReferenceTo hself] at h
  exact absurd h nofun

theorem SameUnder.resolveRules (h : SameUnder f g heap other)
    (hprovisional : heap.Provisional rules) (hprovisional' : other.Provisional rules')
    (hrules : rules.map (Rule.renumber f) = rules'.map (Rule.renumber g))
    (hrun : heap.resolveRules rules = (.ok stored, later)) :
    ∃ stored' later', other.resolveRules rules' = (.ok stored', later') ∧
      stored.map (fun entry => (entry.1, entry.2.renumber f)) =
        stored'.map (fun entry => (entry.1, entry.2.renumber g)) ∧
      SameUnder f g later later' := by
  induction rules generalizing heap other rules' stored with
  | nil =>
    obtain rfl := List.map_eq_nil_iff.mp hrules.symm
    obtain ⟨hstored, rfl⟩ := Prod.mk.inj hrun
    obtain rfl := Except.ok.inj hstored
    exact ⟨[], other, rfl, rfl, h⟩
  | cons rule rest ih =>
    cases rules' with
    | nil => exact absurd hrules nofun
    | cons partner others =>
      obtain ⟨hsame, hrest⟩ := List.cons.inj hrules
      obtain ⟨hname, hcell, hbody⟩ := Rule.renumber_eq_iff.mp hsame
      obtain ⟨p, resolved, grammar, tail, hresolve, hresolved, htail, hothers, rfl⟩ :=
        hprovisional.exists_resolved hrun
      have hplain : partner.body.isReferenceTo partner.placeholder.cell = false := by
        rw [← Pattern.isReferenceTo_renumber h.right, ← hbody, ← hcell,
          Pattern.isReferenceTo_renumber h.left]
        exact isReferenceTo_of_resolve hresolve
      obtain ⟨q, resolved', hresolve'⟩ := other.resolve_eq_ok hplain
      obtain ⟨grammar', hresolved'⟩ := Heap.exists_resolved hresolve'
      obtain ⟨hgrammars, hnext⟩ := h.resolved hbody hcell hresolved hresolved'
        (lt_size_of_grammar (hprovisional.bound rule List.mem_cons_self))
        (lt_size_of_grammar (hprovisional'.bound partner List.mem_cons_self))
      have hresult := hnext.result_eq hcell hgrammars hresolved hresolved' rule.name
      have htail' : (resolved'.enter (q.named partner.name)).2.Provisional others := by
        refine hprovisional'.tail fun c hc => ?_
        rw [grammar_enter, hresolved'.grammar_ne hc]
      have hentered : SameUnder f g (resolved.enter (p.named rule.name)).2
          (resolved'.enter (q.named partner.name)).2 := ⟨hnext.left, hnext.right, hnext.cells⟩
      obtain ⟨stored', later', hrun', hstored, hlater⟩ := ih hentered htail htail' hrest hothers
      refine ⟨(partner.name, (resolved'.enter (q.named partner.name)).1) :: stored', later', ?_, ?_,
        hlater⟩
      · rw [resolveRules_cons hresolve', hrun']
        rfl
      · rw [List.map_cons, List.map_cons, hstored, Pattern.renumber_enter, Pattern.renumber_enter,
          hresult, hname]

end Heap
end PatternGraph
