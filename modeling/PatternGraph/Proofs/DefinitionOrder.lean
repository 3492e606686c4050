import Mathlib.Logic.Equiv.Basic
import PatternGraph.Proofs.LeadingGraph
import PatternGraph.Proofs.Renumbering
import PatternGraph.Proofs.SettledRules

/-!
# The order of definitions

Rules are resolved in the order of their definitions, and while one is resolved the rules before it
are rewritten already and those after it are not. For all but a few rules this makes no difference:
what a rule is found to be midway is what it would be found to be if its turn were first. It matters
where an alternation contains its own reference and another alternative starts with a concatenation
that hides a way back behind a leading reference to itself. For the other rules two orders of the
same definitions give the same shapes, and with the same shapes the same patterns.
-/

namespace PatternGraph
set_option autoImplicit false

namespace Rule

/-- The rule as it is after its turn if that changes what it can start with. -/
def leadEliminated (rule : Rule) : Rule :=
  { rule with body := rule.body.leadEliminated rule.placeholder.cell }

/-- Whether the bare reference to the rule is one of its alternatives. -/
def hasBareAlternative (rule : Rule) : Bool :=
  match rule.body with
  | .alternation _ elements => elements.any (·.isReferenceTo rule.placeholder.cell)
  | _ => false

/-- Whether another alternative of the rule can start with the rule. -/
def leadsBack (rule : Rule) (heap : Heap) : Bool :=
  match rule.body with
  | .alternation _ elements =>
    (Pattern.withoutReference rule.placeholder.cell elements).any
      (heap.reaches .leading · (.cell rule.placeholder.cell))
  | _ => false

/-- Beside a bare reference to the rule no alternative can start with the rule only because leading
references have been eliminated from other rules. -/
def Steady (heap : Heap) (rules : List Rule) (rule : Rule) : Prop :=
  rule.hasBareAlternative = true →
    rule.leadsBack (heap.bindBodies (rules.map leadEliminated)) = true →
    rule.leadsBack (heap.bindBodies rules) = true

instance (heap : Heap) (rules : List Rule) (rule : Rule) : Decidable (rule.Steady heap rules) :=
  inferInstanceAs (Decidable (_ → _ → _))

end Rule

/-! ## One run -/

namespace Heap
variable {heap later midway : Heap} {rules rest : List Rule} {stored : List (String × Pattern)}

theorem Between.shape_eq {rule : Rule} (h : Between (heap.bindBodies rules)
      (heap.bindBodies (rules.map Rule.leadEliminated)) midway) (hsteady : rule.Steady heap rules) :
    midway.shape rule.placeholder.cell rule.body =
      (heap.bindBodies rules).shape rule.placeholder.cell rule.body := by
  obtain ⟨name, ⟨cell⟩, body⟩ := rule
  unfold shape
  rw [h.reached]
  cases body with
  | alternation tag elements =>
    have hshape : midway.alternationShape cell elements =
        (heap.bindBodies rules).alternationShape cell elements := by
      unfold alternationShape
      by_cases hself : elements.any (·.isReferenceTo cell) = true
      · have hleads : (Pattern.withoutReference cell elements).any
              (midway.reaches .leading · (.cell cell)) =
            (Pattern.withoutReference cell elements).any
              ((heap.bindBodies rules).reaches .leading · (.cell cell)) := by
          apply Bool.eq_iff_iff.mpr
          constructor
          · intro hmidway
            apply hsteady hself
            obtain ⟨p, hp, hback⟩ := List.any_eq_true.mp hmidway
            exact List.any_eq_true.mpr ⟨p, hp, reaches_leading_mono h.opened hback⟩
          · intro hraw
            obtain ⟨p, hp, hback⟩ := List.any_eq_true.mp hraw
            exact List.any_eq_true.mpr ⟨p, hp, reaches_leading_mono h.kept hback⟩
        rw [hleads]
      · simp [hself]
    simp only [hshape]
  | _ => rfl

/-- Every rule whose shape is settled gets the shape that it would have if its turn were first. -/
theorem Between.shape_of_turn (h : midway.Provisional rest)
    (hbetween : Between (heap.bindBodies rules)
      (heap.bindBodies (rules.map Rule.leadEliminated)) midway)
    (hloose : ∀ rule ∈ rest, (heap.bindBodies (rules.map Rule.leadEliminated)).grammar
      rule.placeholder.cell = some (rule.body.leadEliminated rule.placeholder.cell))
    (hrun : midway.resolveRules rest = (.ok stored, later)) :
    ∀ entry ∈ midway.ruleShapes rest, entry.1.Steady heap rules →
      entry.2 = (heap.bindBodies rules).shape entry.1.placeholder.cell entry.1.body := by
  induction rest generalizing midway stored with
  | nil => exact fun entry hentry => absurd hentry List.not_mem_nil
  | cons rule rest ih =>
    obtain ⟨p, resolved, grammar, others, hresolve, hresolved, htail, hrest, rfl⟩ :=
      h.exists_resolved hrun
    obtain ⟨hhead, hothers⟩ := List.forall_mem_cons.mp hloose
    rw [ruleShapes_cons hresolve]
    intro entry hentry
    rcases List.mem_cons.mp hentry with rfl | hentry
    · exact hbetween.shape_eq
    · have hnext := hresolved.between hbetween (h.bound rule List.mem_cons_self) hhead
      exact ih htail (hnext.enter _) hothers hrest entry hentry

theorem map_fst_ruleShapes (hrun : heap.resolveRules rules = (.ok stored, later)) :
    (heap.ruleShapes rules).map (·.1) = rules := by
  induction rules generalizing heap stored with
  | nil => rfl
  | cons rule rest ih =>
    obtain ⟨p, resolved, others, hresolve, hrest, _⟩ := resolveRules_cons_ok hrun
    rw [ruleShapes_cons hresolve, List.map_cons, ih hrest]

/-- Up to the numbers, what a cell is bound to in the end follows from the body and the shape. -/
theorem Provisional.bound_of_shape (h : heap.Provisional rules)
    (hrun : heap.resolveRules rules = (.ok stored, later)) :
    ∀ entry ∈ heap.ruleShapes rules, ∃ bound,
      later.grammar entry.1.placeholder.cell = some bound ∧ ∀ number,
        bound.renumber number =
          (entry.1.body.eliminate entry.1.placeholder.cell entry.2).renumber number := by
  induction rules generalizing heap stored with
  | nil => exact fun entry hentry => absurd hentry List.not_mem_nil
  | cons rule rest ih =>
    obtain ⟨p, resolved, grammar, others, hresolve, hresolved, htail, hrest, rfl⟩ :=
      h.exists_resolved hrun
    rw [ruleShapes_cons hresolve]
    intro entry hentry
    rcases List.mem_cons.mp hentry with rfl | hentry
    · refine ⟨grammar, h.kept (solved_of_resolveRules htail hrest)
        (hresolved.grammar_self (lt_size_of_grammar (h.bound rule List.mem_cons_self))), ?_⟩
      exact hresolved.renumber_grammar
    · exact ih htail hrest entry hentry

theorem name_of_resolveRules (hrun : heap.resolveRules rules = (.ok stored, later)) :
    List.Forall₂ (fun rule entry => entry.1 = rule.name ∧ entry.2.name = some rule.name)
      rules stored := by
  induction rules generalizing heap stored with
  | nil =>
    obtain ⟨hstored, _⟩ := Prod.mk.inj hrun
    obtain rfl := Except.ok.inj hstored
    exact .nil
  | cons rule rest ih =>
    obtain ⟨p, resolved, others, _, hrest, rfl⟩ := resolveRules_cons_ok hrun
    refine .cons ⟨rfl, ?_⟩ (ih hrest)
    rw [Pattern.name_enter]
    exact Pattern.name_named rule.name p

/-- Up to the numbers, what is stored for a rule follows from what its cell is bound to. -/
theorem StoredFor.renumber_eq {rule : Rule} {p bound : Pattern} (h : later.StoredFor rule p)
    (hname : p.name = some rule.name) (hbound : later.grammar rule.placeholder.cell = some bound)
    (number : Nat → Nat) : p.renumber number =
      if later.reaches .all bound (.cell rule.placeholder.cell) = true then
        (Pattern.reference (number rule.placeholder.cell)).named rule.name
      else (bound.renumber number).named rule.name := by
  obtain ⟨bound', hbound', ⟨hreaches, hreference⟩ | ⟨hreaches, before, rfl⟩⟩ := h
  · rw [hbound, Option.some.injEq] at hbound'
    subst bound'
    rw [if_pos hreaches]
    obtain ⟨tag, rfl⟩ := (Pattern.isReferenceTo_iff_exists _ p).mp hreference
    have htag : tag.name = some rule.name := hname
    simp [Pattern.renumber, Tag.unnumbered, htag, Pattern.named, Pattern.reference,
      Pattern.withTag]
  · rw [hbound, Option.some.injEq] at hbound'
    subst bound'
    rw [hreaches, if_neg (by decide), Pattern.renumber_enter, Pattern.renumber_named]

end Heap

/-! ## Two runs -/

theorem Pattern.leadEliminated_renumber {number : Nat → Nat} (apart : Function.Injective number)
    (cell : Nat) (p : Pattern) : (p.renumber number).leadEliminated (number cell) =
      (p.leadEliminated cell).renumber number := by
  cases p with
  | concatenation tag elements =>
    rw [renumber_concatenation, leadEliminated, leadEliminated,
      concatenationShape_map_renumber apart, ← renumber_concatenation, eliminate_renumber apart]
    split
    · rfl
    · rfl
  | alternation => simp [leadEliminated]
  | _ => rfl

namespace Heap
variable {f g : Nat → Nat} {heap other : Heap} {rules rules' : List Rule}

theorem exists_rule_or_ne (rules : List Rule) (c : Nat) :
    (∃ rule ∈ rules, rule.placeholder.cell = c) ∨ ∀ rule ∈ rules, rule.placeholder.cell ≠ c := by
  by_cases h : ∃ rule ∈ rules, rule.placeholder.cell = c
  · exact Or.inl h
  · exact Or.inr fun rule hrule hcell => h ⟨rule, hrule, hcell⟩

/-- A cell that gets the same number as one of no rule belongs to no rule either. -/
theorem ne_of_permuted {c d : Nat} (apart : Function.Injective f)
    (permuted : (rules.map (Rule.renumber f)).Perm (rules'.map (Rule.renumber g)))
    (hcd : f c = g d) (hnone : ∀ rule ∈ rules, rule.placeholder.cell ≠ c) :
    ∀ rule ∈ rules', rule.placeholder.cell ≠ d := by
  rintro partner hpartner rfl
  obtain ⟨rule, hrule, hsame⟩ :=
    List.mem_map.mp (permuted.mem_iff.mpr (List.mem_map_of_mem hpartner))
  exact hnone rule hrule (apart ((Rule.renumber_eq_iff.mp hsame).2.1.trans hcd.symm))

/-- The same definitions, in two orders and with two numberings, over heaps that agree on every
cell that is not a rule's. -/
structure Reordered (f g : Nat → Nat) (heap other : Heap) (rules rules' : List Rule) : Prop where
  left : Function.Injective f
  right : Function.Injective g
  permuted : (rules.map (Rule.renumber f)).Perm (rules'.map (Rule.renumber g))
  elsewhere : ∀ c d, f c = g d → (∀ rule ∈ rules, rule.placeholder.cell ≠ c) →
    (heap.grammar c).map (Pattern.renumber f) = (other.grammar d).map (Pattern.renumber g)

/-- Every rule has a live cell of its own. -/
structure Owns (heap : Heap) (rules : List Rule) : Prop where
  apart : (rules.map (·.placeholder.cell)).Nodup
  live : ∀ rule ∈ rules, rule.placeholder.cell < heap.cells.size

namespace Owns

theorem provisional (h : heap.Owns rules) : (heap.bindBodies rules).Provisional rules :=
  provisional_bindBodies heap h.apart h.live

theorem leadEliminated (h : heap.Owns rules) : heap.Owns (rules.map Rule.leadEliminated) where
  apart := by
    rw [List.map_map]
    exact h.apart
  live := by
    intro rule hrule
    obtain ⟨original, horiginal, rfl⟩ := List.mem_map.mp hrule
    exact h.live original horiginal

end Owns

namespace Reordered

theorem exists_partner (h : Reordered f g heap other rules rules') {rule : Rule}
    (hrule : rule ∈ rules) : ∃ partner ∈ rules', rule.renumber f = partner.renumber g := by
  obtain ⟨partner, hpartner, hsame⟩ :=
    List.mem_map.mp (h.permuted.mem_iff.mp (List.mem_map_of_mem hrule))
  exact ⟨partner, hpartner, hsame.symm⟩

theorem symm (h : Reordered f g heap other rules rules') :
    Reordered g f other heap rules' rules where
  left := h.right
  right := h.left
  permuted := h.permuted.symm
  elsewhere := by
    intro d c hdc hnone
    exact (h.elsewhere c d hdc.symm (ne_of_permuted h.right h.permuted.symm hdc hnone)).symm

theorem leadEliminated (h : Reordered f g heap other rules rules') :
    Reordered f g heap other (rules.map Rule.leadEliminated)
      (rules'.map Rule.leadEliminated) where
  left := h.left
  right := h.right
  permuted := by
    have hcommute : ∀ {number : Nat → Nat}, Function.Injective number → ∀ rules : List Rule,
        (rules.map Rule.leadEliminated).map (Rule.renumber number) =
          (rules.map (Rule.renumber number)).map Rule.leadEliminated := by
      intro number apart rules
      simp [Rule.renumber, Rule.leadEliminated, Pattern.leadEliminated_renumber apart]
    rw [hcommute h.left, hcommute h.right]
    exact h.permuted.map _
  elsewhere := by
    intro c d hcd hnone
    apply h.elsewhere c d hcd
    intro rule hrule
    exact hnone rule.leadEliminated (List.mem_map_of_mem hrule)

/-- With all bodies as defined, cells that get the same number are bound alike. -/
theorem sameUnder (h : Reordered f g heap other rules rules') (owns : heap.Owns rules)
    (owns' : other.Owns rules') :
    SameUnder f g (heap.bindBodies rules) (other.bindBodies rules') where
  left := h.left
  right := h.right
  cells := by
    intro c d hcd
    rcases exists_rule_or_ne rules c with ⟨rule, hrule, rfl⟩ | hnone
    · obtain ⟨partner, hpartner, hsame⟩ := h.exists_partner hrule
      obtain ⟨_, hcell, hbody⟩ := Rule.renumber_eq_iff.mp hsame
      obtain rfl : partner.placeholder.cell = d := h.right (hcell.symm.trans hcd)
      rw [owns.provisional.bound rule hrule, owns'.provisional.bound partner hpartner]
      exact congrArg some hbody
    · have hnone' := ne_of_permuted h.left h.permuted hcd hnone
      rw [grammar_bindBodies_of_ne heap hnone, grammar_bindBodies_of_ne other hnone']
      exact h.elsewhere c d hcd hnone

end Reordered

section
variable {rule partner : Rule} (hsame : rule.renumber f = partner.renumber g)
include hsame

theorem SameUnder.hasBareAlternative_eq (h : SameUnder f g heap other) :
    rule.hasBareAlternative = partner.hasBareAlternative := by
  obtain ⟨_, hcell, hbody⟩ := Rule.renumber_eq_iff.mp hsame
  obtain ⟨_, _, body⟩ := rule
  obtain ⟨_, _, body'⟩ := partner
  cases body with
  | alternation tag ps =>
    cases body' with
    | alternation tag' qs =>
      simp only [Pattern.renumber_alternation, Pattern.alternation.injEq] at hbody
      exact h.any_isReferenceTo_eq hbody.2 hcell
    | _ => exact absurd hbody nofun
  | _ =>
    cases body' with
    | alternation => exact absurd hbody nofun
    | _ => rfl

theorem SameUnder.leadsBack_eq (h : SameUnder f g heap other) :
    rule.leadsBack heap = partner.leadsBack other := by
  obtain ⟨_, hcell, hbody⟩ := Rule.renumber_eq_iff.mp hsame
  obtain ⟨_, _, body⟩ := rule
  obtain ⟨_, _, body'⟩ := partner
  cases body with
  | alternation tag ps =>
    cases body' with
    | alternation tag' qs =>
      simp only [Pattern.renumber_alternation, Pattern.alternation.injEq] at hbody
      exact h.any_leads_eq hbody.2 hcell
    | _ => exact absurd hbody nofun
  | _ =>
    cases body' with
    | alternation => exact absurd hbody nofun
    | _ => rfl

theorem Reordered.steady (h : Reordered f g heap other rules rules') (owns : heap.Owns rules)
    (owns' : other.Owns rules') (hsteady : rule.Steady heap rules) :
    partner.Steady other rules' := by
  have hraw := h.sameUnder owns owns'
  have hloose := h.leadEliminated.sameUnder owns.leadEliminated owns'.leadEliminated
  unfold Rule.Steady
  rw [← hraw.hasBareAlternative_eq hsame, ← hraw.leadsBack_eq hsame, ← hloose.leadsBack_eq hsame]
  exact hsteady

end

/-! ## What two runs agree on -/

/-- Both orders carried out to the end. -/
structure BothRun (f g : Nat → Nat) (heap other : Heap) (rules rules' : List Rule)
    (stored stored' : List (String × Pattern)) (later later' : Heap) : Prop where
  same : Reordered f g heap other rules rules'
  owns : heap.Owns rules
  owns' : other.Owns rules'
  run : (heap.bindBodies rules).resolveRules rules = (.ok stored, later)
  run' : (other.bindBodies rules').resolveRules rules' = (.ok stored', later')

theorem Owns.bound_leadEliminated (h : heap.Owns rules) {rule : Rule} (hrule : rule ∈ rules) :
    (heap.bindBodies (rules.map Rule.leadEliminated)).grammar rule.placeholder.cell =
      some (rule.body.leadEliminated rule.placeholder.cell) :=
  h.leadEliminated.provisional.bound rule.leadEliminated (List.mem_map_of_mem hrule)

theorem Owns.between (h : heap.Owns rules) : Between (heap.bindBodies rules)
    (heap.bindBodies (rules.map Rule.leadEliminated)) (heap.bindBodies rules) where
  kept := fun _ _ _ hopens => hopens
  reached := fun _ _ => rfl
  opened := by
    rintro c d hne ⟨p, hp, hopens⟩
    rcases exists_rule_or_ne rules c with ⟨rule, hrule, rfl⟩ | hnone
    · rw [h.provisional.bound rule hrule, Option.some.injEq] at hp
      subst p
      exact ⟨_, h.bound_leadEliminated hrule, Pattern.opens_leadEliminated hne.symm hopens⟩
    · refine ⟨p, ?_, hopens⟩
      rw [grammar_bindBodies_of_ne] at hp ⊢
      · exact hp
      · exact List.forall_mem_map.mpr hnone
      · exact hnone

theorem exists_shape {later : Heap} {stored : List (String × Pattern)} {rule : Rule}
    (h : heap.resolveRules rules = (.ok stored, later)) (hrule : rule ∈ rules) :
    ∃ shape, (rule, shape) ∈ heap.ruleShapes rules := by
  rw [← map_fst_ruleShapes h] at hrule
  obtain ⟨⟨_, shape⟩, hentry, rfl⟩ := List.mem_map.mp hrule
  exact ⟨shape, hentry⟩

/-- Every rule that can be reached from the given one is steady. -/
def SteadyFrom (heap : Heap) (rules : List Rule) (start : Rule) : Prop :=
  ∀ rule ∈ rules, (heap.bindBodies rules).recursesInto start.placeholder.pattern
    rule.placeholder.pattern = true → rule.Steady heap rules

namespace BothRun
variable {stored stored' : List (String × Pattern)} {later later' : Heap}

theorem symm (h : BothRun f g heap other rules rules' stored stored' later later') :
    BothRun g f other heap rules' rules stored' stored later' later :=
  ⟨h.same.symm, h.owns', h.owns, h.run', h.run⟩

theorem shape_of_turn (h : BothRun f g heap other rules rules' stored stored' later later')
    {rule : Rule} {shape : RecursionShape}
    (hshape : (rule, shape) ∈ (heap.bindBodies rules).ruleShapes rules)
    (hsteady : rule.Steady heap rules) :
    shape = (heap.bindBodies rules).shape rule.placeholder.cell rule.body :=
  Between.shape_of_turn h.owns.provisional h.owns.between
    (fun _ hrule => h.owns.bound_leadEliminated hrule) h.run _ hshape hsteady

variable {rule partner : Rule} {shape shape' : RecursionShape}

theorem shape_eq (h : BothRun f g heap other rules rules' stored stored' later later')
    (hsame : rule.renumber f = partner.renumber g)
    (hshape : (rule, shape) ∈ (heap.bindBodies rules).ruleShapes rules)
    (hshape' : (partner, shape') ∈ (other.bindBodies rules').ruleShapes rules')
    (hsteady : rule.Steady heap rules) : shape = shape' := by
  obtain ⟨_, hcell, hbody⟩ := Rule.renumber_eq_iff.mp hsame
  rw [h.shape_of_turn hshape hsteady,
    h.symm.shape_of_turn hshape' (h.same.steady hsame h.owns h.owns' hsteady)]
  exact (h.same.sameUnder h.owns h.owns').shape_eq hbody hcell

theorem bound_eq (h : BothRun f g heap other rules rules' stored stored' later later')
    (hsame : rule.renumber f = partner.renumber g)
    (hshape : (rule, shape) ∈ (heap.bindBodies rules).ruleShapes rules)
    (hshape' : (partner, shape) ∈ (other.bindBodies rules').ruleShapes rules') :
    ∃ bound bound', later.grammar rule.placeholder.cell = some bound ∧
      later'.grammar partner.placeholder.cell = some bound' ∧
      bound.renumber f = bound'.renumber g := by
  obtain ⟨_, hcell, hbody⟩ := Rule.renumber_eq_iff.mp hsame
  obtain ⟨bound, hbound, hform⟩ := h.owns.provisional.bound_of_shape h.run _ hshape
  obtain ⟨bound', hbound', hform'⟩ := h.owns'.provisional.bound_of_shape h.run' _ hshape'
  refine ⟨bound, bound', hbound, hbound', ?_⟩
  rw [hform, hform', ← Pattern.eliminate_renumber h.same.left,
    ← Pattern.eliminate_renumber h.same.right, hcell, hbody]

theorem stored_eq (h : BothRun f g heap other rules rules' stored stored' later later')
    (hsame : rule.renumber f = partner.renumber g)
    (hshape : (rule, shape) ∈ (heap.bindBodies rules).ruleShapes rules)
    (hshape' : (partner, shape) ∈ (other.bindBodies rules').ruleShapes rules') {p q : Pattern}
    (hp : later.StoredFor rule p) (hname : p.name = some rule.name)
    (hq : later'.StoredFor partner q) (hname' : q.name = some partner.name) :
    p.renumber f = q.renumber g := by
  obtain ⟨hnames, hcell, _⟩ := Rule.renumber_eq_iff.mp hsame
  obtain ⟨bound, bound', hbound, hbound', hbounds⟩ := h.bound_eq hsame hshape hshape'
  have hreaches : later.reaches .all bound (.cell rule.placeholder.cell) =
      later'.reaches .all bound' (.cell partner.placeholder.cell) := by
    rw [reaches_of_resolveRules h.owns.provisional h.run,
      reaches_of_resolveRules h.owns'.provisional h.run']
    exact (h.same.sameUnder h.owns h.owns').reaches_eq hbounds hcell .all
  rw [hp.renumber_eq hname hbound, hq.renumber_eq hname' hbound', hreaches, hnames, hcell, hbounds]

theorem grammar_eq (h : BothRun f g heap other rules rules' stored stored' later later')
    {c d : Nat} (hcd : f c = g d)
    (steady : ∀ rule ∈ rules, rule.placeholder.cell = c → rule.Steady heap rules) :
    (later.grammar c).map (Pattern.renumber f) = (later'.grammar d).map (Pattern.renumber g) := by
  have hraw := (h.same.sameUnder h.owns h.owns').cells c d hcd
  rcases exists_rule_or_ne rules c with ⟨rule, hmem, rfl⟩ | hnone
  · obtain ⟨partner, hpartner, hsame⟩ := h.same.exists_partner hmem
    obtain ⟨shape, hshape⟩ := exists_shape h.run hmem
    obtain ⟨shape', hshape'⟩ := exists_shape h.run' hpartner
    obtain rfl := h.shape_eq hsame hshape hshape' (steady rule hmem rfl)
    obtain ⟨bound, bound', hbound, hbound', hbounds⟩ := h.bound_eq hsame hshape hshape'
    obtain rfl : partner.placeholder.cell = d :=
      h.same.right ((Rule.renumber_eq_iff.mp hsame).2.1.symm.trans hcd)
    rw [hbound, hbound']
    exact congrArg some hbounds
  · rw [(solved_of_resolveRules h.owns.provisional h.run).same,
      (solved_of_resolveRules h.owns'.provisional h.run').same]
    · exact hraw
    · exact ne_of_permuted h.same.left h.same.permuted hcd hnone
    · exact hnone

theorem language_le (h : BothRun f g heap other rules rules' stored stored' later later')
    {start : Rule} (steady : SteadyFrom heap rules start) {p q : Pattern}
    (hpq : p.renumber f = q.renumber g) (within : ∀ c, p.Mentions c →
      (heap.bindBodies rules).reaches .all start.placeholder.pattern (.cell c) = true) :
    later.language p ≤ later'.language q := by
  let cells : Nat → Nat → Prop := fun c d =>
    (heap.bindBodies rules).reaches .all start.placeholder.pattern (.cell c) = true ∧ f c = g d
  have hsimulated : later.SimulatedBy later' cells := by
    intro c d bound hcells hbound
    obtain ⟨hc, hcd⟩ := hcells
    have hgrammars := h.grammar_eq hcd fun rule hrule hcell => steady rule hrule (by
      subst hcell
      exact hc)
    rw [hbound] at hgrammars
    obtain ⟨bound', hbound', hbounds⟩ := Option.map_eq_some_iff.mp hgrammars.symm
    refine ⟨bound', hbound', Pattern.alike_of_renumber hbounds.symm ?_⟩
    intro c' d' hmentions hcd'
    refine ⟨?_, hcd'⟩
    rw [← reaches_of_resolveRules h.owns.provisional h.run] at hc ⊢
    exact reaches_cell_tail hc ⟨bound, hbound, hmentions⟩
  exact hsimulated.language_le
    (Pattern.alike_of_renumber hpq fun c d hc hcd => ⟨within c hc, hcd⟩)

theorem steadyFrom (h : BothRun f g heap other rules rules' stored stored' later later')
    (hsame : rule.renumber f = partner.renumber g) (steady : SteadyFrom heap rules rule) :
    SteadyFrom other rules' partner := by
  intro reached' hmem' hreached
  obtain ⟨reached, hmem, hreachedSame⟩ := h.same.symm.exists_partner hmem'
  refine h.same.steady hreachedSame.symm h.owns h.owns' (steady reached hmem ?_)
  have hstart : rule.placeholder.pattern.renumber f = partner.placeholder.pattern.renumber g :=
    congrArg _ (Rule.renumber_eq_iff.mp hsame).2.1
  rw [← hreached]
  exact (h.same.sameUnder h.owns h.owns').reaches_eq hstart
    (Rule.renumber_eq_iff.mp hreachedSame).2.1.symm .all

theorem within_of_storedFor (h : BothRun f g heap other rules rules' stored stored' later later')
    {p : Pattern} (hp : later.StoredFor rule p) {c : Nat} (hmentions : p.Mentions c) :
    (heap.bindBodies rules).reaches .all rule.placeholder.pattern (.cell c) = true := by
  rw [← reaches_of_resolveRules h.owns.provisional h.run]
  rcases hp.standsFor with hreference | ⟨bound, hbound, halike⟩
  · obtain rfl := (Pattern.mentions_of_isReferenceTo hreference).mp hmentions
    exact reaches_cell_iff.mpr ⟨_, .recursion {}, .refl⟩
  · have hself : later.reaches .all rule.placeholder.pattern
        (.cell rule.placeholder.cell) = true :=
      reaches_cell_iff.mpr ⟨_, .recursion {}, .refl⟩
    exact reaches_cell_tail hself ⟨bound, hbound, (Pattern.mentions_congr halike).mp hmentions⟩

theorem language_eq (h : BothRun f g heap other rules rules' stored stored' later later')
    (hsame : rule.renumber f = partner.renumber g) (steady : SteadyFrom heap rules rule)
    {p q : Pattern} (hp : later.StoredFor rule p) (hq : later'.StoredFor partner q)
    (hpq : p.renumber f = q.renumber g) : later.language p = later'.language q :=
  le_antisymm (h.language_le steady hpq fun _ hc => h.within_of_storedFor hp hc)
    (h.symm.language_le (h.steadyFrom hsame steady) hpq.symm
      fun _ hc => h.symm.within_of_storedFor hq hc)

end BothRun
end Heap

/-! ## Finishing in two orders -/

namespace RuleSet
variable {rules rules' : RuleSet} {heap heap' later later' : Heap} {grammar grammar' : Grammar}
  {handles handles' : List (String × Pattern)} {f g : Nat → Nat}

theorem Assembled.owns (h : rules.Assembled heap handles) : heap.Owns rules.defined where
  apart := h.wellFormed.cells_nodup
  live := fun _ hrule => h.wellFormed.live_of_mem hrule

/-- What the finished rule set has for one of its rules. -/
theorem exists_stored (built : rules.Assembled heap handles)
    (finished : rules.finish heap = (.ok grammar, later)) {rule : Rule}
    (hrule : rule ∈ rules.defined) : ∃ p, grammar.get? rule.name = some p ∧
      later.StoredFor rule p ∧ p.name = some rule.name := by
  obtain ⟨_, hrun⟩ := of_finish_ok finished
  obtain ⟨p, hp, hstored⟩ := Heap.exists_lookup_of_stored (P := later.StoredFor)
    (Heap.storedFor_of_resolveRules built.owns.provisional hrun) built.wellFormed.once hrule
  obtain ⟨q, hq, hname⟩ := Heap.exists_lookup_of_stored (P := fun rule p => p.name = some rule.name)
    (Heap.name_of_resolveRules hrun) built.wellFormed.once hrule
  obtain rfl : p = q := Option.some.inj (hp.symm.trans hq)
  exact ⟨p, hp, hstored, hname⟩

/-- Two orders of the same definitions give a steady rule the same shape, store the same pattern
for a rule that has the same shape in both, and give a rule the same language if only steady rules
can be reached from it. -/
theorem finish_of_reordered (built : rules.Assembled heap handles)
    (built' : rules'.Assembled heap' handles')
    (same : Heap.Reordered f g heap heap' rules.defined rules'.defined)
    (finished : rules.finish heap = (.ok grammar, later))
    (finished' : rules'.finish heap' = (.ok grammar', later')) :
    ∀ rule ∈ rules.defined, ∃ partner ∈ rules'.defined, rule.renumber f = partner.renumber g ∧
      ∃ shape shape' p q,
        (rule, shape) ∈ (heap.bindBodies rules.defined).ruleShapes rules.defined ∧
        (partner, shape') ∈ (heap'.bindBodies rules'.defined).ruleShapes rules'.defined ∧
        grammar.get? rule.name = some p ∧ grammar'.get? rule.name = some q ∧
        (rule.Steady heap rules.defined → shape = shape') ∧
        (shape = shape' → p.renumber f = q.renumber g ∧
          (later.grammar rule.placeholder.cell).map (Pattern.renumber f) =
            (later'.grammar partner.placeholder.cell).map (Pattern.renumber g)) ∧
        (Heap.SteadyFrom heap rules.defined rule → later.language p = later'.language q) := by
  obtain ⟨_, hrun⟩ := of_finish_ok finished
  obtain ⟨_, hrun'⟩ := of_finish_ok finished'
  have hboth : Heap.BothRun f g heap heap' rules.defined rules'.defined grammar.rules
      grammar'.rules later later' := ⟨same, built.owns, built'.owns, hrun, hrun'⟩
  intro rule hrule
  obtain ⟨partner, hpartner, hsame⟩ := same.exists_partner hrule
  obtain ⟨shape, hshape⟩ := Heap.exists_shape hrun hrule
  obtain ⟨shape', hshape'⟩ := Heap.exists_shape hrun' hpartner
  obtain ⟨p, hp, hstored, hname⟩ := exists_stored built finished hrule
  obtain ⟨q, hq, hstored', hname'⟩ := exists_stored built' finished' hpartner
  rw [← (Rule.renumber_eq_iff.mp hsame).1] at hq
  have hsteady : rule.Steady heap rules.defined → shape = shape' :=
    hboth.shape_eq hsame hshape hshape'
  have hpatterns : shape = shape' → p.renumber f = q.renumber g ∧
      (later.grammar rule.placeholder.cell).map (Pattern.renumber f) =
        (later'.grammar partner.placeholder.cell).map (Pattern.renumber g) := by
    rintro rfl
    obtain ⟨bound, bound', hbound, hbound', hbounds⟩ := hboth.bound_eq hsame hshape hshape'
    rw [hbound, hbound']
    exact ⟨hboth.stored_eq hsame hshape hshape' hstored hname hstored' hname',
      congrArg some hbounds⟩
  refine ⟨partner, hpartner, hsame, shape, shape', p, q, hshape, hshape', hp, hq, hsteady,
    hpatterns, ?_⟩
  intro hall
  have hself : (heap.bindBodies rules.defined).recursesInto rule.placeholder.pattern
      rule.placeholder.pattern = true := Heap.reaches_cell_iff.mpr ⟨_, .recursion {}, .refl⟩
  exact hboth.language_eq hsame hall hstored hstored'
    (hpatterns (hsteady (hall rule hrule hself))).1

def innerBody (inner outer : Nat) : Pattern :=
  .anyOf [.reference inner, .ofText "x", .reference outer]

def outerBody (inner : Nat) : Pattern := .inOrder [.ofText "(", .reference inner, .ofText ")"]

/-- Nested parentheses, with the rule for the parentheses last. -/
def nesting : RuleSet where
  mentioned := [("inner", ⟨0⟩), ("outer", ⟨1⟩)]
  defined := [⟨"inner", ⟨0⟩, innerBody 0 1⟩, ⟨"outer", ⟨1⟩, outerBody 0⟩]

/-- The same rules in the other order, in which each of them gets the other's cell. -/
def nestingBack : RuleSet where
  mentioned := [("outer", ⟨0⟩), ("inner", ⟨1⟩)]
  defined := [⟨"outer", ⟨0⟩, outerBody 1⟩, ⟨"inner", ⟨1⟩, innerBody 1 0⟩]

theorem finish_of_reordered_nesting :
    ∃ handles handles' grammar grammar' later later', nesting.Assembled twoCells handles ∧
      nestingBack.Assembled twoCells handles' ∧
      nesting.finish twoCells = (.ok grammar, later) ∧
      nestingBack.finish twoCells = (.ok grammar', later') ∧
      ∀ rule ∈ nesting.defined, ∃ p q, grammar.get? rule.name = some p ∧
        grammar'.get? rule.name = some q ∧
        p.renumber id = q.renumber (Equiv.swap 0 1) ∧ later.language p = later'.language q := by
  have referred := (Assembled.reference "inner" (.new {})).reference "outer"
  have defined : Assembled _ twoCells _ := referred.define "inner" (innerBody 0 1) rfl
  have built : Assembled nesting twoCells _ := defined.define "outer" (outerBody 0) rfl
  have referred' := (Assembled.reference "outer" (.new {})).reference "inner"
  have defined' : Assembled _ twoCells _ := referred'.define "outer" (outerBody 1) rfl
  have built' : Assembled nestingBack twoCells _ := defined'.define "inner" (innerBody 1 0) rfl
  have unbound : ∀ c, twoCells.grammar c = none := fun c =>
    match c with
    | 0 | 1 | _ + 2 => rfl
  have same : Heap.Reordered id (Equiv.swap 0 1) twoCells twoCells nesting.defined
      nestingBack.defined := by
    refine ⟨Function.injective_id, Equiv.injective _, List.Perm.swap _ _ _, ?_⟩
    intro c d _ _
    rw [unbound, unbound]
    rfl
  have steady : ∀ rule ∈ nesting.defined, rule.Steady twoCells nesting.defined := by decide
  obtain ⟨grammar, later, finished⟩ : ∃ grammar later,
      nesting.finish twoCells = (.ok grammar, later) := ⟨⟨[_, _]⟩, _, rfl⟩
  obtain ⟨grammar', later', finished'⟩ : ∃ grammar later,
      nestingBack.finish twoCells = (.ok grammar, later) := ⟨⟨[_, _]⟩, _, rfl⟩
  refine ⟨_, _, grammar, grammar', later, later', built, built', finished, finished', ?_⟩
  intro rule hrule
  obtain ⟨_, _, _, shape, shape', p, q, _, _, hp, hq, hshape, hpattern, hlanguage⟩ :=
    finish_of_reordered built built' same finished finished' rule hrule
  exact ⟨p, q, hp, hq, (hpattern (hshape (steady rule hrule))).1,
    hlanguage fun reached hreached _ => steady reached hreached⟩

def startBody : Pattern := .anyOf [.reference 0, .ofText "x", .reference 1]

def backBody : Pattern := .inOrder [.reference 1, .reference 0, .ofText "y"]

/-- An alternation with its own reference, and a rule that leads back to it behind a reference to
itself. -/
def crossed : RuleSet where
  mentioned := [("start", ⟨0⟩), ("back", ⟨1⟩)]
  defined := [⟨"start", ⟨0⟩, startBody⟩, ⟨"back", ⟨1⟩, backBody⟩]

def crossedBack : RuleSet := { crossed with defined := crossed.defined.reverse }

def crossedAfter : Heap := (crossed.finish twoCells).2

def crossedBackAfter : Heap := (crossedBack.finish twoCells).2

theorem mem_language_crossedAfter : ['x', 'x'] ∈ crossedAfter.cellLanguage 0 := by
  obtain ⟨a, b, c, back, hbound⟩ : ∃ a b c back, crossedAfter.grammar 0 =
      some (.repetition a (.alternation b [.literal c "x", back]) 1 none) := ⟨_, _, _, _, rfl⟩
  rw [Heap.cellLanguage_of_bound hbound]
  have hsingle : ['x'] ∈ crossedAfter.language (.alternation b [.literal c "x", back]) :=
    Pattern.mem_languageOfAny.mpr ⟨_, List.mem_cons_self, rfl⟩
  refine mem_copies.mpr ⟨2, rfl, ?_⟩
  rw [pow_two]
  exact Language.append_mem_mul hsingle hsingle

/-- In the other order every word but `x` is empty or ends with `y`. -/
theorem notMem_language_crossedBackAfter : ['x', 'x'] ∉ crossedBackAfter.cellLanguage 0 := by
  let others : Nat → Language Char := fun _ => {word | word ≠ ['x', 'x']}
  have hclosed : crossedBackAfter.Closed others := by
    intro c p hbound word hword
    match c with
    | 0 =>
      obtain ⟨a, b, c, d, hstart⟩ : ∃ a b c d, crossedBackAfter.grammar 0 =
          some (.alternation a [.recursion b 0, .literal c "x", .recursion d 1]) :=
        ⟨_, _, _, _, rfl⟩
      rw [hstart, Option.some.injEq] at hbound
      subst p
      obtain ⟨q, hq, hword⟩ := Pattern.mem_languageOfAny.mp hword
      simp only [List.mem_cons, List.not_mem_nil, or_false] at hq
      rcases hq with rfl | rfl | rfl
      · exact hword
      · obtain rfl : word = ['x'] := hword
        exact fun h => absurd h (by decide)
      · exact hword
    | 1 =>
      obtain ⟨a, b, first, d, hback⟩ : ∃ a b first d, crossedBackAfter.grammar 1 =
          some (.repetition a (.concatenation b [first, .literal d "y"]) 0 none) :=
        ⟨_, _, _, _, rfl⟩
      rw [hback, Option.some.injEq] at hbound
      subst p
      rintro rfl
      obtain ⟨count, _, hpower⟩ := mem_copies.mp hword
      obtain ⟨words, hflatten, _, hwords⟩ := Language.mem_pow.mp hpower
      cases words with
      | nil => exact absurd hflatten (by decide)
      | cons word rest =>
        obtain ⟨front, _, back, hback, rfl⟩ := Language.mem_mul.mp (hwords word List.mem_cons_self)
        obtain ⟨letter, hletter, last, _, rfl⟩ := Language.mem_mul.mp hback
        obtain rfl : letter = ['y'] := hletter
        have hy : 'y' ∈ ['x', 'x'] := by
          rw [hflatten]
          simp
        exact absurd hy (by decide)
    | c + 2 => exact absurd hbound nofun
  exact fun h => Heap.cellLanguage_le hclosed 0 h rfl

/-- A rule that is not steady may have another shape, another grammar and another language in
another order. -/
theorem finish_differs_of_crossed :
    ∃ handles handles' grammar grammar' p q, crossed.Assembled twoCells handles ∧
      crossedBack.Assembled twoCells handles' ∧
      Heap.Reordered id id twoCells twoCells crossed.defined crossedBack.defined ∧
      crossed.finish twoCells = (.ok grammar, crossedAfter) ∧
      crossedBack.finish twoCells = (.ok grammar', crossedBackAfter) ∧
      ((twoCells.bindBodies crossed.defined).ruleShapes crossed.defined).map
        (fun entry => (entry.1.name, entry.2)) = [("start", .direct), ("back", .left)] ∧
      ((twoCells.bindBodies crossedBack.defined).ruleShapes crossedBack.defined).map
        (fun entry => (entry.1.name, entry.2)) = [("back", .left), ("start", .indirect)] ∧
      (∀ f g, (crossedAfter.grammar 0).map (Pattern.renumber f) ≠
        (crossedBackAfter.grammar 0).map (Pattern.renumber g)) ∧
      grammar.get? "start" = some p ∧ grammar'.get? "start" = some q ∧
      ['x', 'x'] ∈ crossedAfter.language p ∧ ['x', 'x'] ∉ crossedBackAfter.language q := by
  have referred := (Assembled.reference "start" (.new {})).reference "back"
  have started : Assembled _ twoCells _ := referred.define "start" startBody rfl
  have built : Assembled crossed twoCells _ := started.define "back" backBody rfl
  have backed : Assembled _ twoCells _ := referred.define "back" backBody rfl
  have built' : Assembled crossedBack twoCells _ := backed.define "start" startBody rfl
  refine ⟨_, _, ⟨[_, _]⟩, ⟨[_, _]⟩, _, _, built, built', ?_, rfl, rfl, by decide, by decide, ?_,
    rfl, rfl, mem_language_crossedAfter, notMem_language_crossedBackAfter⟩
  · exact ⟨Function.injective_id, Function.injective_id, List.Perm.swap _ _ _, fun _ _ h _ => by
      subst h
      rfl⟩
  · exact fun f g => nofun

end RuleSet
end PatternGraph
