import PatternGraph.Proofs.AssembledRules
import PatternGraph.Proofs.EliminatedLanguage

/-!
# The equations of a rule set

A rule set is a system of equations, one for each rule, beside what the heap has its other cells
bound to. Finishing starts from a heap whose least languages are the least solution and resolves
one rule after the other. While it runs, the rules that are still to come hold their bodies as
defined, so resolving one of them is compared with the heap as it is and nothing has to be known
about the rules before it. A language may only grow on the way, and it grows only where the shape
of some rule widens.
-/

namespace PatternGraph
set_option autoImplicit false

/-! ## Binding the bodies -/

namespace Heap
variable {heap later : Heap} {rules : List Rule}

/-- The rules have cells of their own, and each cell holds the body of its rule as defined. -/
structure Provisional (heap : Heap) (rules : List Rule) : Prop where
  apart : (rules.map (·.placeholder.cell)).Nodup
  bound : ∀ rule ∈ rules, heap.grammar rule.placeholder.cell = some rule.body

theorem Provisional.tail {rule : Rule} {rest : List Rule} (h : heap.Provisional (rule :: rest))
    (same : ∀ c, c ≠ rule.placeholder.cell → later.grammar c = heap.grammar c) :
    later.Provisional rest := by
  obtain ⟨hnew, hapart⟩ := List.nodup_cons.mp h.apart
  refine ⟨hapart, ?_⟩
  intro other hother
  rw [same]
  · exact h.bound other (List.mem_cons_of_mem rule hother)
  · intro hcell
    exact hnew (List.mem_map.mpr ⟨other, hother, hcell⟩)

theorem grammar_bindBodies_of_ne (heap : Heap) {c : Nat}
    (h : ∀ rule ∈ rules, rule.placeholder.cell ≠ c) :
    (heap.bindBodies rules).grammar c = heap.grammar c := by
  induction rules generalizing heap with
  | nil => rfl
  | cons rule rest ih =>
    obtain ⟨hrule, hrest⟩ := List.forall_mem_cons.mp h
    exact (ih _ hrest).trans (grammar_bind_ne hrule heap rule.body)

theorem provisional_bindBodies (heap : Heap)
    (apart : (rules.map (·.placeholder.cell)).Nodup)
    (live : ∀ rule ∈ rules, rule.placeholder.cell < heap.cells.size) :
    (heap.bindBodies rules).Provisional rules := by
  refine ⟨apart, ?_⟩
  induction rules generalizing heap with
  | nil => simp
  | cons rule rest ih =>
    obtain ⟨hnew, hapart⟩ := List.nodup_cons.mp apart
    obtain ⟨hlive, hrest⟩ := List.forall_mem_cons.mp live
    intro other hother
    rcases List.mem_cons.mp hother with rfl | hother
    · have hne : ∀ rule ∈ rest, rule.placeholder.cell ≠ other.placeholder.cell := by
        intro rule hrule hcell
        exact hnew (List.mem_map.mpr ⟨rule, hrule, hcell⟩)
      exact (grammar_bindBodies_of_ne _ hne).trans (grammar_bind_self hlive other.body)
    · refine ih (heap.bind _ _) hapart ?_ other hother
      intro rule hrule
      rw [size_bind]
      exact hrest rule hrule

end Heap

/-! ## Least solutions -/

namespace RuleSet

/-- Languages of cells that contain what every equation asks for. -/
structure Solves (rules : RuleSet) (heap : Heap) (atCell : Nat → Language Char) : Prop where
  ofRule : ∀ rule ∈ rules.defined, rule.body.languageWith atCell ≤ atCell rule.placeholder.cell
  ofOther : ∀ c p, (∀ rule ∈ rules.defined, rule.placeholder.cell ≠ c) →
    heap.grammar c = some p → p.languageWith atCell ≤ atCell c

/-- The words that every solution gives to a cell. -/
def leastSolution (rules : RuleSet) (heap : Heap) (c : Nat) : Language Char :=
  {word | ∀ atCell, rules.Solves heap atCell → word ∈ atCell c}

theorem solves_iff_closed {rules : RuleSet} {heap : Heap}
    (h : (heap.bindBodies rules.defined).Provisional rules.defined)
    (atCell : Nat → Language Char) :
    rules.Solves heap atCell ↔ (heap.bindBodies rules.defined).Closed atCell := by
  constructor
  · intro hsolves c p hc
    by_cases hrule : ∃ rule ∈ rules.defined, rule.placeholder.cell = c
    · obtain ⟨rule, hmem, rfl⟩ := hrule
      rw [h.bound rule hmem, Option.some.injEq] at hc
      subst p
      exact hsolves.ofRule rule hmem
    · have hne : ∀ rule ∈ rules.defined, rule.placeholder.cell ≠ c := by
        intro rule hmem hcell
        exact hrule ⟨rule, hmem, hcell⟩
      rw [Heap.grammar_bindBodies_of_ne heap hne] at hc
      exact hsolves.ofOther c p hne hc
  · intro hclosed
    refine ⟨?_, ?_⟩
    · intro rule hmem
      exact hclosed _ _ (h.bound rule hmem)
    · intro c p hne hc
      apply hclosed c p
      rwa [Heap.grammar_bindBodies_of_ne heap hne]

theorem leastSolution_eq {rules : RuleSet} {heap : Heap}
    (h : (heap.bindBodies rules.defined).Provisional rules.defined) :
    rules.leastSolution heap = (heap.bindBodies rules.defined).cellLanguage := by
  funext c
  ext word
  exact forall_congr' fun atCell => imp_congr_left (solves_iff_closed h atCell)

end RuleSet

/-! ## Resolving in turn -/

namespace Heap
variable {heap later : Heap} {rules : List Rule} {stored : List (String × Pattern)}

/-- Each rule with the shape that its body has when its turn comes. -/
def ruleShapes (heap : Heap) : List Rule → List (Rule × RecursionShape)
  | [] => []
  | rule :: rest =>
    (rule, heap.shape rule.placeholder.cell rule.body) ::
      match heap.resolve rule.body rule.placeholder false with
      | .error _ => []
      | .ok (p, later) => (later.enter (p.named rule.name)).2.ruleShapes rest

/-- What resolving rules in turn has done once it is over. -/
structure Solved (heap : Heap) (rules : List Rule) (stored : List (String × Pattern))
    (later : Heap) : Prop where
  same : ∀ c, (∀ rule ∈ rules, rule.placeholder.cell ≠ c) → later.grammar c = heap.grammar c
  language_le : ∀ p, heap.language p ≤ later.language p
  language_eq : (∀ entry ∈ heap.ruleShapes rules, ¬ entry.2.Widens entry.1.body.kind) →
    ∀ p, heap.language p = later.language p
  stored : List.Forall₂ (fun rule entry => entry.1 = rule.name ∧
    later.language entry.2 = later.cellLanguage rule.placeholder.cell) rules stored

/-- The rules after the first have other cells, so its cell keeps what it was resolved to. -/
theorem Provisional.kept {midway : Heap} {rule : Rule} {rest : List Rule} {p : Pattern}
    (h : heap.Provisional (rule :: rest)) (hsolved : midway.Solved rest stored later)
    (hp : midway.grammar rule.placeholder.cell = some p) :
    later.grammar rule.placeholder.cell = some p := by
  rw [hsolved.same, hp]
  intro other hother hcell
  exact (List.nodup_cons.mp h.apart).1 (List.mem_map.mpr ⟨other, hother, hcell⟩)

theorem language_enter (heap : Heap) (p q : Pattern) :
    (heap.enter p).2.language q = heap.language q :=
  language_congr (fun c => grammar_enter heap p c) q

/-- Binding a cell to what it is bound to already changes no language. -/
theorem language_bind_of_bound {c : Nat} {body : Pattern} (h : heap.grammar c = some body)
    (p : Pattern) : (heap.bind c body).language p = heap.language p := by
  apply language_congr
  intro d
  by_cases hd : c = d
  · subst d
    rw [grammar_bind_self (lt_size_of_grammar h), h]
  · exact grammar_bind_ne hd heap body

theorem resolveRules_cons_ok {rule : Rule} {rest : List Rule}
    (h : heap.resolveRules (rule :: rest) = (.ok stored, later)) :
    ∃ p resolved others, heap.resolve rule.body rule.placeholder false = .ok (p, resolved) ∧
      (resolved.enter (p.named rule.name)).2.resolveRules rest = (.ok others, later) ∧
      stored = (rule.name, (resolved.enter (p.named rule.name)).1) :: others := by
  unfold resolveRules at h
  split at h
  · exact absurd (congrArg Prod.fst h) (by simp)
  · rename_i p resolved hresolve
    dsimp only at h
    obtain ⟨⟨answer, last⟩, hrest⟩ : ∃ outcome, (resolved.enter (p.named rule.name)).2.resolveRules
        rest = outcome := ⟨_, rfl⟩
    rw [hrest] at h
    obtain ⟨hstored, rfl⟩ := Prod.mk.inj h
    cases answer with
    | error error => exact absurd hstored (by simp [Except.map])
    | ok others => exact ⟨p, resolved, others, hresolve, hrest, (Except.ok.inj hstored).symm⟩

/-- What the first of some provisional rules is resolved to, with the others still provisional. -/
theorem Provisional.exists_resolved {rule : Rule} {rest : List Rule}
    (h : heap.Provisional (rule :: rest))
    (hrun : heap.resolveRules (rule :: rest) = (.ok stored, later)) :
    ∃ p resolved grammar others,
      heap.resolve rule.body rule.placeholder false = .ok (p, resolved) ∧
      heap.Resolved rule.placeholder.cell rule.body grammar p resolved ∧
      (resolved.enter (p.named rule.name)).2.Provisional rest ∧
      (resolved.enter (p.named rule.name)).2.resolveRules rest = (.ok others, later) ∧
      stored = (rule.name, (resolved.enter (p.named rule.name)).1) :: others := by
  obtain ⟨p, resolved, others, hresolve, hrest, hstored⟩ := resolveRules_cons_ok hrun
  obtain ⟨grammar, hresolved⟩ := Heap.exists_resolved hresolve
  refine ⟨p, resolved, grammar, others, hresolve, hresolved, h.tail ?_, hrest, hstored⟩
  intro c hc
  rw [grammar_enter, hresolved.grammar_ne hc]

theorem ruleShapes_cons {rule : Rule} {rest : List Rule} {p : Pattern} {resolved : Heap}
    (h : heap.resolve rule.body rule.placeholder false = .ok (p, resolved)) :
    heap.ruleShapes (rule :: rest) = (rule, heap.shape rule.placeholder.cell rule.body) ::
      (resolved.enter (p.named rule.name)).2.ruleShapes rest := by
  rw [ruleShapes, h]

theorem solved_of_resolveRules (h : heap.Provisional rules)
    (hrun : heap.resolveRules rules = (.ok stored, later)) :
    heap.Solved rules stored later := by
  induction rules generalizing heap stored with
  | nil =>
    obtain ⟨hstored, rfl⟩ := Prod.mk.inj hrun
    obtain rfl := Except.ok.inj hstored
    exact ⟨fun _ _ => rfl, fun _ => le_refl _, fun _ _ => rfl, .nil⟩
  | cons rule rest ih =>
    obtain ⟨p, resolved, grammar, others, hresolve, hresolved, htail, hrest, rfl⟩ :=
      h.exists_resolved hrun
    have hbound := h.bound rule List.mem_cons_self
    have hsolved := ih htail hrest
    refine ⟨?_, ?_, ?_, .cons ⟨rfl, ?_⟩ hsolved.stored⟩
    · intro c hc
      obtain ⟨hrule, hothers⟩ := List.forall_mem_cons.mp hc
      rw [hsolved.same c hothers, grammar_enter, hresolved.grammar_ne hrule.symm]
    · intro q
      calc heap.language q
        _ = (heap.bind rule.placeholder.cell rule.body).language q :=
          (language_bind_of_bound hbound q).symm
        _ ≤ resolved.language q := hresolved.language_le q
        _ = (resolved.enter (p.named rule.name)).2.language q := (language_enter _ _ q).symm
        _ ≤ later.language q := hsolved.language_le q
    · intro hnarrow q
      rw [ruleShapes_cons hresolve] at hnarrow
      obtain ⟨hhead, htail⟩ := List.forall_mem_cons.mp hnarrow
      calc heap.language q
        _ = (heap.bind rule.placeholder.cell rule.body).language q :=
          (language_bind_of_bound hbound q).symm
        _ = resolved.language q := hresolved.language_eq hhead q
        _ = (resolved.enter (p.named rule.name)).2.language q := (language_enter _ _ q).symm
        _ = later.language q := hsolved.language_eq htail q
    · have hkept := h.kept hsolved (hresolved.grammar_self (lt_size_of_grammar hbound))
      calc later.language (resolved.enter (p.named rule.name)).1
        _ = later.language p := by simp [language]
        _ = later.cellLanguage rule.placeholder.cell := hresolved.language_result hkept

theorem exists_lookup_of_stored {P : Rule → Pattern → Prop}
    (h : List.Forall₂ (fun rule entry => entry.1 = rule.name ∧ P rule entry.2) rules stored)
    (once : (rules.map (·.name)).Nodup) {rule : Rule} (hrule : rule ∈ rules) :
    ∃ p, stored.lookup rule.name = some p ∧ P rule p := by
  induction h with
  | nil => exact absurd hrule (by simp)
  | @cons first entry rest others hfirst _ ih =>
    obtain ⟨key, value⟩ := entry
    obtain ⟨hkey, hvalue⟩ := hfirst
    obtain rfl : key = first.name := hkey
    obtain ⟨hnew, honce⟩ := List.nodup_cons.mp once
    rcases List.mem_cons.mp hrule with rfl | hrule
    · exact ⟨value, List.lookup_cons_self, hvalue⟩
    · have hne : (rule.name == first.name) = false := by
        apply beq_false_of_ne
        intro hsame
        exact hnew (List.mem_map.mpr ⟨rule, hrule, hsame⟩)
      obtain ⟨p, hp, hP⟩ := ih honce hrule
      refine ⟨p, ?_, hP⟩
      rw [List.lookup_cons, hne]
      exact hp

end Heap

/-! ## Finishing -/

namespace RuleSet
variable {rules : RuleSet} {heap later : Heap} {grammar : Grammar}

theorem of_finish_ok (finished : rules.finish heap = (.ok grammar, later)) :
    rules.undefined? = none ∧
      (heap.bindBodies rules.defined).resolveRules rules.defined = (.ok grammar.rules, later) := by
  unfold finish at finished
  split at finished
  · exact absurd (congrArg Prod.fst finished) (by simp)
  · rename_i hundefined
    obtain ⟨⟨answer, last⟩, hrun⟩ : ∃ outcome,
        (heap.bindBodies rules.defined).resolveRules rules.defined = outcome := ⟨_, rfl⟩
    dsimp only at finished
    rw [hrun] at finished
    obtain ⟨hgrammar, rfl⟩ := Prod.mk.inj finished
    cases answer with
    | error error => exact absurd hgrammar (by simp [Except.map])
    | ok stored =>
      obtain rfl := Except.ok.inj hgrammar
      exact ⟨hundefined, hrun⟩

theorem exists_rule_of_placeholder? (h : rules.undefined? = none) {name : String}
    {placeholder : Placeholder} (hname : rules.placeholder? name = some placeholder) :
    ∃ rule ∈ rules.defined, rule.name = name := by
  have hmentioned : name ∈ rules.mentioned.map (·.1) :=
    List.mem_map_of_mem (mem_of_placeholder? hname)
  have hdefined : rules.isDefined name = true := by
    simpa using List.find?_eq_none.mp h name hmentioned
  obtain ⟨rule, hrule, hsame⟩ := List.any_eq_true.mp hdefined
  exact ⟨rule, hrule, by simpa using hsame⟩

/-- In the heap that finishing leaves, the pattern stored for a rule and every handle handed out
for it match at least what the equations ask for, and exactly that if no rule had a shape that
widens. No handle is left without a rule. -/
theorem language_finish {handles : List (String × Pattern)} (built : rules.Assembled heap handles)
    (finished : rules.finish heap = (.ok grammar, later)) :
    (∀ rule ∈ rules.defined, ∃ stored, grammar.get? rule.name = some stored ∧
      ∀ p, p = stored ∨ (rule.name, p) ∈ handles →
        rules.leastSolution heap rule.placeholder.cell ≤ later.language p ∧
        ((∀ entry ∈ (heap.bindBodies rules.defined).ruleShapes rules.defined,
            ¬ entry.2.Widens entry.1.body.kind) →
          later.language p = rules.leastSolution heap rule.placeholder.cell)) ∧
    ∀ handle ∈ handles, ∃ rule ∈ rules.defined, rule.name = handle.1 := by
  have hwell := built.wellFormed
  obtain ⟨hundefined, hrun⟩ := of_finish_ok finished
  have hprovisional := Heap.provisional_bindBodies heap hwell.cells_nodup
    fun rule hrule => hwell.live_of_mem hrule
  have hsolved := Heap.solved_of_resolveRules hprovisional hrun
  constructor
  · intro rule hrule
    obtain ⟨stored, hlookup, hstored⟩ := Heap.exists_lookup_of_stored
      (P := fun rule p => later.language p = later.cellLanguage rule.placeholder.cell)
      hsolved.stored hwell.once hrule
    refine ⟨stored, hlookup, ?_⟩
    intro p hp
    have hcell : later.language p = later.language rule.placeholder.pattern := by
      rcases hp with rfl | hhandle
      · exact hstored
      · exact Pattern.languageWith_of_isReferenceTo
          (hwell.isReferenceTo_of_handed hrule hhandle rfl)
    rw [hcell, leastSolution_eq hprovisional]
    exact ⟨hsolved.language_le rule.placeholder.pattern,
      fun narrow => (hsolved.language_eq narrow rule.placeholder.pattern).symm⟩
  · intro handle hhandle
    obtain ⟨placeholder, hname, _⟩ := hwell.handed handle hhandle
    exact exists_rule_of_placeholder? hundefined hname

def sumBody : Pattern :=
  .anyOf [.inOrder [.reference 0, .ofText "+", .reference 1], .reference 1]

def termBody : Pattern := .anyOf [.inOrder [.ofText "(", .reference 0, .ofText ")"], .ofText "n"]

/-- Sums of terms, where a term may be a sum in parentheses. -/
def sumsOfTerms : RuleSet where
  mentioned := [("sum", ⟨0⟩), ("term", ⟨1⟩)]
  defined := [⟨"sum", ⟨0⟩, sumBody⟩, ⟨"term", ⟨1⟩, termBody⟩]

def twoCells : Heap := { cells := #[{}, {}], nextSerial := 2 }

theorem language_finish_sums :
    ∃ handles grammar later, sumsOfTerms.Assembled twoCells handles ∧
      sumsOfTerms.finish twoCells = (.ok grammar, later) ∧
      (∀ entry ∈ (twoCells.bindBodies sumsOfTerms.defined).ruleShapes sumsOfTerms.defined,
        ¬ entry.2.Widens entry.1.body.kind) ∧
      ∀ rule ∈ sumsOfTerms.defined, ∃ stored, grammar.get? rule.name = some stored ∧
        ∀ p, p = stored ∨ (rule.name, p) ∈ handles →
          later.language p = sumsOfTerms.leastSolution twoCells rule.placeholder.cell := by
  -- Both names are asked for before either of them is defined.
  have referred := (Assembled.reference "sum" (.new {})).reference "term"
  have summed : Assembled _ twoCells _ := referred.define "sum" sumBody rfl
  have built : Assembled sumsOfTerms twoCells _ := summed.define "term" termBody rfl
  obtain ⟨grammar, later, finished⟩ : ∃ grammar later,
      sumsOfTerms.finish twoCells = (.ok grammar, later) := ⟨⟨[_, _]⟩, _, rfl⟩
  have narrow : ∀ entry ∈ (twoCells.bindBodies sumsOfTerms.defined).ruleShapes
      sumsOfTerms.defined, ¬ entry.2.Widens entry.1.body.kind := by decide
  refine ⟨_, grammar, later, built, finished, narrow, ?_⟩
  intro rule hrule
  obtain ⟨stored, hlookup, hstored⟩ := (language_finish built finished).1 rule hrule
  exact ⟨stored, hlookup, fun p hp => (hstored p hp).2 narrow⟩

end RuleSet
end PatternGraph
