import PatternGraph.Proofs.KeptReachability
import PatternGraph.Proofs.UnfoldingInvariance

/-!
# Decisions taken while a rule set is finished

Whether a rule becomes its own cell or a plain copy is decided when its turn comes, while the rules
after it still hold their bodies as defined. No rewriting that follows changes which cells are
reached, so the decision is right in the heap that finishing leaves. Nothing is said about a rule
set that cannot be finished.
-/

namespace PatternGraph
set_option autoImplicit false

/-! ## Midway -/

namespace Heap
variable {heap later : Heap} {rules before rest : List Rule} {stored : List (String × Pattern)}

/-- A run over two lists of rules is a run over the first and then one over the second. -/
theorem resolveRules_append_ok (h : heap.resolveRules (before ++ rest) = (.ok stored, later)) :
    ∃ first midway others, heap.resolveRules before = (.ok first, midway) ∧
      midway.resolveRules rest = (.ok others, later) := by
  induction before generalizing heap stored with
  | nil => exact ⟨[], heap, stored, rfl, h⟩
  | cons rule more ih =>
    obtain ⟨p, resolved, last, hresolve, hrest, rfl⟩ := resolveRules_cons_ok h
    obtain ⟨first, midway, others, hfirst, hothers⟩ := ih hrest
    refine ⟨(rule.name, (resolved.enter (p.named rule.name)).1) :: first, midway, others, ?_,
      hothers⟩
    simp only [resolveRules, hresolve, hfirst]
    rfl

/-- The rules whose turn has not come yet hold their bodies as defined. -/
theorem Provisional.after {midway : Heap} (h : heap.Provisional (before ++ rest))
    (hrun : heap.resolveRules before = (.ok stored, midway)) : midway.Provisional rest := by
  obtain ⟨happart, hbound⟩ := h
  rw [List.map_append] at happart
  obtain ⟨hbefore, hrest, hdisjoint⟩ := List.nodup_append.mp happart
  have hsolved := solved_of_resolveRules
    ⟨hbefore, fun other hother => hbound other (List.mem_append_left rest hother)⟩ hrun
  refine ⟨hrest, ?_⟩
  intro rule hrule
  rw [hsolved.same]
  · exact hbound rule (List.mem_append_right before hrule)
  · intro other hother
    exact hdisjoint _ (List.mem_map_of_mem hother) _ (List.mem_map_of_mem hrule)

/-- When the turn of a rule comes, resolving it leaves every cell reached from where it was, and so
does everything that follows. -/
theorem Provisional.reaches_of_turn {rule : Rule} (h : heap.Provisional (before ++ rule :: rest))
    (hrun : heap.resolveRules (before ++ rule :: rest) = (.ok stored, later)) :
    ∃ first midway result resolved, heap.resolveRules before = (.ok first, midway) ∧
      midway.resolve rule.body rule.placeholder false = .ok (result, resolved) ∧
      ∀ p cell, resolved.reaches .all p (.cell cell) = midway.reaches .all p (.cell cell) ∧
        later.reaches .all p (.cell cell) = resolved.reaches .all p (.cell cell) := by
  obtain ⟨first, midway, others, hfirst, hothers⟩ := resolveRules_append_ok hrun
  have hmidway := h.after hfirst
  obtain ⟨result, resolved, _, _, hresolve, hresolved, _⟩ := hmidway.exists_resolved hothers
  refine ⟨first, midway, result, resolved, hfirst, hresolve, ?_⟩
  intro p cell
  have hkept := hresolved.reaches_eq (hmidway.bound rule List.mem_cons_self) p cell
  exact ⟨hkept, (reaches_of_resolveRules hmidway hothers p cell).trans hkept.symm⟩

/-- From what a rule is resolved to, the same other cells are reached as from its body before. -/
theorem Provisional.reaches_of_rule (h : heap.Provisional rules)
    (hrun : heap.resolveRules rules = (.ok stored, later)) {rule : Rule} (hrule : rule ∈ rules)
    {bound : Pattern} (hbound : later.grammar rule.placeholder.cell = some bound) {other : Nat}
    (hne : rule.placeholder.cell ≠ other) :
    later.reaches .all bound (.cell other) = heap.reaches .all rule.body (.cell other) :=
  calc later.reaches .all bound (.cell other)
    _ = later.reaches .all rule.placeholder.pattern (.cell other) :=
      (reaches_recursion_of_bound hbound hne {}).symm
    _ = heap.reaches .all rule.placeholder.pattern (.cell other) :=
      reaches_of_resolveRules h hrun _ other
    _ = heap.reaches .all rule.body (.cell other) :=
      reaches_recursion_of_bound (h.bound rule hrule) hne {}

/-! ## What is stored -/

/-- A reference to the cell, or a copy of what the cell is bound to. -/
def StandsFor (heap : Heap) (cell : Nat) (p : Pattern) : Prop :=
  p.isReferenceTo cell = true ∨ ∃ bound, heap.grammar cell = some bound ∧ p.Alike Eq bound

namespace StandsFor
variable {cell : Nat} {p bound : Pattern}

theorem alike_or (h : heap.StandsFor cell p) (hbound : heap.grammar cell = some bound) :
    (∃ tag, p = .recursion tag cell) ∨ p.Alike Eq bound := by
  rcases h with hreference | ⟨other, hother, halike⟩
  · exact Or.inl ((Pattern.isReferenceTo_iff_exists cell p).mp hreference)
  · rw [hbound, Option.some.injEq] at hother
    exact Or.inr (hother ▸ halike)

theorem sameOutcome (h : heap.StandsFor cell p) (hbound : heap.grammar cell = some bound) :
    heap.SameOutcome p bound := by
  rcases h.alike_or hbound with ⟨tag, rfl⟩ | halike
  · exact sameOutcome_recursion hbound
  · exact .of_alike halike

theorem reaches_eq (h : heap.StandsFor cell p) (hbound : heap.grammar cell = some bound)
    {other : Nat} (hne : cell ≠ other) :
    heap.reaches .all p (.cell other) = heap.reaches .all bound (.cell other) := by
  rcases h.alike_or hbound with ⟨tag, rfl⟩ | halike
  · exact reaches_recursion_of_bound hbound hne tag
  · exact reaches_of_alike halike other

end StandsFor

/-- What does not reach a cell is no reference to it. -/
theorem isReferenceTo_of_not_reaches {cell : Nat} {p : Pattern}
    (h : heap.reaches .all p (.cell cell) = false) : p.isReferenceTo cell = false := by
  apply Bool.eq_false_iff.mpr
  intro hreference
  have hself : heap.reaches .all p (.cell cell) = true :=
    reaches_cell_iff.mpr ⟨_, (Pattern.mentions_of_isReferenceTo hreference).mpr rfl, .refl⟩
  rw [h] at hself
  exact absurd hself (by decide)

namespace StoredFor
variable {rule : Rule} {p : Pattern}

theorem standsFor (h : heap.StoredFor rule p) : heap.StandsFor rule.placeholder.cell p := by
  obtain ⟨bound, hbound, ⟨_, hreference⟩ | ⟨_, before, rfl⟩⟩ := h
  · exact Or.inl hreference
  · exact Or.inr ⟨bound, hbound, Pattern.alike_enter_named before rule.name bound⟩

theorem identity_iff (h : heap.StoredFor rule p) :
    p.identity = rule.placeholder.pattern.identity ↔
      heap.isRecursive rule.placeholder.pattern = true := by
  obtain ⟨bound, hbound, hcases⟩ := h
  show p.identity = .cell rule.placeholder.cell ↔ heap.isRecursive (.recursion {} _) = true
  rw [isRecursive_of_bound hbound, ← Pattern.isReferenceTo_iff]
  rcases hcases with ⟨hreaches, hreference⟩ | ⟨hreaches, before, rfl⟩
  · exact iff_of_true hreference hreaches
  · refine iff_of_false ?_ (by simp [hreaches])
    simp [isReferenceTo_of_not_reaches hreaches]

theorem exists_copy (h : heap.StoredFor rule p)
    (hplain : heap.isRecursive rule.placeholder.pattern = false) :
    ∃ (bound : Pattern) (before : Heap), heap.grammar rule.placeholder.cell = some bound ∧
      p = (before.enter (bound.named rule.name)).1 ∧
      heap.recursesInto p rule.placeholder.pattern = false := by
  obtain ⟨bound, hbound, hcases⟩ := h
  rw [show heap.isRecursive rule.placeholder.pattern = _ from isRecursive_of_bound hbound {}]
    at hplain
  rcases hcases with ⟨hreaches, _⟩ | ⟨hreaches, before, rfl⟩
  · rw [hplain] at hreaches
    exact absurd hreaches (by decide)
  · refine ⟨bound, before, hbound, rfl, ?_⟩
    show heap.reaches .all _ (.cell rule.placeholder.cell) = false
    rw [reaches_of_alike (Pattern.alike_enter_named before rule.name bound), hreaches]

end StoredFor
end Heap

/-! ## Finishing -/

namespace RuleSet
variable {rules : RuleSet} {heap later : Heap} {grammar : Grammar}

/-- In the heap that finishing leaves, the pattern stored for a rule is the cell of the rule if the
cell reaches itself, and otherwise a renamed copy of what the cell is bound to, from which the cell
is not reached. From a rule, in whatever form, the cells of the same other rules are reached as
from its body before anything was rewritten. The stored pattern and the handles of the rule are
compiled and measured alike. No rewriting on the way, and nothing that follows it, changes which
cells are reached from a pattern. -/
theorem settled_of_finish {handles : List (String × Pattern)} (built : rules.Assembled heap handles)
    (finished : rules.finish heap = (.ok grammar, later)) :
    (∀ rule ∈ rules.defined, ∃ stored, grammar.get? rule.name = some stored ∧
      (stored.identity = rule.placeholder.pattern.identity ↔
        later.isRecursive rule.placeholder.pattern = true) ∧
      (later.isRecursive rule.placeholder.pattern = false →
        ∃ (bound : Pattern) (before : Heap), later.grammar rule.placeholder.cell = some bound ∧
          stored = (before.enter (bound.named rule.name)).1 ∧
          later.recursesInto stored rule.placeholder.pattern = false) ∧
      ∀ p, p = stored ∨ (rule.name, p) ∈ handles →
        (∀ other ∈ rules.defined, other.name ≠ rule.name →
          later.recursesInto p other.placeholder.pattern =
            (heap.bindBodies rules.defined).recursesInto rule.body other.placeholder.pattern) ∧
        later.regexSource p = later.regexSource stored ∧ later.width p = later.width stored) ∧
    ∀ before rule rest, rules.defined = before ++ rule :: rest →
      ∃ first midway result resolved,
        (heap.bindBodies rules.defined).resolveRules before = (.ok first, midway) ∧
        midway.resolve rule.body rule.placeholder false = .ok (result, resolved) ∧
        ∀ p cell, resolved.reaches .all p (.cell cell) = midway.reaches .all p (.cell cell) ∧
          later.reaches .all p (.cell cell) = resolved.reaches .all p (.cell cell) := by
  have hwell := built.wellFormed
  obtain ⟨_, hrun⟩ := of_finish_ok finished
  have hprovisional := Heap.provisional_bindBodies heap hwell.cells_nodup
    fun rule hrule => hwell.live_of_mem hrule
  constructor
  · intro rule hrule
    obtain ⟨stored, hlookup, hstored⟩ := Heap.exists_lookup_of_stored (P := later.StoredFor)
      (Heap.storedFor_of_resolveRules hprovisional hrun) hwell.once hrule
    refine ⟨stored, hlookup, hstored.identity_iff, hstored.exists_copy, ?_⟩
    intro p hp
    have hstands : later.StandsFor rule.placeholder.cell p := by
      rcases hp with rfl | hhandle
      · exact hstored.standsFor
      · exact Or.inl (hwell.isReferenceTo_of_handed hrule hhandle rfl)
    obtain ⟨bound, hbound, _⟩ := id hstored
    refine ⟨?_, (hstands.sameOutcome hbound).trans (hstored.standsFor.sameOutcome hbound).symm⟩
    intro other hother hname
    have hne : rule.placeholder.cell ≠ other.placeholder.cell := by
      intro hcell
      exact hname (hwell.name_eq_of_cell_eq hrule hother hcell).symm
    exact (hstands.reaches_eq hbound hne).trans
      (hprovisional.reaches_of_rule hrun hrule hbound hne)
  · intro before rule rest hsplit
    rw [hsplit] at hprovisional hrun ⊢
    exact hprovisional.reaches_of_turn hrun

def digitsBody : Pattern := .anyOf [.inOrder [.reference 0, .ofText "7"], .ofText "7"]

def nestBody : Pattern := .anyOf [.inOrder [.ofText "(", .reference 1, .ofText ")"], .reference 0]

/-- Digits, of which the recursion can be eliminated, and digits in nested parentheses. -/
def nestedDigits : RuleSet where
  mentioned := [("digits", ⟨0⟩), ("nest", ⟨1⟩)]
  defined := [⟨"digits", ⟨0⟩, digitsBody⟩, ⟨"nest", ⟨1⟩, nestBody⟩]

def nestedDigitsAfter : Heap := (nestedDigits.finish twoCells).2

theorem settled_of_finish_nested :
    ∃ handles grammar, nestedDigits.Assembled twoCells handles ∧
      nestedDigits.finish twoCells = (.ok grammar, nestedDigitsAfter) ∧
      (∃ nest, grammar.get? "nest" = some nest ∧ nest.identity = .cell 1) ∧
      ∃ digits, grammar.get? "digits" = some digits ∧
        digits.identity ≠ .cell 0 ∧ nestedDigitsAfter.recursesInto digits (.reference 0) = false ∧
        ∀ p, ("digits", p) ∈ handles →
          nestedDigitsAfter.regexSource p = nestedDigitsAfter.regexSource digits ∧
          nestedDigitsAfter.width p = nestedDigitsAfter.width digits := by
  have referred := (Assembled.reference "digits" (.new {})).reference "nest"
  have digited : Assembled _ twoCells _ := referred.define "digits" digitsBody rfl
  have built : Assembled nestedDigits twoCells _ := digited.define "nest" nestBody rfl
  obtain ⟨grammar, finished⟩ : ∃ grammar,
      nestedDigits.finish twoCells = (.ok grammar, nestedDigitsAfter) := ⟨⟨[_, _]⟩, rfl⟩
  have hplain : nestedDigitsAfter.isRecursive (.reference 0) = false := by decide
  have hloop : nestedDigitsAfter.isRecursive (.reference 1) = true := by decide
  have hsettled := (settled_of_finish built finished).1
  refine ⟨_, grammar, built, finished, ?_, ?_⟩
  · obtain ⟨nest, hlookup, hidentity, _⟩ := hsettled ⟨"nest", ⟨1⟩, nestBody⟩ (by simp [nestedDigits])
    exact ⟨nest, hlookup, hidentity.mpr hloop⟩
  · obtain ⟨digits, hlookup, hidentity, hcopy, hsame⟩ :=
      hsettled ⟨"digits", ⟨0⟩, digitsBody⟩ (by simp [nestedDigits])
    obtain ⟨_, _, _, _, hunreached⟩ := hcopy hplain
    refine ⟨digits, hlookup, ?_, hunreached, fun p hp => (hsame p (Or.inr hp)).2⟩
    intro hown
    exact absurd ((hidentity.mp hown).symm.trans hplain) (by decide)

end RuleSet
end PatternGraph
