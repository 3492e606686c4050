import PatternGraph.Proofs.RuleEquations

/-!
# Elimination and reachability

Eliminating the recursion of a body drops references to its own cell and nothing else: whatever the
shape, every other cell is mentioned before and after or not at all. So from the rewritten cell,
and along every path through it, the same cells are reached as before. This holds in every heap,
in particular while other rules are still to be rewritten, and it holds of the whole run of a
rule set.
-/

namespace PatternGraph
set_option autoImplicit false

namespace Pattern
variable {cell other : Nat} {elements : List Pattern}

/-! ## Mentioned cells -/

theorem exists_mentions_sequence? (elements : List Pattern) :
    (∃ p ∈ sequence? elements, p.Mentions other) ↔ ∃ p ∈ elements, p.Mentions other := by
  unfold sequence?
  split
  · simp
  · simp
  · simp [inOrder]

theorem mentions_of_sequence? {p : Pattern} (h : sequence? elements = some p) :
    p.Mentions other ↔ ∃ q ∈ elements, q.Mentions other := by
  rw [← exists_mentions_sequence?, h]
  simp

@[simp] theorem mentions_choice :
    (choice elements).Mentions other ↔ ∃ p ∈ elements, p.Mentions other := by
  unfold choice
  split
  · simp
  · simp [anyOf]

@[simp] theorem mentions_any (p : Pattern) : p.any.Mentions other ↔ p.Mentions other :=
  mentions_repetition

@[simp] theorem mentions_oneOrMore (p : Pattern) :
    p.oneOrMore.Mentions other ↔ p.Mentions other :=
  mentions_repetition

@[simp] theorem mentions_namedLike (model p : Pattern) :
    (model.namedLike p).Mentions other ↔ p.Mentions other := by
  unfold namedLike
  split
  · exact mentions_named _ p
  · rfl

theorem exists_mentions_parts (p : Pattern) :
    (∃ q ∈ p.parts, q.Mentions other) ↔ p.Mentions other := by
  unfold parts
  split
  · simp
  · simp

/-- Stripping a leading reference loses that reference alone. -/
theorem mentions_of_stripLeading (hne : other ≠ cell) {element : Pattern}
    {remainder : Option Pattern} (h : element.stripLeading cell = some remainder) :
    element.Mentions other ↔ ∃ tail ∈ remainder, tail.Mentions other := by
  fun_induction stripLeading cell element generalizing remainder with
  | case1 tag =>
    obtain rfl := Option.some.inj h
    simp [hne.symm]
  | case2 | case3 | case6 => simp at h
  | case4 tag first rest hfirst ih =>
    obtain rfl := Option.some.inj h
    have hlead : ¬ first.Mentions other := by simpa using ih hfirst
    rw [exists_mentions_sequence?, mentions_concatenation, List.exists_mem_cons_iff]
    simp [hlead]
  | case5 tag first rest head hfirst ih =>
    obtain rfl := Option.some.inj h
    have hlead : first.Mentions other ↔ head.Mentions other := by simpa using ih hfirst
    rw [exists_mentions_sequence?, mentions_concatenation, List.exists_mem_cons_iff, hlead]
    simp only [List.mem_append, or_and_right, exists_or, exists_mentions_parts]

theorem exists_mentions_split (hne : other ≠ cell) :
    ((∃ p ∈ seeds cell elements, p.Mentions other) ∨
      ∃ p ∈ tails cell elements, p.Mentions other) ↔ ∃ p ∈ elements, p.Mentions other := by
  constructor
  · intro h
    rcases h with ⟨p, hp, hmentions⟩ | ⟨tail, htail, hmentions⟩
    · exact ⟨p, List.mem_of_mem_filter hp, hmentions⟩
    · obtain ⟨p, hp, hstrip⟩ := List.mem_filterMap.mp htail
      rw [Option.join_eq_some_iff] at hstrip
      exact ⟨p, hp, (mentions_of_stripLeading hne hstrip).mpr ⟨tail, rfl, hmentions⟩⟩
  · intro h
    obtain ⟨p, hp, hmentions⟩ := h
    cases hstrip : p.stripLeading cell with
    | none => exact Or.inl ⟨p, List.mem_filter.mpr ⟨hp, by simp [hstrip]⟩, hmentions⟩
    | some remainder =>
      obtain ⟨tail, rfl, htail⟩ := (mentions_of_stripLeading hne hstrip).mp hmentions
      exact Or.inr ⟨tail, List.mem_filterMap.mpr ⟨p, hp, by simp [hstrip]⟩, htail⟩

theorem exists_mentions_withoutReference (hne : other ≠ cell) :
    (∃ p ∈ withoutReference cell elements, p.Mentions other) ↔
      ∃ p ∈ elements, p.Mentions other := by
  constructor
  · intro h
    obtain ⟨p, hp, hmentions⟩ := h
    exact ⟨p, List.mem_of_mem_filter hp, hmentions⟩
  · intro h
    obtain ⟨p, hp, hmentions⟩ := h
    refine ⟨p, List.mem_filter.mpr ⟨hp, ?_⟩, hmentions⟩
    simp only [Bool.not_eq_true']
    apply Bool.eq_false_iff.mpr
    intro hreference
    exact hne ((mentions_of_isReferenceTo hreference).mp hmentions).symm

theorem exists_mentions_tail (hne : other ≠ cell) (h : startsWith cell elements = true) :
    (∃ p ∈ elements.tail, p.Mentions other) ↔ ∃ p ∈ elements, p.Mentions other := by
  cases elements with
  | nil => simp
  | cons first rest =>
    have hfirst : first.isReferenceTo cell = true := by simpa [startsWith] using h
    simp [mentions_of_isReferenceTo hfirst, hne.symm]

theorem exists_mentions_dropLast (hne : other ≠ cell) (h : endsWith cell elements = true) :
    (∃ p ∈ elements.dropLast, p.Mentions other) ↔ ∃ p ∈ elements, p.Mentions other := by
  unfold endsWith at h
  cases hlast : elements.getLast? with
  | none => simp [hlast] at h
  | some last =>
    have hreference : last.isReferenceTo cell = true := by simpa [hlast] using h
    have hsplit : elements.dropLast ++ [last] = elements :=
      List.dropLast_append_getLast? last hlast
    conv_rhs => rw [← hsplit]
    simp [or_and_right, exists_or, mentions_of_isReferenceTo hreference, hne.symm]

/-- The eliminated body mentions the same cells, its own one aside. -/
theorem mentions_eliminate (heap : Heap) (body : Pattern) (hne : other ≠ cell) :
    (body.eliminate cell (heap.shape cell body)).Mentions other ↔ body.Mentions other := by
  unfold eliminate
  generalize hshape : heap.shape cell body = shape
  fun_cases eliminated? cell shape body with
  | case1 tag elements =>
    simp only [mentions_namedLike, mentions_oneOrMore, anyOf, mentions_alternation]
    exact exists_mentions_withoutReference hne
  | case2 tag elements =>
    simp only [mentions_namedLike, inOrder, mentions_concatenation, mentions_alternation]
    simpa using exists_mentions_split hne
  | case3 tag elements =>
    have hstart := startsWith_of_left heap hshape
    cases hrest : sequence? elements.tail with
    | none => simp
    | some rest =>
      simp only [Option.map_some, mentions_namedLike, mentions_any, mentions_concatenation]
      rw [mentions_of_sequence? hrest, exists_mentions_tail hne hstart]
  | case4 tag elements =>
    have hend := endsWith_of_right heap hshape
    cases hrest : sequence? elements.dropLast with
    | none => simp
    | some rest =>
      simp only [Option.map_some, mentions_namedLike, mentions_oneOrMore, mentions_concatenation]
      rw [mentions_of_sequence? hrest, exists_mentions_dropLast hne hend]
  | case5 => rfl

end Pattern

namespace Heap

/-! ## Resolving -/

namespace Resolved
variable {heap later : Heap} {cell : Nat} {body grammar result : Pattern}

theorem mentions_grammar (h : heap.Resolved cell body grammar result later) {other : Nat}
    (hne : other ≠ cell) : grammar.Mentions other ↔ body.Mentions other := by
  rcases h.form with ⟨_, rfl⟩ | rfl
  · rfl
  · rw [Pattern.mentions_enter]
    exact Pattern.mentions_eliminate heap body hne

/-- Only the edge from the cell to itself may be lost. -/
theorem leads_iff (h : heap.Resolved cell body grammar result later)
    (hbound : heap.grammar cell = some body) {c d : Nat} (hne : c ≠ d) :
    later.Leads c d ↔ heap.Leads c d := by
  unfold Leads
  by_cases hc : c = cell
  · subst c
    rw [h.grammar_self (lt_size_of_grammar hbound), hbound]
    simp [h.mentions_grammar hne.symm]
  · rw [h.grammar_ne hc]

theorem reaches_eq (h : heap.Resolved cell body grammar result later)
    (hbound : heap.grammar cell = some body) (p : Pattern) (c : Nat) :
    later.reaches .all p (.cell c) = heap.reaches .all p (.cell c) :=
  reaches_eq_of_leads (fun _ _ hne _ => h.leads_iff hbound hne) p

end Resolved

/-! ## Resolving in turn -/

/-- What is stored for a rule: a reference to its cell if the cell still reaches itself, and a
copy of what the cell is bound to if not. -/
def StoredFor (heap : Heap) (rule : Rule) (stored : Pattern) : Prop :=
  ∃ bound, heap.grammar rule.placeholder.cell = some bound ∧
    ((heap.reaches .all bound (.cell rule.placeholder.cell) = true ∧
        stored.isReferenceTo rule.placeholder.cell = true) ∨
      (heap.reaches .all bound (.cell rule.placeholder.cell) = false ∧
        ∃ before : Heap, stored = (before.enter (bound.named rule.name)).1))

theorem reaches_of_resolveRules {heap later : Heap} {rules : List Rule}
    {stored : List (String × Pattern)} (h : heap.Provisional rules)
    (hrun : heap.resolveRules rules = (.ok stored, later)) (p : Pattern) (c : Nat) :
    later.reaches .all p (.cell c) = heap.reaches .all p (.cell c) := by
  induction rules generalizing heap stored with
  | nil =>
    obtain ⟨_, rfl⟩ := Prod.mk.inj hrun
    rfl
  | cons rule rest ih =>
    obtain ⟨q, resolved, grammar, others, _, hresolved, htail, hrest, rfl⟩ :=
      h.exists_resolved hrun
    have hbound := h.bound rule List.mem_cons_self
    calc later.reaches .all p (.cell c)
      _ = (resolved.enter (q.named rule.name)).2.reaches .all p (.cell c) :=
        ih htail hrest
      _ = resolved.reaches .all p (.cell c) :=
        reaches_congr (fun d => (grammar_enter _ _ d).symm) p c
      _ = heap.reaches .all p (.cell c) := hresolved.reaches_eq hbound p c

theorem storedFor_of_resolveRules {heap later : Heap} {rules : List Rule}
    {stored : List (String × Pattern)} (h : heap.Provisional rules)
    (hrun : heap.resolveRules rules = (.ok stored, later)) :
    List.Forall₂ (fun rule entry => entry.1 = rule.name ∧ later.StoredFor rule entry.2)
      rules stored := by
  induction rules generalizing heap stored with
  | nil =>
    obtain ⟨hstored, rfl⟩ := Prod.mk.inj hrun
    obtain rfl := Except.ok.inj hstored
    exact .nil
  | cons rule rest ih =>
    obtain ⟨p, resolved, grammar, others, _, hresolved, htail, hrest, rfl⟩ :=
      h.exists_resolved hrun
    have hbound := h.bound rule List.mem_cons_self
    have hkept := h.kept (solved_of_resolveRules htail hrest)
      (hresolved.grammar_self (lt_size_of_grammar hbound))
    refine .cons ⟨rfl, grammar, hkept, ?_⟩ (ih htail hrest)
    · have hdecided : later.reaches .all grammar (.cell rule.placeholder.cell) =
          resolved.reaches .all grammar (.cell rule.placeholder.cell) :=
        (reaches_of_resolveRules htail hrest _ _).trans
          (reaches_congr (fun d => (grammar_enter _ _ d).symm) _ _)
      rw [hdecided]
      rcases hresolved.result with ⟨hreaches, hreference⟩ | ⟨hreaches, rfl⟩
      · exact Or.inl ⟨hreaches, by simpa using hreference⟩
      · exact Or.inr ⟨hreaches, resolved, rfl⟩

end Heap
end PatternGraph
