import PatternGraph.ReachedSet
import PatternGraph.Proofs.LanguageLaws
import PatternGraph.Proofs.Resolution

/-!
# What elimination does to languages

A leading reference that is stripped from an alternative is a factor of its language, so an
alternation is the union of its seeds, of the cell followed by its tails, and of the cell itself
for a bare reference. Seeds and tails may mention the cell again; nothing here looks at that,
because each inclusion is checked once, under languages that already solve the equation on the
other side. Elimination never loses a word. Three shapes may gain words, and all others keep every
language of the heap as it is.
-/

namespace PatternGraph
set_option autoImplicit false

open scoped Computability

/-- Whether eliminating a recursion of this shape from a body of this kind may add words. -/
def RecursionShape.Widens : RecursionShape → PatternKind → Prop
  | .direct, _ => True
  | .right, _ => True
  | .left, .concatenation => True
  | _, _ => False

instance (shape : RecursionShape) (kind : PatternKind) : Decidable (shape.Widens kind) := by
  cases shape <;> cases kind <;> unfold RecursionShape.Widens <;> infer_instance

namespace Pattern

/-! ## Stripping a leading reference -/

/-- The language of what followed a stripped reference, where nothing stands for the empty word. -/
def remainderLanguage (ρ : Nat → Language Char) (remainder : Option Pattern) : Language Char :=
  remainder.elim 1 (·.languageWith ρ)

theorem remainderLanguage_sequence? (ρ : Nat → Language Char) (elements : List Pattern) :
    remainderLanguage ρ (sequence? elements) = languageOfAll ρ elements := by
  unfold sequence?
  split
  · rfl
  · exact (mul_one _).symm
  · rfl

theorem languageWith_of_sequence? {elements : List Pattern} {p : Pattern}
    (h : sequence? elements = some p) (ρ : Nat → Language Char) :
    p.languageWith ρ = languageOfAll ρ elements := by
  rw [← remainderLanguage_sequence?, h]
  rfl

theorem languageWith_of_stripLeading {cell : Nat} {element : Pattern} {remainder : Option Pattern}
    (h : element.stripLeading cell = some remainder) (ρ : Nat → Language Char) :
    element.languageWith ρ = ρ cell * remainderLanguage ρ remainder := by
  fun_induction stripLeading cell element generalizing remainder with
  | case1 tag =>
    obtain rfl := Option.some.inj h
    exact (mul_one _).symm
  | case2 | case3 | case6 => simp at h
  | case4 tag first rest hfirst ih =>
    obtain rfl := Option.some.inj h
    have hlead : first.languageWith ρ = ρ cell := (ih hfirst).trans (mul_one _)
    rw [remainderLanguage_sequence?, ← hlead]
    rfl
  | case5 tag first rest head hfirst ih =>
    obtain rfl := Option.some.inj h
    have hlead : first.languageWith ρ = ρ cell * head.languageWith ρ := ih hfirst
    rw [remainderLanguage_sequence?, languageOfAll_append, languageOfAll_parts, ← mul_assoc,
      ← hlead]
    rfl

/-! ## Alternatives that a reference leads -/

variable {cell : Nat} {elements : List Pattern} {ρ : Nat → Language Char}

theorem languageOfAny_seeds_le :
    languageOfAny ρ (seeds cell elements) ≤ languageOfAny ρ elements := by
  apply (languageOfAny_le_iff ρ).mpr
  intro p hp
  exact languageWith_le_languageOfAny ρ (List.mem_of_mem_filter hp)

theorem mul_languageOfAny_tails_le :
    ρ cell * languageOfAny ρ (tails cell elements) ≤ languageOfAny ρ elements := by
  intro word hw
  obtain ⟨lead, hlead, rest, hrest, rfl⟩ := Language.mem_mul.mp hw
  obtain ⟨tail, htail, hrest⟩ := mem_languageOfAny.mp hrest
  obtain ⟨p, hp, hstrip⟩ := List.mem_filterMap.mp htail
  rw [Option.join_eq_some_iff] at hstrip
  apply mem_languageOfAny.mpr
  refine ⟨p, hp, ?_⟩
  rw [languageWith_of_stripLeading hstrip ρ]
  exact Language.append_mem_mul hlead hrest

/-- Every alternative is a seed, the bare cell, or the cell followed by a tail. -/
theorem languageOfAny_le_of_split {l : Language Char}
    (hseeds : languageOfAny ρ (seeds cell elements) ≤ l) (hcell : ρ cell ≤ l)
    (htails : ρ cell * languageOfAny ρ (tails cell elements) ≤ l) :
    languageOfAny ρ elements ≤ l := by
  apply (languageOfAny_le_iff ρ).mpr
  intro p hp
  cases hstrip : p.stripLeading cell with
  | none =>
    have hseed : p ∈ seeds cell elements := List.mem_filter.mpr ⟨hp, by simp [hstrip]⟩
    exact (languageWith_le_languageOfAny ρ hseed).trans hseeds
  | some remainder =>
    rw [languageWith_of_stripLeading hstrip ρ]
    cases remainder with
    | none => exact (mul_one (ρ cell)).le.trans hcell
    | some tail =>
      have htail : tail ∈ tails cell elements :=
        List.mem_filterMap.mpr ⟨p, hp, by simp [hstrip]⟩
      exact (mul_le_mul_right (languageWith_le_languageOfAny ρ htail) _).trans htails

theorem languageWith_of_isReferenceTo {p : Pattern} (h : p.isReferenceTo cell = true) :
    p.languageWith ρ = ρ cell := by
  obtain ⟨tag, rfl⟩ := (isReferenceTo_iff_exists cell p).mp h
  rfl

theorem languageOfAny_le_of_withoutReference {l : Language Char}
    (hothers : languageOfAny ρ (withoutReference cell elements) ≤ l) (hcell : ρ cell ≤ l) :
    languageOfAny ρ elements ≤ l := by
  apply (languageOfAny_le_iff ρ).mpr
  intro p hp
  by_cases hbare : p.isReferenceTo cell = true
  · exact (languageWith_of_isReferenceTo hbare).le.trans hcell
  · have hother : p ∈ withoutReference cell elements :=
      List.mem_filter.mpr ⟨hp, by simp [hbare]⟩
    exact (languageWith_le_languageOfAny ρ hother).trans hothers

/-! ## Concatenations that a reference leads or ends -/

theorem languageOfAll_of_startsWith (h : startsWith cell elements = true) :
    languageOfAll ρ elements = ρ cell * languageOfAll ρ elements.tail := by
  cases elements with
  | nil => simp [startsWith] at h
  | cons first rest =>
    have hfirst : first.isReferenceTo cell = true := by simpa [startsWith] using h
    rw [languageOfAll, languageWith_of_isReferenceTo hfirst]
    rfl

theorem languageOfAll_of_endsWith (h : endsWith cell elements = true) :
    languageOfAll ρ elements = languageOfAll ρ elements.dropLast * ρ cell := by
  unfold endsWith at h
  cases hlast : elements.getLast? with
  | none => simp [hlast] at h
  | some last =>
    have href : last.isReferenceTo cell = true := by simpa [hlast] using h
    have hsplit : elements.dropLast ++ [last] = elements :=
      List.dropLast_append_getLast? last hlast
    conv_lhs => rw [← hsplit, languageOfAll_append]
    rw [languageOfAll, languageWith_of_isReferenceTo href, languageOfAll, mul_one]

/-! ## Shapes -/

theorem startsWith_of_left {tag : Tag} (heap : Heap)
    (h : heap.shape cell (.concatenation tag elements) = .left) :
    startsWith cell elements = true := by
  unfold Heap.shape concatenationShape at h
  grind

theorem endsWith_of_right {tag : Tag} (heap : Heap)
    (h : heap.shape cell (.concatenation tag elements) = .right) :
    endsWith cell elements = true := by
  unfold Heap.shape concatenationShape at h
  grind

theorem languageWith_eliminate (shape : RecursionShape) (body : Pattern) :
    (body.eliminate cell shape).languageWith ρ =
      ((eliminated? cell shape body).getD body).languageWith ρ := by
  unfold eliminate
  cases eliminated? cell shape body <;> simp

/-- Languages in which the cell has what its eliminated body matches contain the body itself. -/
theorem languageWith_le_of_eliminate (heap : Heap) (body : Pattern)
    (solved : ρ cell = (body.eliminate cell (heap.shape cell body)).languageWith ρ) :
    body.languageWith ρ ≤ ρ cell := by
  rw [languageWith_eliminate] at solved
  generalize hshape : heap.shape cell body = shape at solved
  revert solved
  fun_cases eliminated? cell shape body with
  | case1 tag elements =>
    -- A repetition of the other alternatives holds each of them once.
    intro solved
    have hcell : ρ cell = languageOfAny ρ (withoutReference cell elements) *
        (languageOfAny ρ (withoutReference cell elements))∗ :=
      solved.trans (languageWith_oneOrMore ρ _)
    apply languageOfAny_le_of_withoutReference
    · rw [hcell]
      exact le_mul_of_one_le_right' one_le_kstar
    · exact le_refl _
  | case2 tag elements =>
    intro solved
    have hcell : ρ cell =
        languageOfAny ρ (seeds cell elements) * (languageOfAny ρ (tails cell elements))∗ := by
      simpa [languageOfAll, languageWith_choice] using solved
    apply languageOfAny_le_of_split
    · rw [hcell]
      exact le_mul_of_one_le_right' one_le_kstar
    · exact le_refl _
    · rw [hcell, mul_assoc]
      exact mul_le_mul_right kstar_mul_le_kstar _
  | case3 tag elements =>
    intro solved
    have hstart := startsWith_of_left heap hshape
    cases hrest : sequence? elements.tail with
    | none =>
      rw [hrest] at solved
      exact solved.ge
    | some rest =>
      have hcell : ρ cell = (languageOfAll ρ elements.tail)∗ := by
        rw [← languageWith_of_sequence? hrest ρ, ← languageWith_any]
        simpa [hrest] using solved
      rw [languageWith, languageOfAll_of_startsWith hstart, hcell]
      exact kstar_mul_le_kstar
  | case4 tag elements =>
    intro solved
    have hend := endsWith_of_right heap hshape
    cases hrest : sequence? elements.dropLast with
    | none =>
      rw [hrest] at solved
      exact solved.ge
    | some rest =>
      have hcell : ρ cell =
          languageOfAll ρ elements.dropLast * (languageOfAll ρ elements.dropLast)∗ := by
        rw [← languageWith_of_sequence? hrest ρ, ← languageWith_oneOrMore]
        simpa [hrest] using solved
      rw [languageWith, languageOfAll_of_endsWith hend, hcell]
      exact mul_le_mul_right mul_kstar_le_kstar _
  | case5 =>
    intro solved
    exact solved.ge

/-- Where the body solves its own equation, so does its eliminated form, unless its shape widens. -/
theorem languageWith_eliminate_le (heap : Heap) (body : Pattern)
    (narrow : ¬ (heap.shape cell body).Widens body.kind)
    (solved : ρ cell = body.languageWith ρ) :
    (body.eliminate cell (heap.shape cell body)).languageWith ρ ≤ ρ cell := by
  rw [languageWith_eliminate]
  generalize heap.shape cell body = shape at narrow
  revert narrow solved
  fun_cases eliminated? cell shape body with
  | case1 | case3 | case4 =>
    intro _ narrow
    exact absurd trivial narrow
  | case2 tag elements =>
    intro solved _
    have hcell : ρ cell = languageOfAny ρ elements := solved
    have hgoal : languageOfAny ρ (seeds cell elements) *
        (languageOfAny ρ (tails cell elements))∗ ≤ ρ cell := by
      apply mul_kstar_le
      · exact languageOfAny_seeds_le.trans hcell.ge
      · exact mul_languageOfAny_tails_le.trans hcell.ge
    simpa [languageOfAll, languageWith_choice] using hgoal
  | case5 =>
    intro solved _
    exact solved.ge

end Pattern

namespace Heap

/-! ## Resolving -/

namespace Resolved
variable {heap later : Heap} {cell : Nat} {body grammar result : Pattern}

theorem languageWith_grammar (h : heap.Resolved cell body grammar result later)
    (ρ : Nat → Language Char) :
    grammar.languageWith ρ = (body.eliminate cell (heap.shape cell body)).languageWith ρ := by
  rcases h.form with ⟨habsent, rfl⟩ | rfl
  · rw [habsent]
    rfl
  · exact Pattern.languageWith_enter ρ heap _

theorem language_le (h : heap.Resolved cell body grammar result later) (p : Pattern) :
    (heap.bind cell body).language p ≤ later.language p := by
  apply language_le_of_rebound (c := cell)
  · intro d hd
    rw [grammar_bind_ne hd.symm, h.grammar_ne hd]
  · intro q hq
    have hcell : cell < heap.cells.size := by simpa using lt_size_of_grammar hq
    rw [grammar_bind_self hcell, Option.some.injEq] at hq
    subst q
    apply Pattern.languageWith_le_of_eliminate heap body
    rw [← h.languageWith_grammar]
    exact cellLanguage_of_bound (h.grammar_self hcell)

theorem language_eq (h : heap.Resolved cell body grammar result later)
    (narrow : ¬ (heap.shape cell body).Widens body.kind) (p : Pattern) :
    (heap.bind cell body).language p = later.language p := by
  apply le_antisymm (h.language_le p)
  apply language_le_of_rebound (c := cell)
  · intro d hd
    rw [grammar_bind_ne hd.symm, h.grammar_ne hd]
  · intro q hq
    have hcell : cell < heap.cells.size := by simpa [h.size_eq] using lt_size_of_grammar hq
    rw [h.grammar_self hcell, Option.some.injEq] at hq
    subst q
    unfold language
    rw [h.languageWith_grammar]
    apply Pattern.languageWith_eliminate_le heap body narrow
    exact cellLanguage_of_bound (grammar_bind_self hcell body)

/-- What is returned for a cell stands for that cell in every heap that has it bound alike. -/
theorem language_result (h : heap.Resolved cell body grammar result later) {final : Heap}
    (hfinal : final.grammar cell = some grammar) :
    final.language result = final.cellLanguage cell := by
  rcases h.result with ⟨_, hreference⟩ | ⟨_, rfl⟩
  · exact Pattern.languageWith_of_isReferenceTo hreference
  · exact (cellLanguage_of_bound hfinal).symm

end Resolved

/-- Compared with binding the cell to its body as it is, resolving loses no word of any pattern,
and it changes no language unless the shape of the body widens. -/
theorem language_resolve {heap later : Heap} {body result : Pattern} {placeholder : Placeholder}
    {requireRecursion : Bool}
    (h : heap.resolve body placeholder requireRecursion = .ok (result, later)) :
    (∀ p, (heap.bind placeholder.cell body).language p ≤ later.language p) ∧
    (¬ (heap.shape placeholder.cell body).Widens body.kind →
      ∀ p, (heap.bind placeholder.cell body).language p = later.language p) ∧
    (placeholder.cell < heap.cells.size →
      later.language result = later.cellLanguage placeholder.cell) := by
  obtain ⟨grammar, hresolved⟩ := exists_resolved h
  refine ⟨hresolved.language_le, hresolved.language_eq, ?_⟩
  intro hcell
  exact hresolved.language_result (hresolved.grammar_self hcell)

end Heap

/-- Sums of negated terms: one alternative is led by the cell and mentions it again in its tail,
and a seed mentions it too, so the rewritten rule is still recursive. -/
def Pattern.sums : Pattern :=
  .anyOf [.inOrder [.reference 0, .ofText "+", .reference 0],
    .inOrder [.ofText "-", .reference 0], .ofText "n"]

theorem Heap.language_resolve_sums :
    ∃ result later, ({ cells := #[{}] } : Heap).resolve .sums ⟨0⟩ true = .ok (result, later) ∧
      ¬ (({ cells := #[{}] } : Heap).shape 0 .sums).Widens Pattern.sums.kind ∧
      ∀ p, (({ cells := #[{}] } : Heap).bind 0 .sums).language p = later.language p := by
  have hnarrow : ¬ (({ cells := #[{}] } : Heap).shape 0 .sums).Widens Pattern.sums.kind := by
    decide
  obtain ⟨result, later, h⟩ : ∃ result later,
      ({ cells := #[{}] } : Heap).resolve .sums ⟨0⟩ true = .ok (result, later) := ⟨_, _, rfl⟩
  exact ⟨result, later, h, hnarrow, (language_resolve h).2.1 hnarrow⟩

end PatternGraph
