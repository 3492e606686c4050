import PatternGraph.Proofs.LeadingGraph
import PatternGraph.Proofs.SettledRules

/-!
# What eliminating left recursion removes

An alternation is rewritten by taking references to its own cell off the front of its alternatives,
also from inside nested first parts of concatenations, but not from behind anything else. So the
rewritten body can start with the cell exactly when an alternative that was left alone could, be it
through an alternation, a latch, a repetition or another cell. What remains in front or in the tails
decides whether the cell stays a recursion or becomes the rewritten body, which no longer leads to
it. Bodies of other shapes are not treated here.
-/

namespace PatternGraph
set_option autoImplicit false

namespace Pattern
variable {cell other : Nat} {tag : Tag} {elements : List Pattern} {p : Pattern}

/-- A reference to the cell, or a concatenation whose first part is led by the cell. -/
inductive LedBy (cell : Nat) : Pattern → Prop where
  | reference (tag : Tag) : LedBy cell (.recursion tag cell)
  | concatenation {tag : Tag} {first : Pattern} {rest : List Pattern} (led : LedBy cell first) :
      LedBy cell (.concatenation tag (first :: rest))

theorem isSome_stripLeading_iff : (p.stripLeading cell).isSome = true ↔ p.LedBy cell := by
  constructor
  · intro h
    fun_induction stripLeading cell p with
    | case1 tag => exact .reference tag
    | case2 | case3 | case6 => exact absurd h (by decide)
    | case4 tag first rest hfirst ih | case5 tag first rest head hfirst ih =>
      exact .concatenation (ih (by rw [hfirst]; rfl))
  · intro h
    induction h with
    | reference tag => simp
    | @concatenation tag first rest _ ih =>
      obtain ⟨remainder, hremainder⟩ := Option.isSome_iff_exists.mp ih
      cases remainder <;> simp [stripLeading, hremainder]

/-- The alternatives that are left alone. -/
theorem mem_seeds_iff : p ∈ seeds cell elements ↔ p ∈ elements ∧ ¬ p.LedBy cell := by
  rw [seeds, List.mem_filter, ← isSome_stripLeading_iff]
  cases p.stripLeading cell <;> simp

theorem eliminate_left_alternation (cell : Nat) (tag : Tag) (elements : List Pattern) :
    (Pattern.alternation tag elements).eliminate cell .left =
      (Pattern.alternation tag elements).namedLike
        (inOrder [choice (seeds cell elements), (choice (tails cell elements)).any]) := rfl

theorem mentions_eliminate_left :
    ((Pattern.alternation tag elements).eliminate cell .left).Mentions other ↔
      (∃ p ∈ seeds cell elements, p.Mentions other) ∨
        ∃ tail ∈ tails cell elements, tail.Mentions other := by
  rw [eliminate_left_alternation, mentions_namedLike]
  simp [inOrder]

theorem opens_eliminate_left :
    ((Pattern.alternation tag elements).eliminate cell .left).Opens other ↔
      ∃ p ∈ seeds cell elements, p.Opens other := by
  rw [eliminate_left_alternation, opens_namedLike]
  simp [inOrder, opens_choice]

end Pattern

namespace Heap
variable {heap later : Heap} {cell : Nat} {tag : Tag} {elements : List Pattern} {p : Pattern}

theorem reaches_eliminate_left (tag : Tag) :
    heap.reaches .all ((Pattern.alternation tag elements).eliminate cell .left) (.cell cell) = true ↔
      (∃ p ∈ Pattern.seeds cell elements, heap.reaches .all p (.cell cell) = true) ∨
        ∃ tail ∈ Pattern.tails cell elements, heap.reaches .all tail (.cell cell) = true := by
  simp only [reaches_cell_iff, Pattern.mentions_eliminate_left]
  constructor
  · intro h
    obtain ⟨c, ⟨p, hp, hmentions⟩ | ⟨tail, htail, hmentions⟩, hpath⟩ := h
    · exact Or.inl ⟨p, hp, c, hmentions, hpath⟩
    · exact Or.inr ⟨tail, htail, c, hmentions, hpath⟩
  · intro h
    rcases h with ⟨p, hp, c, hmentions, hpath⟩ | ⟨tail, htail, c, hmentions, hpath⟩
    · exact ⟨c, Or.inl ⟨p, hp, hmentions⟩, hpath⟩
    · exact ⟨c, Or.inr ⟨tail, htail, hmentions⟩, hpath⟩

/-- What the tails start with makes no difference: they follow the alternatives that were kept. -/
theorem reaches_leading_eliminate_left (tag : Tag) :
    heap.reaches .leading ((Pattern.alternation tag elements).eliminate cell .left) (.cell cell) =
        true ↔
      ∃ p ∈ Pattern.seeds cell elements, heap.reaches .leading p (.cell cell) = true := by
  simp only [reaches_leading_iff, Pattern.opens_eliminate_left]
  constructor
  · intro h
    obtain ⟨c, ⟨p, hp, hopens⟩, hpath⟩ := h
    exact ⟨p, hp, c, hopens, hpath⟩
  · intro h
    obtain ⟨p, hp, c, hopens, hpath⟩ := h
    exact ⟨c, ⟨p, hp, hopens⟩, hpath⟩

namespace Resolved
variable {body grammar result : Pattern}

/-- What leads to the cell is not changed by resolving it. -/
theorem reaches_own_cell (h : heap.Resolved cell body grammar result later) (edges : Edges)
    (p : Pattern) : later.reaches edges p (.cell cell) = heap.reaches edges p (.cell cell) :=
  (reaches_of_elsewhere (fun _ hd => h.grammar_ne hd) p).symm

theorem isReferenceTo_result_iff (h : heap.Resolved cell body grammar result later) :
    result.isReferenceTo cell = true ↔ later.reaches .all grammar (.cell cell) = true := by
  rcases h.result with ⟨hreaches, hreference⟩ | ⟨hreaches, rfl⟩
  · exact iff_of_true hreference hreaches
  · simp [isReferenceTo_of_not_reaches hreaches, hreaches]

theorem grammar_of_left (h : heap.Resolved cell (.alternation tag elements) grammar result later)
    (left : heap.shape cell (.alternation tag elements) = .left) :
    grammar = (heap.enter ((Pattern.alternation tag elements).eliminate cell .left)).1 := by
  rcases h.form with ⟨habsent, _⟩ | hgrammar
  · rw [left] at habsent
    exact absurd habsent (by decide)
  · rwa [left] at hgrammar

theorem reaches_leading_of_left
    (h : heap.Resolved cell (.alternation tag elements) grammar result later)
    (left : heap.shape cell (.alternation tag elements) = .left) :
    later.reaches .leading grammar (.cell cell) = true ↔
      ∃ p ∈ Pattern.seeds cell elements, heap.reaches .leading p (.cell cell) = true := by
  rw [h.reaches_own_cell, h.grammar_of_left left,
    ← reaches_leading_eliminate_left tag]
  simp only [reaches_leading_iff, Pattern.opens_enter]

theorem reaches_of_left
    (h : heap.Resolved cell (.alternation tag elements) grammar result later)
    (left : heap.shape cell (.alternation tag elements) = .left) :
    later.reaches .all grammar (.cell cell) = true ↔
      (∃ p ∈ Pattern.seeds cell elements, later.reaches .all p (.cell cell) = true) ∨
        ∃ tail ∈ Pattern.tails cell elements, later.reaches .all tail (.cell cell) = true := by
  rw [h.grammar_of_left left, ← reaches_eliminate_left tag]
  simp only [reaches_cell_iff, Pattern.mentions_enter]

end Resolved

/-- After an alternation has been rewritten, its cell can start with itself exactly when an
alternative that the cell does not lead could before. The cell stays a recursion exactly when it is
still reached from one of those alternatives or from a tail; otherwise the rewritten body is
returned, and it does not reach the cell. -/
theorem resolve_of_left (placeholder : Placeholder) (tag : Tag) (elements : List Pattern)
    (requireRecursion : Bool) (live : placeholder.cell < heap.cells.size)
    (left : heap.shape placeholder.cell (.alternation tag elements) = .left) :
    ∃ result later grammar,
      heap.resolve (.alternation tag elements) placeholder requireRecursion =
        .ok (result, later) ∧
      later.grammar placeholder.cell = some grammar ∧
      grammar = (heap.enter ((Pattern.alternation tag elements).namedLike (.inOrder [
        .choice (Pattern.seeds placeholder.cell elements),
        (Pattern.choice (Pattern.tails placeholder.cell elements)).any]))).1 ∧
      (later.leftRecursesInto grammar placeholder.pattern = true ↔
        ∃ p ∈ elements, ¬ p.LedBy placeholder.cell ∧
          heap.leftRecursesInto p placeholder.pattern = true) ∧
      (result.identity = placeholder.pattern.identity ↔
        (∃ p ∈ elements, ¬ p.LedBy placeholder.cell ∧
          later.recursesInto p placeholder.pattern = true) ∨
        ∃ tail ∈ Pattern.tails placeholder.cell elements,
          later.recursesInto tail placeholder.pattern = true) ∧
      (result.identity ≠ placeholder.pattern.identity →
        result = grammar ∧ later.recursesInto result placeholder.pattern = false) := by
  have hresolve : ∃ result later,
      heap.resolve (.alternation tag elements) placeholder requireRecursion =
        .ok (result, later) := by
    simp only [resolve, left]
    exact ⟨_, _, rfl⟩
  obtain ⟨result, later, hresolve⟩ := hresolve
  obtain ⟨grammar, h⟩ := exists_resolved hresolve
  have hidentity : ∀ p : Pattern, p.identity = placeholder.pattern.identity ↔
      p.isReferenceTo placeholder.cell = true :=
    fun p => (Pattern.isReferenceTo_iff placeholder.cell p).symm
  refine ⟨result, later, grammar, hresolve, h.grammar_self live, h.grammar_of_left left,
    ?_, ?_, ?_⟩
  · refine (h.reaches_leading_of_left left).trans ?_
    simp only [Pattern.mem_seeds_iff, and_assoc]
    rfl
  · rw [hidentity, h.isReferenceTo_result_iff, h.reaches_of_left left]
    simp only [Pattern.mem_seeds_iff, and_assoc]
    rfl
  · intro hother
    rw [ne_eq, hidentity] at hother
    rcases h.result with ⟨_, hreference⟩ | ⟨hplain, rfl⟩
    · exact absurd hreference hother
    · exact ⟨rfl, hplain⟩

/-- What follows the reference in the first alternative does not matter here. The second alternative
can start with the reference as well, but through an alternation, so it is left alone. -/
def leadingInside : List Pattern :=
  [.inOrder [.reference 0, .ofText "x"],
    .inOrder [.anyOf [.reference 0, .ofText "y"], .ofText "z"], .ofText "n"]

theorem resolve_of_left_leadingInside :
    ({ cells := #[{}] } : Heap).shape 0 (.anyOf leadingInside) = .left ∧
      ∃ result later grammar,
        ({ cells := #[{}] } : Heap).resolve (.anyOf leadingInside) ⟨0⟩ true =
          .ok (result, later) ∧
        later.grammar 0 = some grammar ∧
        later.leftRecursesInto grammar (.reference 0) = true ∧
        result.identity = (Pattern.reference 0).identity := by
  have hleft : ({ cells := #[{}] } : Heap).shape 0 (.anyOf leadingInside) = .left := by decide
  obtain ⟨result, later, grammar, hresolve, hgrammar, -, hleading, hresult, -⟩ :=
    resolve_of_left ⟨0⟩ {} leadingInside true (by decide) hleft
  have hkept : ¬ (Pattern.inOrder [.anyOf [.reference 0, .ofText "y"], .ofText "z"]).LedBy 0 := by
    rw [← Pattern.isSome_stripLeading_iff]
    decide
  refine ⟨hleft, result, later, grammar, hresolve, hgrammar, hleading.mpr ?_, hresult.mpr (.inl ?_)⟩
  · exact ⟨_, by simp [leadingInside], hkept, by decide⟩
  · refine ⟨_, by simp [leadingInside], hkept, ?_⟩
    obtain rfl := (Prod.mk.inj (Except.ok.inj hresolve)).2
    decide

end Heap
end PatternGraph
