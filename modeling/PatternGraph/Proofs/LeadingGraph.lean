import PatternGraph.Proofs.KeptReachability

/-!
# The graph of leading references

A tree opens the cells that it can start with, and a bound cell opens what its grammar opens. The
paths of these edges decide what is reached without passing a concatenation other than at its first
part. Almost no rewriting adds or drops such an edge between two different cells. The exception is a
concatenation that starts with its own reference: once it is rewritten it starts with what followed
the reference. So the heap midway through a rule set has all leading paths of the bodies as defined,
and no more than there are when all those concatenations have been rewritten.
-/

namespace PatternGraph
set_option autoImplicit false

namespace Pattern

/-- The tree can start with the cell; no cell is looked into. -/
inductive Opens (cell : Nat) : Pattern → Prop where
  | recursion (tag : Tag) : Opens cell (.recursion tag cell)
  | alternation {tag : Tag} {elements : List Pattern} {p : Pattern} (member : p ∈ elements)
      (opened : Opens cell p) : Opens cell (.alternation tag elements)
  | concatenation {tag : Tag} {first : Pattern} {rest : List Pattern} (opened : Opens cell first) :
      Opens cell (.concatenation tag (first :: rest))
  | repetition {tag : Tag} {inner : Pattern} {min : Nat} {max : Option Nat}
      (opened : Opens cell inner) : Opens cell (.repetition tag inner min max)
  | latch {tag : Tag} {target : Pattern} (opened : Opens cell target) :
      Opens cell (.latch tag target)

section
variable {cell : Nat} {tag : Tag}

@[simp] theorem not_opens_literal (text : String) : ¬ Opens cell (.literal tag text) := nofun

@[simp] theorem not_opens_characterClass (cls : CharacterClass) :
    ¬ Opens cell (.characterClass tag cls) :=
  nofun

@[simp] theorem opens_alternation {elements : List Pattern} :
    Opens cell (.alternation tag elements) ↔ ∃ p ∈ elements, Opens cell p := by
  constructor
  · intro h
    cases h with
    | alternation member opened => exact ⟨_, member, opened⟩
  · intro h
    obtain ⟨p, hp, hopened⟩ := h
    exact .alternation hp hopened

@[simp] theorem opens_concatenation {elements : List Pattern} :
    Opens cell (.concatenation tag elements) ↔ ∃ p ∈ elements.head?, Opens cell p := by
  constructor
  · intro h
    cases h with
    | concatenation opened => exact ⟨_, rfl, opened⟩
  · intro h
    cases elements with
    | nil => simp at h
    | cons first rest => exact .concatenation (by simpa using h)

@[simp] theorem opens_repetition {inner : Pattern} {min : Nat} {max : Option Nat} :
    Opens cell (.repetition tag inner min max) ↔ Opens cell inner := by
  constructor
  · intro h
    cases h with
    | repetition opened => exact opened
  · exact .repetition

@[simp] theorem opens_latch {target : Pattern} :
    Opens cell (.latch tag target) ↔ Opens cell target := by
  constructor
  · intro h
    cases h with
    | latch opened => exact opened
  · exact .latch

@[simp] theorem opens_recursion {other : Nat} :
    Opens cell (.recursion tag other) ↔ other = cell := by
  constructor
  · intro h
    cases h with
    | recursion _ => rfl
  · rintro rfl
    exact .recursion tag

end

theorem opens_of_isReferenceTo {cell other : Nat} {p : Pattern}
    (h : p.isReferenceTo cell = true) : p.Opens other ↔ cell = other := by
  obtain ⟨tag, rfl⟩ := (isReferenceTo_iff_exists cell p).mp h
  exact opens_recursion

theorem opens_congr {cell : Nat} {p q : Pattern} (h : p.Alike Eq q) :
    p.Opens cell ↔ q.Opens cell := by
  refine Alike.induction (motive := fun p q => p.Opens cell ↔ q.Opens cell)
    ?literal ?characterClass ?alternation ?concatenation ?repetition ?latch ?recursion h
  case literal | characterClass =>
    intros
    simp
  case alternation =>
    intro _ _ ps qs hall
    rw [opens_alternation, opens_alternation]
    induction hall with
    | nil => simp
    | cons hp _ ih => simp only [List.exists_mem_cons_iff, hp, ih]
  case concatenation =>
    intro _ _ ps qs hall
    cases hall with
    | nil => simp
    | cons hp _ => simpa using hp
  case repetition =>
    intro _ _ p q min max hinner
    simpa using hinner
  case latch =>
    intro _ _ p q htarget
    simpa using htarget
  case recursion =>
    intro _ _ c d hcd
    simp [hcd]

@[simp] theorem opens_enter {cell : Nat} (heap : Heap) (p : Pattern) :
    (heap.enter p).1.Opens cell ↔ p.Opens cell :=
  opens_congr (alike_enter heap p)

@[simp] theorem opens_namedLike {cell : Nat} (model p : Pattern) :
    (model.namedLike p).Opens cell ↔ p.Opens cell := by
  unfold namedLike
  split
  · exact opens_congr (alike_withTag _ p)
  · rfl

end Pattern

namespace Heap
variable {heap later : Heap}

/-- The cell is bound to a tree that can start with the other one. -/
def OpensInto (heap : Heap) (c d : Nat) : Prop := ∃ p, heap.grammar c = some p ∧ p.Opens d

theorem Reaches.exists_opens {p q : Pattern} (h : heap.Reaches .leading p q) :
    ∀ tag cell, q = .recursion tag cell →
      ∃ c, p.Opens c ∧ Relation.ReflTransGen heap.OpensInto c cell := by
  induction h with
  | refl p =>
    rintro tag cell rfl
    exact ⟨cell, .recursion tag, .refl⟩
  | @step p next q hnext _ ih =>
    intro tag cell hq
    obtain ⟨c, hopens, hpath⟩ := ih tag cell hq
    cases p with
    | literal | characterClass => exact absurd hnext List.not_mem_nil
    | alternation tag elements => exact ⟨c, .alternation hnext hopens, hpath⟩
    | concatenation tag elements =>
      cases elements with
      | nil => exact absurd hnext List.not_mem_nil
      | cons first rest =>
        obtain rfl := List.mem_singleton.mp hnext
        exact ⟨c, .concatenation hopens, hpath⟩
    | repetition tag inner min max =>
      obtain rfl := List.mem_singleton.mp hnext
      exact ⟨c, .repetition hopens, hpath⟩
    | latch tag target =>
      obtain rfl := List.mem_singleton.mp hnext
      exact ⟨c, .latch hopens, hpath⟩
    | recursion tag d =>
      have hbound : heap.grammar d = some next := by simpa [successors] using hnext
      exact ⟨d, .recursion tag, hpath.head ⟨next, hbound, hopens⟩⟩

theorem Reaches.of_opens (heap : Heap) {p : Pattern} {cell : Nat} (h : p.Opens cell) :
    ∃ tag, heap.Reaches .leading p (.recursion tag cell) := by
  induction h with
  | recursion tag => exact ⟨tag, .refl _⟩
  | alternation member _ ih =>
    obtain ⟨tag, hpath⟩ := ih
    exact ⟨tag, .step member hpath⟩
  | concatenation _ ih | repetition _ ih | latch _ ih =>
    obtain ⟨tag, hpath⟩ := ih
    exact ⟨tag, .step (List.mem_singleton.mpr rfl) hpath⟩

theorem Reaches.of_opensInto {c d : Nat} (h : Relation.ReflTransGen heap.OpensInto c d)
    {p : Pattern} {tag : Tag} (hp : heap.Reaches .leading p (.recursion tag c)) :
    ∃ tag', heap.Reaches .leading p (.recursion tag' d) := by
  induction h with
  | refl => exact ⟨tag, hp⟩
  | tail _ hstep ih =>
    obtain ⟨between, hbetween⟩ := ih
    obtain ⟨q, hq, hopens⟩ := hstep
    obtain ⟨last, hlast⟩ := Reaches.of_opens heap hopens
    exact ⟨last, hbetween.trans (.step (by simp [successors, hq]) hlast)⟩

theorem reaches_leading_iff {p : Pattern} {cell : Nat} :
    heap.reaches .leading p (.cell cell) = true ↔
      ∃ c, p.Opens c ∧ Relation.ReflTransGen heap.OpensInto c cell := by
  rw [reaches_iff]
  constructor
  · intro h
    obtain ⟨q, hpq, hq⟩ := h
    rw [← Pattern.isReferenceTo_iff, Pattern.isReferenceTo_iff_exists] at hq
    obtain ⟨tag, hq⟩ := hq
    exact hpq.exists_opens tag cell hq
  · intro h
    obtain ⟨c, hopens, hpath⟩ := h
    obtain ⟨tag, hc⟩ := Reaches.of_opens heap hopens
    obtain ⟨last, hlast⟩ := Reaches.of_opensInto hpath hc
    exact ⟨_, hlast, rfl⟩

/-- Edges from a cell to itself do not matter for what is reached. -/
theorem reaches_leading_mono
    (edges : ∀ c d, c ≠ d → heap.OpensInto c d → later.OpensInto c d) {p : Pattern} {cell : Nat}
    (h : heap.reaches .leading p (.cell cell) = true) :
    later.reaches .leading p (.cell cell) = true := by
  rw [reaches_leading_iff] at h ⊢
  obtain ⟨c, hopens, hpath⟩ := h
  refine ⟨c, hopens, ?_⟩
  clear hopens
  induction hpath with
  | refl => exact .refl
  | @tail d e _ hstep ih =>
    by_cases hstay : d = e
    · exact hstay ▸ ih
    · exact ih.tail (edges d e hstay hstep)

end Heap

/-! ## Elimination -/

namespace Pattern
variable {cell other : Nat} {elements : List Pattern}

/-- The body after its turn if it is a concatenation that starts with its own reference and does
not end with one, and the body itself otherwise. -/
def leadEliminated (cell : Nat) : Pattern → Pattern
  | .concatenation tag elements =>
    if concatenationShape cell elements = .left then
      (Pattern.concatenation tag elements).eliminate cell .left
    else .concatenation tag elements
  | p => p

theorem opens_of_sequence? {p : Pattern} (h : sequence? elements = some p) :
    p.Opens other ↔ ∃ q ∈ elements.head?, q.Opens other := by
  match elements with
  | [] => exact absurd h nofun
  | [single] =>
    obtain rfl := Option.some.inj h
    simp
  | first :: second :: rest =>
    obtain rfl := Option.some.inj h
    simp [inOrder]

theorem opens_choice : (choice elements).Opens other ↔ ∃ p ∈ elements, p.Opens other := by
  unfold choice
  split
  · simp
  · simp [anyOf]

/-- What a reference to the cell leads cannot start with anything else. -/
theorem eq_of_opens_of_stripLeading {element : Pattern} {remainder : Option Pattern}
    (h : element.stripLeading cell = some remainder) (hopens : element.Opens other) :
    cell = other := by
  fun_induction stripLeading cell element generalizing remainder with
  | case1 tag => exact opens_recursion.mp hopens
  | case2 | case3 | case6 => exact absurd h.symm (Option.some_ne_none remainder)
  | case4 tag first rest hfirst ih => exact ih hfirst (by simpa using hopens)
  | case5 tag first rest head hfirst ih => exact ih hfirst (by simpa using hopens)

theorem exists_opens_filter {keep : Pattern → Bool}
    (kept : ∀ p ∈ elements, p.Opens other → keep p = true) :
    (∃ p ∈ elements.filter keep, p.Opens other) ↔ ∃ p ∈ elements, p.Opens other := by
  constructor
  · intro h
    obtain ⟨p, hp, hopens⟩ := h
    exact ⟨p, List.mem_of_mem_filter hp, hopens⟩
  · intro h
    obtain ⟨p, hp, hopens⟩ := h
    exact ⟨p, List.mem_filter.mpr ⟨hp, kept p hp hopens⟩, hopens⟩

theorem exists_opens_seeds (hne : other ≠ cell) :
    (∃ p ∈ seeds cell elements, p.Opens other) ↔ ∃ p ∈ elements, p.Opens other := by
  apply exists_opens_filter
  intro p _ hopens
  rw [Option.isNone_iff_eq_none]
  by_contra hstrip
  obtain ⟨remainder, hremainder⟩ := Option.ne_none_iff_exists'.mp hstrip
  exact hne (eq_of_opens_of_stripLeading hremainder hopens).symm

theorem exists_opens_withoutReference (hne : other ≠ cell) :
    (∃ p ∈ withoutReference cell elements, p.Opens other) ↔ ∃ p ∈ elements, p.Opens other := by
  apply exists_opens_filter
  intro p _ hopens
  rw [Bool.not_eq_true']
  apply Bool.eq_false_iff.mpr
  intro hreference
  exact hne ((opens_of_isReferenceTo hreference).mp hopens).symm

/-- Whatever its shape, a body that is no concatenation led by its own reference can start with
the same other cells before and after its turn. -/
theorem opens_eliminate {shape : RecursionShape} {body : Pattern} (hne : other ≠ cell)
    (kept : ∀ tag elements, body = .concatenation tag elements → shape ≠ .left) :
    (body.eliminate cell shape).Opens other ↔ body.Opens other := by
  unfold eliminate
  fun_cases eliminated? cell shape body with
  | case1 tag elements =>
    simp only [opens_namedLike, oneOrMore, atLeast, repeated, anyOf, opens_repetition,
      opens_alternation]
    exact exists_opens_withoutReference hne
  | case2 tag elements =>
    simp only [opens_namedLike, inOrder, opens_concatenation, opens_alternation]
    simpa [opens_choice] using exists_opens_seeds hne
  | case3 tag elements => exact absurd rfl (kept tag elements rfl)
  | case4 tag elements =>
    cases hrest : sequence? elements.dropLast with
    | none => simp
    | some rest =>
      simp only [Option.map_some, opens_namedLike, oneOrMore, atLeast, repeated, opens_repetition,
        opens_concatenation, opens_of_sequence? hrest]
      cases elements with
      | nil => exact absurd hrest.symm (Option.some_ne_none rest)
      | cons first more =>
        cases more with
        | nil => exact absurd hrest.symm (Option.some_ne_none rest)
        | cons _ _ => rfl
  | case5 => rfl

theorem not_opens_of_startsWith {tag : Tag} (hne : other ≠ cell)
    (h : startsWith cell elements = true) : ¬ (Pattern.concatenation tag elements).Opens other := by
  cases elements with
  | nil => simp
  | cons first rest =>
    have hfirst : first.isReferenceTo cell = true := by simpa [startsWith] using h
    simpa [opens_of_isReferenceTo hfirst] using hne.symm

theorem startsWith_of_concatenationShape (h : concatenationShape cell elements = .left) :
    startsWith cell elements = true := by
  unfold concatenationShape at h
  grind

theorem concatenationShape_of_left {tag : Tag} (heap : Heap)
    (h : heap.shape cell (.concatenation tag elements) = .left) :
    concatenationShape cell elements = .left := by
  unfold Heap.shape at h
  grind

theorem opens_leadEliminated {body : Pattern} (hne : other ≠ cell) (h : body.Opens other) :
    (body.leadEliminated cell).Opens other := by
  unfold leadEliminated
  split
  · split
    · rename_i hleft
      exact absurd h (not_opens_of_startsWith hne (startsWith_of_concatenationShape hleft))
    · exact h
  · exact h

/-- At its turn a body keeps what it can start with, its own cell aside. -/
theorem opens_eliminate_of_opens (heap : Heap) {body : Pattern} (hne : other ≠ cell)
    (h : body.Opens other) : (body.eliminate cell (heap.shape cell body)).Opens other := by
  by_cases hkept : ∀ tag elements, body = .concatenation tag elements → heap.shape cell body ≠ .left
  · exact (opens_eliminate hne hkept).mpr h
  · push Not at hkept
    obtain ⟨tag, elements, rfl, hleft⟩ := hkept
    exact absurd h (not_opens_of_startsWith hne (startsWith_of_left heap hleft))

/-- What it can start with afterwards is known without the shape that it was found to have. -/
theorem opens_leadEliminated_of_eliminate (heap : Heap) {body : Pattern} (hne : other ≠ cell)
    (h : (body.eliminate cell (heap.shape cell body)).Opens other) :
    (body.leadEliminated cell).Opens other := by
  by_cases hkept : ∀ tag elements, body = .concatenation tag elements → heap.shape cell body ≠ .left
  · exact opens_leadEliminated hne ((opens_eliminate hne hkept).mp h)
  · push Not at hkept
    obtain ⟨tag, elements, rfl, hleft⟩ := hkept
    rw [hleft] at h
    rwa [leadEliminated, if_pos (concatenationShape_of_left heap hleft)]

end Pattern

/-! ## Midway through a rule set -/

namespace Heap
variable {raw loose midway later : Heap}

/-- A heap that rewriting has led to from one with all bodies as defined, where `loose` has every
concatenation that starts with its own reference rewritten. -/
structure Between (raw loose midway : Heap) : Prop where
  kept : ∀ c d, c ≠ d → raw.OpensInto c d → midway.OpensInto c d
  opened : ∀ c d, c ≠ d → midway.OpensInto c d → loose.OpensInto c d
  reached : ∀ p c, midway.reaches .all p (.cell c) = raw.reaches .all p (.cell c)

theorem Between.enter (h : Between raw loose midway) (p : Pattern) :
    Between raw loose (midway.enter p).2 where
  kept := h.kept
  opened := h.opened
  reached := fun q c => (reaches_congr (fun d => (grammar_enter midway p d).symm) q c).trans
    (h.reached q c)

theorem opensInto_of_ne {c : Nat} (same : later.grammar c = midway.grammar c) (d : Nat) :
    later.OpensInto c d ↔ midway.OpensInto c d := by
  simp only [OpensInto, same]

namespace Resolved
variable {cell : Nat} {body grammar result : Pattern}

theorem opens_grammar (h : midway.Resolved cell body grammar result later) {other : Nat}
    (hne : other ≠ cell) (hopens : body.Opens other) : grammar.Opens other := by
  rcases h.form with ⟨_, rfl⟩ | rfl
  · exact hopens
  · rw [Pattern.opens_enter]
    exact Pattern.opens_eliminate_of_opens midway hne hopens

theorem opens_of_grammar (h : midway.Resolved cell body grammar result later) {other : Nat}
    (hne : other ≠ cell) (hopens : grammar.Opens other) :
    (body.leadEliminated cell).Opens other := by
  rcases h.form with ⟨_, rfl⟩ | rfl
  · exact Pattern.opens_leadEliminated hne hopens
  · rw [Pattern.opens_enter] at hopens
    exact Pattern.opens_leadEliminated_of_eliminate midway hne hopens

/-- Resolving one more rule stays between the two heaps. -/
theorem between (h : midway.Resolved cell body grammar result later)
    (hbetween : Between raw loose midway) (hbound : midway.grammar cell = some body)
    (hloose : loose.grammar cell = some (body.leadEliminated cell)) : Between raw loose later := by
  have hself := h.grammar_self (lt_size_of_grammar hbound)
  refine ⟨?_, ?_, fun p c => (h.reaches_eq hbound p c).trans (hbetween.reached p c)⟩
  · intro c d hne hopens
    have hmidway := hbetween.kept c d hne hopens
    by_cases hc : c = cell
    · subst c
      obtain ⟨p, hp, hpd⟩ := hmidway
      rw [hbound, Option.some.injEq] at hp
      subst p
      exact ⟨grammar, hself, h.opens_grammar hne.symm hpd⟩
    · rwa [opensInto_of_ne (h.grammar_ne hc)]
  · intro c d hne hopens
    by_cases hc : c = cell
    · subst c
      obtain ⟨p, hp, hpd⟩ := hopens
      rw [hself, Option.some.injEq] at hp
      subst p
      exact ⟨_, hloose, h.opens_of_grammar hne.symm hpd⟩
    · rw [opensInto_of_ne (h.grammar_ne hc)] at hopens
      exact hbetween.opened c d hne hopens

end Resolved
end Heap
end PatternGraph
