import PatternGraph.Compilation
import PatternGraph.FixedWidth
import PatternGraph.Proofs.UnrolledWalk

/-!
# Regular expressions and widths of unfoldings

Compiling and measuring are strict walks: the first obstacle from left to right ends the one, and
anything without a width the other. So both are functions of the unfolding, errors included, and
it does not matter how a cyclic graph is folded up. A reference to a bound cell, a latch and a
renamed copy are compiled and measured like what they stand for.
-/

namespace PatternGraph
set_option autoImplicit false

/-! ## Compiling -/

namespace Pattern
variable {atCell atCell' : Nat → Except CompileError Fragment}

theorem fragments_congr {ps qs : List Pattern}
    (h : List.Forall₂ (fun p q => p.fragmentWith atCell = q.fragmentWith atCell') ps qs) :
    fragments atCell ps = fragments atCell' qs := by
  induction h with
  | nil => rfl
  | cons hp _ ih => rw [fragments, fragments, hp, ih]

theorem fragmentWith_alike {p q : Pattern}
    (h : p.Alike (fun c d => atCell c = atCell' d) q) :
    p.fragmentWith atCell = q.fragmentWith atCell' := by
  refine Alike.induction (motive := fun p q => p.fragmentWith atCell = q.fragmentWith atCell')
    ?literal ?characterClass ?alternation ?concatenation ?repetition ?latch ?recursion h
  case literal | characterClass =>
    intros
    rfl
  case alternation | concatenation =>
    intro tag tag' ps qs hall
    simp only [fragmentWith, fragments_congr hall]
  case repetition =>
    intro tag tag' p q min max hinner
    simp only [fragmentWith, hinner]
  case latch =>
    intro tag tag' p q htarget
    simpa only [fragmentWith] using htarget
  case recursion => exact fun _ _ _ _ hcd => hcd

/-- What follows a step that fails is not carried out. -/
theorem bind_below {α γ : Type} {error : CompileError} {x y : Except CompileError α}
    {f g : α → Except CompileError γ} (hxy : x = .error error ∨ x = y)
    (hfg : ∀ a, f a = .error error ∨ f a = g a) :
    (x >>= f) = .error error ∨ (x >>= f) = (y >>= g) := by
  rcases hxy with rfl | rfl
  · exact Or.inl rfl
  · cases x with
    | error _ => exact Or.inr rfl
    | ok a => exact hfg a

theorem fragments_below {ps : List Pattern} (each : ∀ p ∈ ps,
      fragmentWalk.Below (p.fragmentWith atCell) (p.fragmentWith atCell')) :
    fragments atCell ps = .error .notRegular ∨ fragments atCell ps = fragments atCell' ps := by
  induction ps with
  | nil => exact Or.inr rfl
  | cons p rest ih =>
    obtain ⟨hp, hrest⟩ := List.forall_mem_cons.mp each
    exact bind_below hp fun part => bind_below (ih hrest) fun parts => Or.inr rfl

theorem fragmentWith_below (h : ∀ c, fragmentWalk.Below (atCell c) (atCell' c)) (p : Pattern) :
    fragmentWalk.Below (p.fragmentWith atCell) (p.fragmentWith atCell') := by
  induction p with
  | literal tag text => exact .refl _
  | characterClass tag cls => exact .refl _
  | alternation tag elements ih => exact bind_below (fragments_below ih) fun parts => Or.inr rfl
  | concatenation tag elements ih => exact bind_below (fragments_below ih) fun parts => Or.inr rfl
  | repetition tag inner min max ih =>
    exact bind_below (Or.inr rfl) fun quantifier => bind_below ih fun part => Or.inr rfl
  | latch tag target ih => exact ih
  | recursion tag cell => exact h cell

end Pattern

theorem fragmentWalk_strict : fragmentWalk.Strict where
  alike _ _ _ _ h := Pattern.fragmentWith_alike h
  below _ _ p h := Pattern.fragmentWith_below h p

/-! ## Measuring -/

namespace Pattern
variable {atCell atCell' : Nat → Option Nat}

theorem allOfWidth_congr {ps qs : List Pattern} (width : Nat)
    (h : List.Forall₂ (fun p q => p.widthWith atCell = q.widthWith atCell') ps qs) :
    allOfWidth atCell width ps = allOfWidth atCell' width qs := by
  induction h with
  | nil => rfl
  | cons hp _ ih => rw [allOfWidth, allOfWidth, hp, ih]

theorem totalWidth_congr {ps qs : List Pattern} (total : Nat)
    (h : List.Forall₂ (fun p q => p.widthWith atCell = q.widthWith atCell') ps qs) :
    totalWidth atCell total ps = totalWidth atCell' total qs := by
  induction h generalizing total with
  | nil => rfl
  | cons hp _ ih => simp only [totalWidth, hp, ih]

theorem widthWith_alike {p q : Pattern} (h : p.Alike (fun c d => atCell c = atCell' d) q) :
    p.widthWith atCell = q.widthWith atCell' := by
  refine Alike.induction (motive := fun p q => p.widthWith atCell = q.widthWith atCell')
    ?literal ?characterClass ?alternation ?concatenation ?repetition ?latch ?recursion h
  case literal | characterClass =>
    intros
    simp only [widthWith]
  case alternation =>
    intro tag tag' ps qs hall
    cases hall with
    | nil => rfl
    | cons hfirst hrest => simp only [widthWith, hfirst, allOfWidth_congr _ hrest]
  case concatenation => exact fun _ _ _ _ hall => totalWidth_congr 0 hall
  case repetition =>
    intro tag tag' p q min max hinner
    simp only [widthWith, hinner]
  case latch =>
    intro tag tag' p q htarget
    simpa only [widthWith] using htarget
  case recursion => exact fun _ _ _ _ hcd => hcd

/-- What has no width leaves the whole without one. -/
theorem width_bind_below {x y : Option Nat} {f g : Nat → Option Nat} (hxy : x = none ∨ x = y)
    (hfg : ∀ n, f n = none ∨ f n = g n) : (x >>= f) = none ∨ (x >>= f) = (y >>= g) := by
  rcases hxy with rfl | rfl
  · exact Or.inl rfl
  · cases x with
    | none => exact Or.inl rfl
    | some n => exact hfg n

theorem allOfWidth_below {ps : List Pattern} (width : Nat)
    (each : ∀ p ∈ ps, widthWalk.Below (p.widthWith atCell) (p.widthWith atCell')) :
    allOfWidth atCell width ps = false ∨
      allOfWidth atCell width ps = allOfWidth atCell' width ps := by
  induction ps with
  | nil => exact Or.inr rfl
  | cons p rest ih =>
    obtain ⟨hp, hrest⟩ := List.forall_mem_cons.mp each
    simp only [allOfWidth]
    rcases hp with hnone | hsame
    · rw [hnone]
      exact Or.inl rfl
    · rw [hsame]
      rcases ih hrest with hfalse | hrest
      · rw [hfalse, Bool.and_false]
        exact Or.inl rfl
      · rw [hrest]
        exact Or.inr rfl

theorem totalWidth_below {ps : List Pattern} (total : Nat)
    (each : ∀ p ∈ ps, widthWalk.Below (p.widthWith atCell) (p.widthWith atCell')) :
    totalWidth atCell total ps = none ∨ totalWidth atCell total ps = totalWidth atCell' total ps := by
  induction ps generalizing total with
  | nil => exact Or.inr rfl
  | cons p rest ih =>
    obtain ⟨hp, hrest⟩ := List.forall_mem_cons.mp each
    simp only [totalWidth]
    apply width_bind_below hp
    intro width
    exact width_bind_below (Or.inr rfl) fun sum => ih sum hrest

theorem widthWith_below (h : ∀ c, widthWalk.Below (atCell c) (atCell' c)) (p : Pattern) :
    widthWalk.Below (p.widthWith atCell) (p.widthWith atCell') := by
  induction p with
  | literal tag text => exact .refl _
  | characterClass tag cls => exact .refl _
  | alternation tag elements ih =>
    cases elements with
    | nil => exact .refl _
    | cons first rest =>
      obtain ⟨hfirst, hrest⟩ := List.forall_mem_cons.mp ih
      apply width_bind_below hfirst
      intro width
      rcases allOfWidth_below width hrest with hfalse | hsame
      · rw [hfalse]
        exact Or.inl rfl
      · rw [hsame]
        exact Or.inr rfl
  | concatenation tag elements ih => exact totalWidth_below 0 ih
  | repetition tag inner min max ih =>
    simp only [widthWith]
    split
    · exact width_bind_below ih fun width => Or.inr rfl
    · exact .refl _
  | latch tag target ih => exact ih
  | recursion tag cell => exact h cell

end Pattern

theorem widthWalk_strict : widthWalk.Strict where
  alike _ _ _ _ h := Pattern.widthWith_alike h
  below _ _ p h := Pattern.widthWith_below h p

/-! ## Patterns that stand for one another -/

namespace Heap
variable {heap : Heap}

/-- Compiled alike, with the same text or the same error, and measured alike. -/
def SameOutcome (heap : Heap) (p q : Pattern) : Prop :=
  heap.regexSource p = heap.regexSource q ∧ heap.width p = heap.width q

theorem sameOutcome_of_fragment_eq {p q : Pattern} (hfragment : heap.fragment p = heap.fragment q)
    (hwidth : heap.width p = heap.width q) : heap.SameOutcome p q := by
  refine ⟨?_, hwidth⟩
  simp only [regexSource, regex, hfragment]

theorem SameOutcome.trans {p q r : Pattern} (h : heap.SameOutcome p q) (k : heap.SameOutcome q r) :
    heap.SameOutcome p r :=
  ⟨h.1.trans k.1, h.2.trans k.2⟩

theorem SameOutcome.symm {p q : Pattern} (h : heap.SameOutcome p q) : heap.SameOutcome q p :=
  ⟨h.1.symm, h.2.symm⟩

theorem SameOutcome.of_equal {p q : Pattern} (h : heap.equal p q = true) :
    heap.SameOutcome p q := by
  have hpq := equal_iff_bisimilar.mp h
  exact sameOutcome_of_fragment_eq (fragmentWalk_strict.run_eq_of_bisimilar hpq)
    (widthWalk_strict.run_eq_of_bisimilar hpq)

theorem sameOutcome_recursion {tag : Tag} {cell : Nat} {p : Pattern}
    (h : heap.grammar cell = some p) : heap.SameOutcome (.recursion tag cell) p :=
  sameOutcome_of_fragment_eq (fragmentWalk_strict.atCell_eq_run h)
    (widthWalk_strict.atCell_eq_run h)

theorem SameOutcome.of_alike {p q : Pattern} (h : p.Alike Eq q) : heap.SameOutcome p q :=
  sameOutcome_of_fragment_eq (Pattern.fragmentWith_alike (h.mono fun _ _ hcd => hcd ▸ rfl))
    (Pattern.widthWith_alike (h.mono fun _ _ hcd => hcd ▸ rfl))

/-- Equal patterns are compiled and measured alike, however their graphs are folded up and
whatever obstacles they hold; and so are a bound recursion and what its cell is bound to, a latch
and its target, and a renamed copy and the original. -/
theorem sameOutcome_of_unfolding (heap : Heap) :
    (∀ p q, heap.equal p q = true →
      heap.regexSource p = heap.regexSource q ∧ heap.width p = heap.width q) ∧
    (∀ tag cell p, heap.grammar cell = some p →
      heap.regexSource (.recursion tag cell) = heap.regexSource p ∧
      heap.width (.recursion tag cell) = heap.width p) ∧
    (∀ tag p, heap.regexSource (.latch tag p) = heap.regexSource p ∧
      heap.width (.latch tag p) = heap.width p) ∧
    ∀ name p, heap.regexSource (p.named name) = heap.regexSource p ∧
      heap.width (p.named name) = heap.width p := by
  refine ⟨?_, ?_, ?_, ?_⟩
  · intro p q hpq
    exact SameOutcome.of_equal hpq
  · intro tag cell p hbound
    exact sameOutcome_recursion hbound
  · intro tag p
    exact ⟨rfl, rfl⟩
  · intro name p
    exact SameOutcome.of_alike (Pattern.alike_withTag _ p)

/-- Endless repetitions of one letter, folded up in one cell and in two, and an unbound cell. -/
def foldedTwice : Heap where
  cells := #[{ grammar := some (.inOrder [.ofText "a", .reference 0]) },
    { grammar := some (.inOrder [.ofText "a", .reference 2]) },
    { grammar := some (.inOrder [.ofText "a", .reference 1]) }, {}]

theorem sameOutcome_of_unfolding_periods :
    let p := Pattern.anyOf [.reference 0, (Pattern.reference 3).between 2 1]
    let q := Pattern.anyOf [.reference 1, (Pattern.reference 3).between 2 1]
    let folded := Pattern.inOrder [.ofText "a", .reference 2]
    (foldedTwice.equal p q = true ∧ foldedTwice.grammar 1 = some folded) ∧
      (foldedTwice.regexSource p = foldedTwice.regexSource q ∧
        foldedTwice.width p = foldedTwice.width q) ∧
      foldedTwice.regexSource (.reference 1) = foldedTwice.regexSource folded ∧
      foldedTwice.width (.reference 1) = foldedTwice.width folded := by
  have hequal : foldedTwice.equal (.anyOf [.reference 0, (Pattern.reference 3).between 2 1])
      (.anyOf [.reference 1, (Pattern.reference 3).between 2 1]) = true := by decide
  have hbound : foldedTwice.grammar 1 = some (.inOrder [.ofText "a", .reference 2]) := rfl
  exact ⟨⟨hequal, hbound⟩, (sameOutcome_of_unfolding foldedTwice).1 _ _ hequal,
    (sameOutcome_of_unfolding foldedTwice).2.1 {} 1 _ hbound⟩

end Heap
end PatternGraph
