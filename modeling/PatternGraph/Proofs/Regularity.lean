import Mathlib.Data.List.Forall2
import PatternGraph.Compilation
import PatternGraph.Proofs.GuardedWalk

/-!
# Which patterns have a regular expression

A pattern has a regular expression exactly when nothing that it reaches is an obstacle: no
repetition with its bounds the wrong way round, no unbound recursion and no recursion that reaches
its own cell. The error names an obstacle of its own kind that is really reached, though not
necessarily the only one. A cell that is met side by side with itself is no obstacle. The
predicate `Regular` is the bridge: it says by induction that a pattern can be unfolded to the end.
-/

namespace PatternGraph
set_option autoImplicit false

namespace Heap

/-- A node that keeps every pattern reaching it from having a regular expression, with the error
for it. -/
def Obstacle (heap : Heap) : CompileError → Pattern → Prop
  | .invalidRepeat min max, p => p.bounds = some (min, some max) ∧ max < min
  | .unresolvedRecursion, p => ∃ c, p.isReferenceTo c = true ∧ heap.isBound c = false
  | .notRegular, p => p.kind = .recursion ∧ heap.isRecursive p = true
  | .rejected _, _ => False

theorem no_obstacle_iff {heap : Heap} {p : Pattern} :
    (∀ error, ¬ heap.Obstacle error p) ↔
      (∀ tag inner min max, p = .repetition tag inner min (some max) → min ≤ max) ∧
      (∀ tag cell, p = .recursion tag cell → heap.isBound cell = true) ∧
      ∀ tag cell, p = .recursion tag cell → heap.isRecursive (.recursion tag cell) = false := by
  constructor
  · intro h
    refine ⟨?_, ?_, ?_⟩
    · rintro tag inner min max rfl
      exact Nat.le_of_not_lt fun hlt => h (.invalidRepeat min max) ⟨rfl, hlt⟩
    · rintro tag cell rfl
      apply Bool.of_not_eq_false
      intro hunbound
      exact h .unresolvedRecursion ⟨cell, by simp [Pattern.isReferenceTo], hunbound⟩
    · rintro tag cell rfl
      exact Bool.eq_false_iff.mpr fun hrec => h .notRegular ⟨rfl, hrec⟩
  · intro h error hobstacle
    obtain ⟨hordered, hbound, hrec⟩ := h
    cases error with
    | invalidRepeat min max =>
      obtain ⟨hbounds, hlt⟩ := hobstacle
      cases p with
      | repetition tag inner least most =>
        obtain ⟨rfl, rfl⟩ := Prod.mk.inj (Option.some.inj hbounds)
        exact absurd (hordered tag inner _ max rfl) (Nat.not_le.mpr hlt)
      | _ => exact absurd hbounds (by simp [Pattern.bounds])
    | unresolvedRecursion =>
      obtain ⟨c, hreference, hunbound⟩ := hobstacle
      obtain ⟨tag, rfl⟩ := (Pattern.isReferenceTo_iff_exists c p).mp hreference
      exact Bool.false_ne_true (hunbound.symm.trans (hbound tag c rfl))
    | notRegular =>
      obtain ⟨hkind, hreturns⟩ := hobstacle
      cases p with
      | recursion tag cell =>
        exact Bool.false_ne_true ((hrec tag cell rfl).symm.trans hreturns)
      | _ => exact absurd hkind (by simp [Pattern.kind])
    | rejected reason => exact hobstacle

/-- A pattern that can be unfolded to the end without an obstacle. -/
inductive Regular (heap : Heap) : Pattern → Prop where
  | intro {p : Pattern} (ordered : ∀ min max, p.bounds = some (min, some max) → min ≤ max)
      (bound : ∀ c, p.isReferenceTo c = true → heap.isBound c = true)
      (elements : ∀ q ∈ heap.elements p, Regular heap q) : Regular heap p

namespace Regular
variable {heap : Heap} {p q : Pattern}

theorem ordered (h : heap.Regular p) {min max : Nat} (hp : p.bounds = some (min, some max)) :
    min ≤ max := by
  cases h with
  | intro ordered _ _ => exact ordered min max hp

theorem bound (h : heap.Regular p) {c : Nat} (hp : p.isReferenceTo c = true) :
    heap.isBound c = true := by
  cases h with
  | intro _ bound _ => exact bound c hp

theorem of_reaches (h : heap.Regular p) (hpq : heap.Reaches .all p q) : heap.Regular q := by
  induction hpq with
  | refl _ => exact h
  | step hstep _ ih =>
    apply ih
    cases h with
    | intro _ _ elements => exact elements _ (by rwa [successors_all] at hstep)

/-- No path leads from an element of a regular pattern to anything with the same elements. -/
theorem no_return (h : heap.Regular p) : ∀ r, heap.elements r = heap.elements p →
    ∀ q ∈ heap.elements p, ¬ heap.Reaches .all q r := by
  induction h with
  | @intro p _ _ _ ih =>
    intro r hr q hq hqr
    -- The path runs from `q` around to `q` again, which the hypothesis for `q` excludes.
    cases hqr with
    | refl _ => exact ih r hq r rfl r (hr ▸ hq) (.refl r)
    | @step _ next _ hnext hpath =>
      rw [successors_all] at hnext
      exact ih q hq q rfl next hnext (hpath.trans (.of_element (hr ▸ hq) (.refl q)))

theorem not_isRecursive {tag : Tag} {cell : Nat} (h : heap.Regular (.recursion tag cell)) :
    heap.isRecursive (.recursion tag cell) = false := by
  apply Bool.eq_false_iff.mpr
  intro hrec
  obtain ⟨p, hp, other, hpath⟩ := isRecursive_recursion_iff.mp hrec
  exact h.no_return (.recursion other cell) rfl p (by simp [hp]) hpath

theorem no_obstacle (h : heap.Regular p) : ∀ error, ¬ heap.Obstacle error p := by
  refine no_obstacle_iff.mpr ⟨?_, ?_, ?_⟩
  · rintro tag inner min max rfl
    exact h.ordered rfl
  · rintro tag cell rfl
    exact h.bound (by simp [Pattern.isReferenceTo])
  · rintro tag cell rfl
    exact h.not_isRecursive

end Regular
end Heap

/-! ## Compiling one tree -/

theorem bind_eq_ok_iff {ε α β : Type} {x : Except ε α} {f : α → Except ε β} {b : β} :
    x >>= f = .ok b ↔ ∃ a, x = .ok a ∧ f a = .ok b := by
  cases x <;> simp [bind, Except.bind]

theorem bind_eq_error_iff {ε α β : Type} {x : Except ε α} {f : α → Except ε β} {e : ε} :
    x >>= f = .error e ↔ x = .error e ∨ ∃ a, x = .ok a ∧ f a = .error e := by
  cases x <;> simp [bind, Except.bind]

theorem pure_eq_ok_iff {ε α : Type} {a b : α} : (pure a : Except ε α) = .ok b ↔ a = b := by
  simp [pure, Except.pure]

theorem pure_ne_error {ε α : Type} (a : α) (e : ε) : (pure a : Except ε α) ≠ .error e :=
  nofun

theorem Quantifier.bounds_of_ofBounds_ok {min : Nat} {max : Option Nat} {quantifier : Quantifier}
    (h : Quantifier.ofBounds min max = .ok quantifier) :
    quantifier.min = min ∧ quantifier.max = max := by
  unfold ofBounds at h
  split at h
  · obtain rfl := Except.ok.inj h
    exact ⟨rfl, rfl⟩
  · split at h
    · obtain rfl := Except.ok.inj h
      exact ⟨rfl, rfl⟩
    · exact absurd h (by simp)

theorem Quantifier.le_of_ofBounds_ok {min max : Nat} {quantifier : Quantifier}
    (h : Quantifier.ofBounds min (some max) = .ok quantifier) : min ≤ max := by
  obtain ⟨hmin, hmax⟩ := bounds_of_ofBounds_ok h
  simpa [hmin, hmax] using quantifier.ordered

theorem Quantifier.bounds_of_ofBounds_error {min : Nat} {max : Option Nat} {error : CompileError}
    (h : Quantifier.ofBounds min max = .error error) :
    ∃ most, max = some most ∧ error = .invalidRepeat min most ∧ most < min := by
  unfold ofBounds at h
  split at h
  · exact absurd h (by simp)
  · rename_i most
    split at h
    · exact absurd h (by simp)
    · exact ⟨most, rfl, (Except.error.inj h).symm, by omega⟩

/-- An error that `p` has for a reason: an obstacle that it reaches, or a recursion that it reaches
and whose cell answers with the error. -/
def Heap.Blocked (heap : Heap) (atCell : Nat → Except CompileError Fragment)
    (error : CompileError) (p : Pattern) : Prop :=
  ∃ q, heap.Reaches .all p q ∧
    (heap.Obstacle error q ∨ ∃ tag cell, q = .recursion tag cell ∧ atCell cell = .error error)

theorem Heap.Blocked.of_element {heap : Heap} {atCell : Nat → Except CompileError Fragment}
    {error : CompileError} {p q : Pattern} (h : heap.Blocked atCell error q)
    (hq : q ∈ heap.elements p) : heap.Blocked atCell error p := by
  obtain ⟨r, hqr, hr⟩ := h
  exact ⟨r, .of_element hq hqr, hr⟩

namespace Pattern
variable {atCell : Nat → Except CompileError Fragment}

theorem forall₂_of_fragments_ok {elements : List Pattern} {parts : List Fragment}
    (h : fragments atCell elements = .ok parts) :
    List.Forall₂ (fun p part => p.fragmentWith atCell = .ok part) elements parts := by
  induction elements generalizing parts with
  | nil =>
    obtain rfl := Except.ok.inj h
    exact .nil
  | cons p rest ih =>
    simp only [fragments, bind_eq_ok_iff, pure_eq_ok_iff] at h
    obtain ⟨part, hpart, others, hothers, rfl⟩ := h
    exact .cons hpart (ih hothers)

theorem exists_part_of_mem {elements : List Pattern} {parts : List Fragment}
    (h : fragments atCell elements = .ok parts) {p : Pattern} (hp : p ∈ elements) :
    ∃ part, p.fragmentWith atCell = .ok part := by
  have hall := forall₂_of_fragments_ok h
  clear h
  induction hall with
  | nil => exact absurd hp (by simp)
  | @cons _ part _ _ hpart _ ih =>
    rcases List.mem_cons.mp hp with rfl | hp
    · exact ⟨part, hpart⟩
    · exact ih hp

theorem exists_of_fragments_error {elements : List Pattern} {error : CompileError}
    (h : fragments atCell elements = .error error) :
    ∃ p ∈ elements, p.fragmentWith atCell = .error error := by
  induction elements with
  | nil => exact absurd h (by simp [fragments])
  | cons p rest ih =>
    simp only [fragments, bind_eq_error_iff, pure_ne_error, and_false, exists_false, or_false] at h
    rcases h with hp | ⟨_, _, hrest⟩
    · exact ⟨p, List.mem_cons_self, hp⟩
    · obtain ⟨q, hq, herror⟩ := ih hrest
      exact ⟨q, List.mem_cons_of_mem p hq, herror⟩

/-- An error comes from the bounds of a repetition in the tree or from one of its cells. -/
theorem blocked_of_fragmentWith_error (heap : Heap) {error : CompileError} (p : Pattern)
    (h : p.fragmentWith atCell = .error error) : heap.Blocked atCell error p := by
  induction p with
  | literal tag text => exact absurd h (by simp [fragmentWith])
  | characterClass tag cls => exact absurd h (by simp [fragmentWith])
  | alternation tag elements ih =>
    simp only [fragmentWith, bind_eq_error_iff, pure_ne_error, and_false, exists_false,
      or_false] at h
    obtain ⟨p, hp, herror⟩ := exists_of_fragments_error h
    exact (ih p hp herror).of_element hp
  | concatenation tag elements ih =>
    simp only [fragmentWith, bind_eq_error_iff, pure_ne_error, and_false, exists_false,
      or_false] at h
    obtain ⟨p, hp, herror⟩ := exists_of_fragments_error h
    exact (ih p hp herror).of_element hp
  | repetition tag inner min max ih =>
    simp only [fragmentWith, bind_eq_error_iff, pure_ne_error, and_false, exists_false,
      or_false] at h
    rcases h with hbounds | ⟨_, _, hinner⟩
    · obtain ⟨most, rfl, rfl, hlt⟩ := Quantifier.bounds_of_ofBounds_error hbounds
      exact ⟨_, .refl _, Or.inl ⟨rfl, hlt⟩⟩
    · exact (ih hinner).of_element (List.mem_singleton.mpr rfl)
  | latch tag target ih => exact (ih h).of_element (List.mem_singleton.mpr rfl)
  | recursion tag cell => exact ⟨_, .refl _, Or.inr ⟨tag, cell, rfl, h⟩⟩

/-- A tree that compiles is regular if the cells it asks for are. -/
theorem regular_of_fragmentWith_ok (heap : Heap)
    (hcells : ∀ cell part, atCell cell = .ok part → ∀ tag, heap.Regular (.recursion tag cell))
    {p : Pattern} {part : Fragment} (h : p.fragmentWith atCell = .ok part) : heap.Regular p := by
  induction p generalizing part with
  | literal tag text =>
    exact .intro (by simp [bounds]) (by simp [isReferenceTo]) (by simp [Heap.elements])
  | characterClass tag cls =>
    exact .intro (by simp [bounds]) (by simp [isReferenceTo]) (by simp [Heap.elements])
  | alternation tag elements ih =>
    simp only [fragmentWith, bind_eq_ok_iff, pure_eq_ok_iff] at h
    obtain ⟨parts, hparts, _⟩ := h
    refine .intro (by simp [bounds]) (by simp [isReferenceTo]) ?_
    intro q hq
    obtain ⟨part, hpart⟩ := exists_part_of_mem hparts hq
    exact ih q hq hpart
  | concatenation tag elements ih =>
    simp only [fragmentWith, bind_eq_ok_iff, pure_eq_ok_iff] at h
    obtain ⟨parts, hparts, _⟩ := h
    refine .intro (by simp [bounds]) (by simp [isReferenceTo]) ?_
    intro q hq
    obtain ⟨part, hpart⟩ := exists_part_of_mem hparts hq
    exact ih q hq hpart
  | repetition tag inner min max ih =>
    simp only [fragmentWith, bind_eq_ok_iff, pure_eq_ok_iff] at h
    obtain ⟨quantifier, hbounds, part, hinner, _⟩ := h
    refine .intro ?_ (by simp [isReferenceTo]) ?_
    · intro least most hboth
      obtain ⟨rfl, rfl⟩ := Prod.mk.inj (Option.some.inj hboth)
      exact Quantifier.le_of_ofBounds_ok hbounds
    · intro q hq
      obtain rfl := List.mem_singleton.mp hq
      exact ih hinner
  | latch tag target ih =>
    refine .intro (by simp [bounds]) (by simp [isReferenceTo]) ?_
    intro q hq
    obtain rfl := List.mem_singleton.mp hq
    exact ih h
  | recursion tag cell => exact hcells cell part h tag

end Pattern

/-! ## Compiling in a heap -/

namespace Heap
variable {heap : Heap} {p : Pattern}

/-- The walk fails only at an obstacle. The fuel does not run out, because no cell is entered
twice. -/
theorem exists_obstacle_of_atCell_error {error : CompileError} (fuel : Nat) :
    ∀ (inside : List Nat) (tag : Tag) (c : Nat), heap.Inside inside (.recursion tag c) →
      heap.cells.size < fuel + inside.length →
      fragmentWalk.atCell heap.grammar fuel inside c = .error error →
      ∃ q, heap.Reaches .all (.recursion tag c) q ∧ heap.Obstacle error q := by
  induction fuel with
  | zero =>
    intro inside tag c hinside hfuel _
    have hlength := hinside.length_le
    omega
  | succ fuel ih =>
    intro inside tag c hinside hfuel herror
    by_cases hmet : c ∈ inside
    · rw [Walk.atCell_of_mem _ _ _ hmet] at herror
      obtain rfl := Except.error.inj herror
      exact ⟨_, .refl _, rfl, hinside.isRecursive hmet⟩
    · cases hbound : heap.grammar c with
      | none =>
        rw [Walk.atCell_unbound _ _ hmet hbound] at herror
        obtain rfl := Except.error.inj herror
        exact ⟨_, .refl _, c, by simp [Pattern.isReferenceTo], by simp [isBound, hbound]⟩
      | some p =>
        rw [Walk.atCell_bound _ _ hmet hbound] at herror
        have hp : heap.Reaches .all (.recursion tag c) p :=
          .of_element (by simp [hbound]) (.refl p)
        obtain ⟨q, hpq, hobstacle | ⟨other, d, rfl, hd⟩⟩ :=
          Pattern.blocked_of_fragmentWith_error heap p herror
        · exact ⟨q, hp.trans hpq, hobstacle⟩
        · have hnext := (hinside.enter hmet hbound).along hpq
          have hless : heap.cells.size < fuel + (c :: inside).length := by
            rw [List.length_cons]
            omega
          obtain ⟨r, hqr, hr⟩ := ih (c :: inside) other d hnext hless hd
          exact ⟨r, (hp.trans hpq).trans hqr, hr⟩

theorem exists_obstacle_of_fragment_error {error : CompileError}
    (h : heap.fragment p = .error error) :
    ∃ q, heap.Reaches .all p q ∧ heap.Obstacle error q := by
  obtain ⟨q, hpq, hobstacle | ⟨tag, c, rfl, hc⟩⟩ :=
    Pattern.blocked_of_fragmentWith_error heap p h
  · exact ⟨q, hpq, hobstacle⟩
  · obtain ⟨r, hqr, hr⟩ := exists_obstacle_of_atCell_error _ [] tag c (.nil _) (by simp) hc
    exact ⟨r, hpq.trans hqr, hr⟩

/-- What a walk that succeeds passes on from the cells of a tree holds at every cell. -/
theorem atCell_ok_induction {P : Nat → Fragment → Prop}
    (onTree : ∀ c p atCell part, heap.grammar c = some p →
      (∀ d part, atCell d = .ok part → P d part) → p.fragmentWith atCell = .ok part → P c part)
    {fuel : Nat} {inside : List Nat} {c : Nat} {part : Fragment}
    (h : fragmentWalk.atCell heap.grammar fuel inside c = .ok part) : P c part := by
  have hall : ∀ part, fragmentWalk.atCell heap.grammar fuel inside c = .ok part → P c part := by
    refine Walk.atCell_induction
      (P := fun c (answer : Except CompileError Fragment) => ∀ part, answer = .ok part → P c part)
      ?_ ?_ ?_ fuel inside c
    · intro _ part hpart
      exact absurd hpart (by simp [fragmentWalk])
    · intro _ _ part hpart
      exact absurd hpart (by simp [fragmentWalk])
    · intro c p atCell hbound hcells part hpart
      exact onTree c p atCell part hbound hcells hpart
  exact hall part h

theorem regular_of_atCell_ok {fuel : Nat} {inside : List Nat} {c : Nat} {part : Fragment}
    (h : fragmentWalk.atCell heap.grammar fuel inside c = .ok part) :
    ∀ tag, heap.Regular (.recursion tag c) := by
  refine atCell_ok_induction (P := fun c _ => ∀ tag, heap.Regular (.recursion tag c)) ?_ h
  intro c p atCell part hbound hcells hpart tag
  refine .intro (by simp [Pattern.bounds]) ?_ ?_
  · intro d hd
    have hsame : c = d := by simpa [Pattern.isReferenceTo] using hd
    simp [isBound, ← hsame, hbound]
  · intro q hq
    obtain rfl : q = p := by simpa [hbound] using hq
    exact Pattern.regular_of_fragmentWith_ok heap hcells hpart

theorem regular_of_fragment_ok {part : Fragment} (h : heap.fragment p = .ok part) :
    heap.Regular p :=
  Pattern.regular_of_fragmentWith_ok heap (fun _ _ hpart => regular_of_atCell_ok hpart) h

theorem regexSource_eq_ok_iff {source : String} :
    heap.regexSource p = .ok source ↔
      ∃ part, heap.fragment p = .ok part ∧
        ({ first := part.pieces } : Regex).text = source := by
  simp only [regexSource, regex, bind_eq_ok_iff, pure_eq_ok_iff]
  constructor
  · intro h
    obtain ⟨_, ⟨part, hpart, hregex⟩, htext⟩ := h
    exact ⟨part, hpart, hregex ▸ htext⟩
  · intro h
    obtain ⟨part, hpart, htext⟩ := h
    exact ⟨_, ⟨part, hpart, rfl⟩, htext⟩

theorem regexSource_eq_error_iff {error : CompileError} :
    heap.regexSource p = .error error ↔ heap.fragment p = .error error := by
  simp only [regexSource, regex, bind_eq_error_iff, pure_ne_error, and_false, exists_false,
    or_false]

theorem exists_regexSource_iff : (∃ source, heap.regexSource p = .ok source) ↔
    ∀ q, heap.Reaches .all p q → ∀ error, ¬ heap.Obstacle error q := by
  constructor
  · intro h q hq error
    obtain ⟨source, hsource⟩ := h
    obtain ⟨part, hpart, _⟩ := regexSource_eq_ok_iff.mp hsource
    exact ((regular_of_fragment_ok hpart).of_reaches hq).no_obstacle error
  · intro h
    cases hfragment : heap.fragment p with
    | ok part => exact ⟨_, regexSource_eq_ok_iff.mpr ⟨part, hfragment, rfl⟩⟩
    | error error =>
      obtain ⟨q, hpq, hobstacle⟩ := exists_obstacle_of_fragment_error hfragment
      exact absurd hobstacle (h q hpq error)

/-- A source exists exactly when all bounds that are reached are in order and every recursion that
is reached is bound and does not reach its own cell. Otherwise the error has an obstacle of its
own kind that is reached; so a cell without a cycle never makes a pattern irregular, however often
it is used. -/
theorem regexSource_ok_iff_and_error_reached (heap : Heap) (p : Pattern) :
    ((∃ source, heap.regexSource p = .ok source) ↔
      (∀ tag inner min max, heap.Reaches .all p (.repetition tag inner min (some max)) →
        min ≤ max) ∧
      (∀ tag cell, heap.Reaches .all p (.recursion tag cell) → heap.isBound cell = true) ∧
      ∀ tag cell, heap.Reaches .all p (.recursion tag cell) →
        heap.isRecursive (.recursion tag cell) = false) ∧
    (∀ error, heap.regexSource p = .error error →
      ∃ q, heap.Reaches .all p q ∧ heap.Obstacle error q) ∧
    ((∀ tag cell, heap.Reaches .all p (.recursion tag cell) →
      heap.isRecursive (.recursion tag cell) = false) →
      heap.regexSource p ≠ .error .notRegular) := by
  have truthful : ∀ error, heap.regexSource p = .error error →
      ∃ q, heap.Reaches .all p q ∧ heap.Obstacle error q := by
    intro error herror
    exact exists_obstacle_of_fragment_error (regexSource_eq_error_iff.mp herror)
  refine ⟨?_, truthful, ?_⟩
  · rw [exists_regexSource_iff]
    constructor
    · intro h
      refine ⟨?_, ?_, ?_⟩
      · intro tag inner min max hq
        exact (no_obstacle_iff.mp (h _ hq)).1 tag inner min max rfl
      · intro tag cell hq
        exact (no_obstacle_iff.mp (h _ hq)).2.1 tag cell rfl
      · intro tag cell hq
        exact (no_obstacle_iff.mp (h _ hq)).2.2 tag cell rfl
    · intro h q hq
      obtain ⟨hordered, hbound, hrec⟩ := h
      refine no_obstacle_iff.mpr ⟨?_, ?_, ?_⟩
      · rintro tag inner min max rfl
        exact hordered tag inner min max hq
      · rintro tag cell rfl
        exact hbound tag cell hq
      · rintro tag cell rfl
        exact hrec tag cell hq
  · intro hrec herror
    obtain ⟨q, hq, hkind, hreturns⟩ := truthful .notRegular herror
    cases q with
    | recursion tag cell =>
      exact Bool.false_ne_true ((hrec tag cell hq).symm.trans hreturns)
    | _ => exact absurd hkind (by simp [Pattern.kind])

end Heap
end PatternGraph
