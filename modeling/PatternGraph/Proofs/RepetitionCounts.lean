import PatternGraph.MatchTree
import PatternGraph.RegexRoundTrip
import PatternGraph.Proofs.Regularity

/-!
# How many copies a repetition permits

The bounds of a repetition are looked at twice: when a match is built from values, and when the
pattern is compiled, where one of seven quantifiers is written or none. Both permit the same counts,
and these are what the combinator that made the repetition says, up to the largest bound. Bounds
that permit no count at all are the ones that have no regular expression. Only the bound of
`moreThan` stays one short of the next number when there is no next one.
-/

namespace PatternGraph
set_option autoImplicit false

open Regex

namespace Regex

/-- The numbers of copies of what `source` stands for that a further text permits: the same text
just one, and a quantifier on the whole of it the numbers within its bounds. -/
inductive Counts (source : String) (permitted : Nat → Prop) : String → Prop where
  | once (exactly : ∀ count, permitted count ↔ count = 1) : Counts source permitted source
  | quantified {emitted : String} {whole : Regex} {atom : Atom} {quantifier : Quantifier}
      (read : ofText? source = some whole)
      (covers : whole = { first := [atom.once] } ∨ atom = .group whole.first whole.rest)
      (repeats : ofText? emitted = some { first := [atom.repeated quantifier] })
      (within : ∀ count, permitted count ↔
        quantifier.min ≤ count ∧ ∀ most ∈ quantifier.max, count ≤ most) :
      Counts source permitted emitted

end Regex

namespace Quantifier
variable {min : Nat} {max : Option Nat}

/-- Bounds that permit some count make a quantifier. -/
theorem exists_ofBounds_ok {count : Nat} (hmin : min ≤ count)
    (hmax : ∀ most ∈ max, count ≤ most) :
    ∃ quantifier, Quantifier.ofBounds min max = .ok quantifier := by
  cases h : Quantifier.ofBounds min max with
  | ok quantifier => exact ⟨quantifier, rfl⟩
  | error error =>
    obtain ⟨most, rfl, -, hlt⟩ := bounds_of_ofBounds_error h
    have hcount := hmax most rfl
    omega

theorem min_le_max (quantifier : Quantifier) : ∀ most ∈ quantifier.max, quantifier.min ≤ most := by
  intro most hmost
  have hordered := quantifier.ordered
  rw [Option.mem_def.mp hmost] at hordered
  simpa using hordered

end Quantifier

namespace Fragment

/-- The text of the repeated fragment permits the numbers within the bounds of the quantifier. -/
theorem counts_repeated (part : Fragment) (quantifier : Quantifier) :
    Counts ({ first := part.pieces } : Regex).text
      (fun count => quantifier.min ≤ count ∧ ∀ most ∈ quantifier.max, count ≤ most)
      ({ first := (part.repeated quantifier).pieces } : Regex).text := by
  unfold repeated
  split
  · rename_i honce
    refine .once fun count => ?_
    rw [honce.1, honce.2]
    simp only [Option.mem_def, Option.some.injEq, forall_eq']
    omega
  · refine .quantified (ofText?_text _) ?_ (ofText?_text _) fun _ => Iff.rfl
    cases part with
    | atom single => exact .inl rfl
    | row pieces => exact .inr rfl

end Fragment

namespace Heap
variable {heap : Heap} {p : Pattern} {min : Nat} {max : Option Nat}

theorem fragment_repeated (heap : Heap) (p : Pattern) (min : Nat) (max : Option Nat) :
    heap.fragment (p.repeated min max) = do
      let quantifier ← Quantifier.ofBounds min max
      return (← heap.fragment p).repeated quantifier := rfl

theorem fragment_repeated_ok {part : Fragment} (h : heap.fragment p = .ok part)
    {quantifier : Quantifier} (hbounds : Quantifier.ofBounds min max = .ok quantifier) :
    heap.fragment (p.repeated min max) = .ok (part.repeated quantifier) := by
  rw [fragment_repeated, hbounds, h]
  rfl

theorem regexSource_repeated_error {error : CompileError}
    (h : Quantifier.ofBounds min max = .error error) :
    heap.regexSource (p.repeated min max) = .error error := by
  rw [regexSource_eq_error_iff, fragment_repeated, h]
  rfl

theorem matchRepetition_repeated (heap : Heap) (p : Pattern) (min : Nat) (max : Option Nat)
    (values : List Match) :
    heap.matchRepetition (p.repeated min max) values =
      if withinBounds min max values.length then .ok (.sequence (p.repeated min max) values none)
      else .error (.bounds min max values.length) := rfl

/-- The repetition `q` of `p` permits these counts, whether it is matched or compiled. -/
structure Permits (heap : Heap) (p q : Pattern) (permitted : Nat → Prop) : Prop where
  matched : ∀ values : List Match,
    (∃ m, heap.matchRepetition q values = .ok m) ↔ permitted values.length
  compiled : ∀ source, heap.regexSource p = .ok source → (∃ count, permitted count) →
    ∃ emitted, heap.regexSource q = .ok emitted ∧ Counts source permitted emitted
  rejected : ∀ source, heap.regexSource p = .ok source →
    ((∃ min max, q.bounds = some (min, some max) ∧
      heap.regexSource q = .error (.invalidRepeat min max)) ↔ ∀ count, ¬ permitted count)

/-- A repetition permits the counts within its bounds. -/
theorem permits_repeated (heap : Heap) (p : Pattern) (min : Nat) (max : Option Nat) :
    heap.Permits p (p.repeated min max)
      fun count => min ≤ count ∧ ∀ most ∈ max, count ≤ most := by
  have compiled : ∀ source, heap.regexSource p = .ok source →
      (∃ count, min ≤ count ∧ ∀ most ∈ max, count ≤ most) →
      ∃ emitted, heap.regexSource (p.repeated min max) = .ok emitted ∧
        Counts source (fun count => min ≤ count ∧ ∀ most ∈ max, count ≤ most) emitted := by
    intro source hsource hsome
    obtain ⟨part, hpart, rfl⟩ := regexSource_eq_ok_iff.mp hsource
    obtain ⟨count, hmin, hmax⟩ := hsome
    obtain ⟨quantifier, hbounds⟩ := Quantifier.exists_ofBounds_ok hmin hmax
    obtain ⟨rfl, rfl⟩ := Quantifier.bounds_of_ofBounds_ok hbounds
    exact ⟨_, regexSource_eq_ok_iff.mpr ⟨_, fragment_repeated_ok hpart hbounds, rfl⟩,
      part.counts_repeated quantifier⟩
  refine ⟨?matched, compiled, ?rejected⟩
  case matched =>
    intro values
    rw [matchRepetition_repeated, ← withinBounds_iff]
    split <;> simp [*]
  case rejected =>
    intro source hsource
    constructor
    · intro herror count hcount
      obtain ⟨least, most, -, herror⟩ := herror
      obtain ⟨emitted, hemitted, -⟩ := compiled source hsource ⟨count, hcount⟩
      exact absurd (hemitted.symm.trans herror) nofun
    · intro hnone
      cases hbounds : Quantifier.ofBounds min max with
      | ok quantifier =>
        obtain ⟨rfl, rfl⟩ := Quantifier.bounds_of_ofBounds_ok hbounds
        -- A quantifier permits at least its own lower bound.
        exact absurd ⟨Nat.le_refl _, quantifier.min_le_max⟩ (hnone quantifier.min)
      | error error =>
        obtain ⟨most, rfl, rfl, -⟩ := Quantifier.bounds_of_ofBounds_error hbounds
        exact ⟨min, most, rfl, regexSource_repeated_error hbounds⟩

theorem permits_of_bounds {permitted : Nat → Prop} (heap : Heap) (p : Pattern)
    (h : ∀ count, permitted count ↔ min ≤ count ∧ ∀ most ∈ max, count ≤ most) :
    heap.Permits p (p.repeated min max) permitted := by
  obtain rfl : permitted = fun count => min ≤ count ∧ ∀ most ∈ max, count ≤ most :=
    funext fun count => propext (h count)
  exact heap.permits_repeated p min max

theorem permits_atLeast (heap : Heap) (p : Pattern) (n : Nat) :
    heap.Permits p (p.atLeast n) (n ≤ ·) :=
  permits_of_bounds heap p fun count => by simp

theorem permits_atMost (heap : Heap) (p : Pattern) (n : Nat) :
    heap.Permits p (p.atMost n) (· ≤ n) :=
  permits_of_bounds heap p fun count => by simp

/-- Matching and compiling permit what the combinators say: at least and at most a number, fewer
than a positive number, more than a number below the largest bound, just a number and from one
number to another. Beyond the largest bound `moreThan` has no number to go on from, and permits the
largest bound itself. -/
theorem permits_combinators (heap : Heap) (p : Pattern) (m n : Nat) :
    heap.Permits p (p.atLeast n) (n ≤ ·) ∧
    heap.Permits p (p.atMost n) (· ≤ n) ∧
    (1 ≤ n → ∃ q, p.lessThan n = some q ∧ heap.Permits p q (· < n)) ∧
    (n < maxCount → heap.Permits p (p.moreThan n) (n < ·)) ∧
    heap.Permits p (p.moreThan maxCount) (maxCount ≤ ·) ∧
    heap.Permits p (p.exactly n) (· = n) ∧
    heap.Permits p (p.between m n) (fun count => m ≤ count ∧ count ≤ n) := by
  refine ⟨heap.permits_atLeast p n, heap.permits_atMost p n, ?lessThan, ?moreThan,
    heap.permits_atLeast p maxCount, ?exactly, ?between⟩
  case lessThan =>
    intro hn
    obtain ⟨most, rfl⟩ := Nat.exists_eq_add_of_le' hn
    exact ⟨p.atMost most, rfl, permits_of_bounds heap p fun count => by simp⟩
  case moreThan =>
    intro hn
    have hbound : Nat.min (n + 1) maxCount = n + 1 := Nat.min_eq_left hn
    rw [Pattern.moreThan, hbound]
    exact heap.permits_atLeast p (n + 1)
  case exactly =>
    refine permits_of_bounds heap p fun count => ?_
    simp only [Option.mem_def, Option.some.injEq, forall_eq']
    omega
  case between => exact permits_of_bounds heap p fun count => by simp

end Heap

/-- A text that needs a group, one below the largest bound. -/
theorem Heap.permits_combinators_pair :
    1 ≤ maxCount - 1 ∧ maxCount - 1 < maxCount ∧
      (∃ q, (Pattern.ofText "ab").lessThan (maxCount - 1) = some q ∧
        ({} : Heap).Permits (.ofText "ab") q (· < maxCount - 1)) ∧
      ({} : Heap).Permits (.ofText "ab") ((Pattern.ofText "ab").moreThan (maxCount - 1))
        (maxCount - 1 < ·) ∧
      ({} : Heap).regexSource ((Pattern.ofText "ab").moreThan (maxCount - 1)) =
        .ok "(ab)\x7b4294967295,\x7d" := by
  obtain ⟨-, -, hless, hmore, -⟩ :=
    permits_combinators {} (.ofText "ab") 0 (maxCount - 1)
  have hpositive : 1 ≤ maxCount - 1 := by decide
  have hbelow : maxCount - 1 < maxCount := by decide
  exact ⟨hpositive, hbelow, hless hpositive, hmore hbelow, by decide⟩

/-- There is no larger bound, so more than the largest one permits just as many. -/
theorem Heap.moreThan_permits_maxCount :
    ¬ maxCount < (List.replicate maxCount (Match.text (.ofText "x") "x" none)).length ∧
      (∃ m, ({} : Heap).matchRepetition ((Pattern.ofText "x").moreThan maxCount)
        (List.replicate maxCount (Match.text (.ofText "x") "x" none)) = .ok m) ∧
      ({} : Heap).regexSource ((Pattern.ofText "x").moreThan maxCount) =
        .ok "x\x7b4294967295,\x7d" := by
  have hlength := List.length_replicate (n := maxCount) (a := Match.text (.ofText "x") "x" none)
  have hmatched := (({} : Heap).permits_atLeast (.ofText "x") maxCount).matched
    (List.replicate maxCount (Match.text (.ofText "x") "x" none))
  refine ⟨?_, hmatched.mpr (Nat.le_of_eq hlength.symm), by decide⟩
  rw [hlength]
  exact Nat.lt_irrefl _

end PatternGraph
