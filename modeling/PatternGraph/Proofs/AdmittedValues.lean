import PatternGraph.Proofs.Derivations
import PatternGraph.Proofs.WalksEnd

/-!
# Which values an alternation admits

A value belongs to an alternation when what stands behind its pattern equals what stands behind one
of the alternatives. That two patterns are equal as they are adds nothing, since equal patterns have
equal ones behind them; and two patterns with nothing behind them are never taken for one another,
because a match is only ever built where something stands behind its pattern, and a cell that has
been bound stays bound alike. The values need not be coherent: how they were built plays no part.
-/

namespace PatternGraph
set_option autoImplicit false

namespace Heap
variable {heap : Heap} {p q element target : Pattern} {value : Match}

/-! ## Patterns with nothing behind them -/

/-- Latches and bound recursions lead to an unbound recursion, or round in a circle. -/
inductive Stuck (heap : Heap) : Pattern → Prop where
  | unbound {tag : Tag} {cell : Nat} (free : heap.grammar cell = none) :
      Stuck heap (.recursion tag cell)
  | circular {p : Pattern} (circle : Relation.TransGen heap.Follows p p) : Stuck heap p
  | follows {p q : Pattern} (next : heap.Follows p q) (stuck : Stuck heap q) : Stuck heap p

theorem Stuck.underlying_eq (h : heap.Stuck p) : heap.underlying p = none := by
  induction h with
  | unbound free => exact underlying_of_unbound (fun hplain => hplain.2 rfl) free
  | circular circle => exact underlying_of_circular circle
  | follows next _ ih => exact next.underlying_eq.trans ih

/-! ## Equal patterns have equal ones behind them -/

theorem Bisimilar.isPlain (h : heap.Bisimilar p q) (hq : q.IsPlain) : p.IsPlain := by
  obtain ⟨related, hbisimulation, hpq⟩ := h
  have hnode : p.node = q.node := (sameStep_iff.mp (hbisimulation p q hpq)).1
  cases q with
  | latch => exact absurd rfl hq.1
  | recursion => exact absurd rfl hq.2
  | _ =>
    cases p with
    | latch => exact absurd hnode nofun
    | recursion => exact absurd hnode nofun
    | _ => exact ⟨nofun, nofun⟩

theorem Bisimilar.follows (h : heap.Bisimilar p q) (hq : heap.Follows q target) :
    ∃ other, heap.Follows p other ∧ heap.Bisimilar other target := by
  obtain ⟨related, hbisimulation, hpq⟩ := h
  have hstep := hbisimulation p q hpq
  cases q with
  | latch tag inner =>
    obtain rfl : inner = target := Option.some.inj hq
    cases p with
    | latch tag' other => exact ⟨other, rfl, related, hbisimulation, hstep⟩
    | _ => exact hstep.elim
  | recursion tag cell =>
    have hbound : heap.grammar cell = some target := hq
    cases p with
    | recursion tag' cell' =>
      cases hother : heap.grammar cell' with
      | none => simp [SameStep, hother, hbound] at hstep
      | some other =>
        have hrelated : related other target := by simpa [SameStep, hother, hbound] using hstep
        exact ⟨other, hother, related, hbisimulation, hrelated⟩
    | _ => exact hstep.elim
  | _ => cases hq

theorem Follows.looksThrough (h : heap.Follows p q) (hq : heap.LooksThrough q target) :
    heap.LooksThrough p target := by
  cases p with
  | latch tag inner =>
    obtain rfl : inner = q := Option.some.inj h
    exact .latch hq
  | recursion tag cell => exact .recursion h hq
  | _ => cases h

/-- An alias and a bound recursion pass on what holds of the pattern they lead to. -/
theorem Follows.exists_behind {next : Pattern} (hnext : heap.Follows q next)
    (hbehind : ∀ other, heap.Bisimilar other next →
      ∃ behind, heap.LooksThrough other behind ∧ heap.Bisimilar behind target) :
    ∀ p, heap.Bisimilar p q →
      ∃ behind, heap.LooksThrough p behind ∧ heap.Bisimilar behind target := by
  intro p hpq
  obtain ⟨other, hother, hsame⟩ := hpq.follows hnext
  obtain ⟨behind, hlooks, hequal⟩ := hbehind other hsame
  exact ⟨behind, hother.looksThrough hlooks, hequal⟩

theorem LooksThrough.of_bisimilar (h : heap.LooksThrough q target) :
    ∀ p, heap.Bisimilar p q →
      ∃ behind, heap.LooksThrough p behind ∧ heap.Bisimilar behind target := by
  induction h with
  | here plain =>
    intro p hpq
    exact ⟨p, .here (hpq.isPlain plain), hpq⟩
  | @latch tag inner _ _ ih =>
    have hnext : heap.Follows (.latch tag inner) inner := rfl
    exact hnext.exists_behind ih
  | @recursion tag cell inner _ bound _ ih =>
    have hnext : heap.Follows (.recursion tag cell) inner := bound
    exact hnext.exists_behind ih

/-! ## What an alternative admits -/

/-- Something stands behind each of the two patterns, and these are equal. -/
def EqualBehind (heap : Heap) (p q : Pattern) : Prop :=
  ∃ behind target, heap.LooksThrough p behind ∧ heap.LooksThrough q target ∧
    heap.equal behind target = true

/-- For a value with something behind its pattern, only what stands behind the alternative
counts. -/
theorem admits_iff (hvalue : heap.LooksThrough p target) :
    heap.admits element p = true ↔ heap.EqualBehind element p := by
  constructor
  · intro h
    rcases Bool.or_eq_true_iff.mp h with hequal | hbehind
    · obtain ⟨behind, hlooks, hsame⟩ :=
        hvalue.of_bisimilar element (equal_iff_bisimilar.mp hequal)
      exact ⟨behind, target, hlooks, hvalue, equal_iff_bisimilar.mpr hsame⟩
    · rw [hvalue.underlying_eq] at hbehind
      cases helement : heap.underlying element with
      | none =>
        rw [helement] at hbehind
        exact absurd hbehind nofun
      | some behind =>
        rw [helement] at hbehind
        exact ⟨behind, target, looksThrough_of_underlying helement, hvalue, hbehind⟩
  · intro h
    obtain ⟨behind, other, hlooks, hother, hequal⟩ := h
    apply Bool.or_eq_true_iff.mpr
    apply Or.inr
    rw [hlooks.underlying_eq, hother.underlying_eq]
    exact hequal

theorem Stuck.not_looksThrough (h : heap.Stuck p) : ¬ heap.LooksThrough p target :=
  fun hlooks => absurd (h.underlying_eq.symm.trans hlooks.underlying_eq) nofun

theorem Stuck.admits_eq_false (h : heap.Stuck element) (hvalue : heap.LooksThrough p target) :
    heap.admits element p = false := by
  apply Bool.eq_false_iff.mpr
  intro hadmits
  obtain ⟨behind, _, hlooks, _⟩ := (admits_iff hvalue).mp hadmits
  exact h.not_looksThrough hlooks

theorem LooksThrough.matchable_eq (h : heap.LooksThrough p target) :
    heap.matchable p = .ok target := by
  unfold matchable
  rw [h.underlying_eq]

theorem exists_matchAlternation_iff (hvalue : heap.LooksThrough value.pattern target) :
    (∃ m, heap.matchAlternation p value = .ok m) ↔
      ∃ tag elements, heap.LooksThrough p (.alternation tag elements) ∧
        ∃ element ∈ elements, heap.EqualBehind element value.pattern := by
  constructor
  · intro h
    obtain ⟨m, hm⟩ := h
    obtain ⟨_, tag, elements, hunder, element, helement, hadmits⟩ :=
      matchAlternation_eq_ok_iff.mp hm
    exact ⟨tag, elements, looksThrough_of_underlying hunder, element, helement,
      (admits_iff hvalue).mp hadmits⟩
  · intro h
    obtain ⟨tag, elements, hlooks, element, helement, hbehind⟩ := h
    exact ⟨_, matchAlternation_eq_ok_iff.mpr ⟨rfl, tag, elements, hlooks.underlying_eq, element,
      helement, (admits_iff hvalue).mpr hbehind⟩⟩

end Heap

/-! ## Sessions -/

namespace Session
variable {calls : List Call} {m : Match}

/-- Matches that can have been built once the given calls were made, each in the heap of its time
and from values that were there before. -/
inductive BuiltAfter : List Call → Match → Prop where
  | text {calls : List Call} {p : Pattern} {content : String} {m : Match}
      (built : (run {} calls).heap.matchText p content = .ok m) : BuiltAfter calls m
  | alternation {calls : List Call} {p : Pattern} {value m : Match}
      (earlier : BuiltAfter calls value)
      (built : (run {} calls).heap.matchAlternation p value = .ok m) : BuiltAfter calls m
  | concatenation {calls : List Call} {p : Pattern} {values : List Match} {m : Match}
      (earlier : ∀ value ∈ values, BuiltAfter calls value)
      (built : (run {} calls).heap.matchConcatenation p values = .ok m) : BuiltAfter calls m
  | repetition {calls : List Call} {p : Pattern} {values : List Match} {m : Match}
      (earlier : ∀ value ∈ values, BuiltAfter calls value)
      (built : (run {} calls).heap.matchRepetition p values = .ok m) : BuiltAfter calls m
  | located {calls : List Call} {m : Match} {span : Span} (earlier : BuiltAfter calls m) :
      BuiltAfter calls (m.withLocation span)
  | later {calls : List Call} {m : Match} (more : List Call) (earlier : BuiltAfter calls m) :
      BuiltAfter (calls ++ more) m

/-- Something stands behind the pattern of a match when it is built, and ever after. -/
theorem BuiltAfter.looksThrough (h : BuiltAfter calls m) :
    ∃ target, (run {} calls).heap.LooksThrough m.pattern target := by
  induction h with
  | text built =>
    obtain ⟨rfl, target, hunder, _⟩ := Heap.matchText_eq_ok_iff.mp built
    exact ⟨target, Heap.looksThrough_of_underlying hunder⟩
  | alternation _ built =>
    obtain ⟨rfl, tag, elements, hunder, _⟩ := Heap.matchAlternation_eq_ok_iff.mp built
    exact ⟨_, Heap.looksThrough_of_underlying hunder⟩
  | concatenation _ built =>
    obtain ⟨rfl, tag, elements, hunder, _⟩ := Heap.matchConcatenation_eq_ok_iff.mp built
    exact ⟨_, Heap.looksThrough_of_underlying hunder⟩
  | repetition _ built =>
    obtain ⟨rfl, tag, inner, min, max, hunder, _⟩ := Heap.matchRepetition_eq_ok_iff.mp built
    exact ⟨_, Heap.looksThrough_of_underlying hunder⟩
  | located _ ih => simpa using ih
  | later more _ ih =>
    obtain ⟨target, hlooks⟩ := ih
    exact ⟨target, (extends_run_append _ more).looksThrough hlooks⟩

/-- A match that was built in the course of a session has something behind its pattern from then on,
and an alternation takes it exactly when the pattern behind one of the alternatives equals that. An
alternative that leads to an unbound recursion or round in a circle admits no such match. -/
theorem alternation_takes_iff (h : BuiltAfter calls m) :
    let heap := (run {} calls).heap
    (∀ p, (∃ taken, heap.matchAlternation p m = .ok taken) ↔
      ∃ tag elements, heap.LooksThrough p (.alternation tag elements) ∧
        ∃ element ∈ elements, heap.EqualBehind element m.pattern) ∧
    (∀ element, heap.Stuck element → heap.admits element m.pattern = false) ∧
    ∀ more, ∃ target, (run {} (calls ++ more)).heap.LooksThrough m.pattern target ∧
      (run {} (calls ++ more)).heap.matchable m.pattern = .ok target := by
  intro heap
  obtain ⟨target, htarget⟩ := h.looksThrough
  refine ⟨?_, ?_, ?_⟩
  · intro p
    exact Heap.exists_matchAlternation_iff htarget
  · intro element hstuck
    exact hstuck.admits_eq_false htarget
  · intro more
    obtain ⟨behind, hbehind⟩ := (h.later more).looksThrough
    exact ⟨behind, hbehind, hbehind.matchable_eq⟩

/-- Cell 0 is bound to an alias of itself; cell 1 to a choice between it and an alias of a text. -/
def aliases : List Call :=
  [.newPlaceholder, .resolve 0 (.latched "loop" (.reference 0)) false, .newPlaceholder,
    .resolve 0 (.anyOf [.reference 0, .latched "letter" (.ofText "a")]) false]

/-- The text itself, built before any of the rules. -/
def earlyMatch : Match := .text (.ofText "a") "a" none

theorem alternation_takes_iff_aliased :
    BuiltAfter aliases earlyMatch ∧
    (∃ taken, (run {} aliases).heap.matchAlternation (.latched "choice" (.reference 1))
      earlyMatch = .ok taken) ∧
    (run {} aliases).heap.Stuck (.reference 0) ∧
    (run {} aliases).heap.admits (.reference 0) earlyMatch.pattern = false ∧
    ∃ target, (run {} (aliases ++ [.newPlaceholder])).heap.LooksThrough earlyMatch.pattern
      target ∧ (run {} (aliases ++ [.newPlaceholder])).heap.matchable earlyMatch.pattern =
        .ok target := by
  have early : BuiltAfter [] earlyMatch := .text (Heap.matchText_eq_ok_iff.mpr ⟨rfl, _, rfl, rfl⟩)
  have built : BuiltAfter aliases earlyMatch := early.later aliases
  have circle : (run {} aliases).heap.Stuck (.reference 0) := by
    let inner : Pattern := .recursion ⟨some 1, none⟩ 0
    let loop : Pattern := .latch ⟨some 0, some "loop"⟩ inner
    have hcell : (run {} aliases).heap.Follows (.reference 0) loop := rfl
    have hinner : (run {} aliases).heap.Follows inner loop := rfl
    have hloop : (run {} aliases).heap.Follows loop inner := rfl
    exact .follows hcell (.circular (.head hloop (.single hinner)))
  have behind : (run {} aliases).heap.LooksThrough (.latched "choice" (.reference 1))
      (.anyOf [.reference 0, .latched "letter" (.ofText "a")]) :=
    .latch (.recursion rfl (.here ⟨nofun, nofun⟩))
  obtain ⟨takes, admitsNot, matchable⟩ := alternation_takes_iff built
  refine ⟨built, (takes _).mpr ⟨_, _, behind, _, List.mem_cons_of_mem _ List.mem_cons_self, ?_⟩,
    circle, admitsNot _ circle, matchable [.newPlaceholder]⟩
  exact ⟨.ofText "a", .ofText "a", .latch (.here ⟨nofun, nofun⟩), .here ⟨nofun, nofun⟩,
    Heap.equal_refl _ _⟩

end Session
end PatternGraph
