import PatternGraph.MatchTree
import PatternGraph.Proofs.LanguageLaws
import PatternGraph.Proofs.UnrolledWalk

/-!
# What stands behind a pattern

Following latches and bound recursions either ends at a pattern of another form or does not end.
The guarded walk finds exactly the former, and what it finds has the words of the pattern it
started from. Binding cells that were unbound changes neither what was found before nor which words
there were, though it may add some.
-/

namespace PatternGraph
set_option autoImplicit false

/-- Neither a latch nor a recursion. -/
def Pattern.IsPlain (p : Pattern) : Prop := p.kind ≠ .latch ∧ p.kind ≠ .recursion

namespace Heap
variable {heap later : Heap} {p q target : Pattern}

/-- Latches and bound recursions lead from the first pattern to the second one, which is plain. -/
inductive LooksThrough (heap : Heap) : Pattern → Pattern → Prop where
  | here {p : Pattern} (plain : p.IsPlain) : LooksThrough heap p p
  | latch {tag : Tag} {p target : Pattern} (through : LooksThrough heap p target) :
      LooksThrough heap (.latch tag p) target
  | recursion {tag : Tag} {cell : Nat} {p target : Pattern} (bound : heap.grammar cell = some p)
      (through : LooksThrough heap p target) : LooksThrough heap (.recursion tag cell) target

end Heap

/-! ## The walk -/

theorem Pattern.underlyingWith_of_isPlain {p : Pattern} (h : p.IsPlain)
    (atCell : Nat → Option Pattern) : p.underlyingWith atCell = some p := by
  cases p with
  | latch => exact absurd rfl h.1
  | recursion => exact absurd rfl h.2
  | _ => rfl

theorem underlyingWalk_monotone : underlyingWalk.Monotone where
  below atCell atCell' p h := by
    induction p with
    | latch tag target ih => exact ih
    | recursion tag cell => exact h cell
    | _ => exact .refl _

namespace Heap
variable {heap later : Heap} {p q target : Pattern}

theorem underlying_of_isPlain (h : p.IsPlain) : heap.underlying p = some p :=
  Pattern.underlyingWith_of_isPlain h _

theorem underlying_latch (heap : Heap) (tag : Tag) (p : Pattern) :
    heap.underlying (.latch tag p) = heap.underlying p := rfl

theorem underlying_recursion {cell : Nat} (h : heap.grammar cell = some p) (tag : Tag) :
    heap.underlying (.recursion tag cell) = heap.underlying p :=
  underlyingWalk_monotone.atCell_eq_run h

theorem looksThrough_of_underlyingWith {atCell : Nat → Option Pattern}
    (cells : ∀ c target, atCell c = some target →
      ∀ tag, heap.LooksThrough (.recursion tag c) target)
    (h : p.underlyingWith atCell = some target) : heap.LooksThrough p target := by
  induction p with
  | latch tag inner ih => exact .latch (ih h)
  | recursion tag cell => exact cells cell target h tag
  | _ =>
    obtain rfl := Option.some.inj h
    exact .here ⟨nofun, nofun⟩

theorem looksThrough_of_underlying (h : heap.underlying p = some target) :
    heap.LooksThrough p target := by
  refine looksThrough_of_underlyingWith ?_ h
  refine Walk.atCell_induction (P := fun c (answer : Option Pattern) => ∀ target,
      answer = some target → ∀ tag, heap.LooksThrough (.recursion tag c) target)
    ?onRepeat ?onUnbound ?onTree _ _
  case onRepeat | onUnbound => exact nofun
  case onTree =>
    intro c p atCell hbound hcells target htarget tag
    exact .recursion hbound (looksThrough_of_underlyingWith hcells htarget)

theorem LooksThrough.underlying_eq (h : heap.LooksThrough p target) :
    heap.underlying p = some target := by
  induction h with
  | here plain => exact underlying_of_isPlain plain
  | latch _ ih => rwa [underlying_latch]
  | recursion bound _ ih => rwa [underlying_recursion bound]

theorem underlying_eq_some_iff : heap.underlying p = some target ↔ heap.LooksThrough p target :=
  ⟨looksThrough_of_underlying, LooksThrough.underlying_eq⟩

theorem LooksThrough.language_eq (h : heap.LooksThrough p target) :
    heap.language p = heap.language target := by
  induction h with
  | here _ => rfl
  | latch _ ih => exact ih
  | recursion bound _ ih => exact (cellLanguage_of_bound bound).trans ih

theorem language_of_underlying (h : heap.underlying p = some target) :
    heap.language p = heap.language target :=
  (looksThrough_of_underlying h).language_eq

/-! ## Later heaps -/

/-- Every bound cell is bound alike in the later heap. -/
def Extends (later heap : Heap) : Prop :=
  ∀ c p, heap.grammar c = some p → later.grammar c = some p

namespace Extends

theorem looksThrough (h : later.Extends heap) (hp : heap.LooksThrough p target) :
    later.LooksThrough p target := by
  induction hp with
  | here plain => exact .here plain
  | latch _ ih => exact .latch ih
  | recursion bound _ ih => exact .recursion (h _ _ bound) ih

theorem underlying_eq (h : later.Extends heap) (hp : heap.underlying p = some target) :
    later.underlying p = some target :=
  (h.looksThrough (looksThrough_of_underlying hp)).underlying_eq

theorem language_le (h : later.Extends heap) (p : Pattern) :
    heap.language p ≤ later.language p := by
  apply language_mono
  apply cellLanguage_le
  intro c q hbound
  exact later.closed_cellLanguage c q (h c q hbound)

end Extends
end Heap
end PatternGraph
