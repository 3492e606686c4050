import PatternGraph.MatchTree

/-!
# When a match can be built

Each builder succeeds under one condition on what stands behind the pattern, and returns the value
under the pattern it was given. A builder that fails has left nothing behind, so its errors play no
part here.
-/

namespace PatternGraph
set_option autoImplicit false

/-- Whether a text is one that the pattern itself matches, as a literal or as a class. -/
def Pattern.acceptsText (content : String) : Pattern → Bool
  | .literal _ expected => expected == content
  | .characterClass _ cls => cls.acceptsText content.toList
  | _ => false

namespace Heap
variable {heap : Heap} {p : Pattern} {m : Match}

theorem of_matchable_bind {f : Pattern → Except MatchError Match}
    (h : (heap.matchable p >>= f) = .ok m) :
    ∃ target, heap.underlying p = some target ∧ f target = .ok m := by
  unfold matchable at h
  cases htarget : heap.underlying p with
  | none =>
    rw [htarget] at h
    exact absurd h nofun
  | some target =>
    rw [htarget] at h
    exact ⟨target, rfl, h⟩

theorem matchable_bind {target : Pattern} (h : heap.underlying p = some target)
    (f : Pattern → Except MatchError Match) : (heap.matchable p >>= f) = f target := by
  unfold matchable
  rw [h]
  rfl

theorem matchText_eq_ok_iff {content : String} :
    heap.matchText p content = .ok m ↔ m = .text p content none ∧
      ∃ target, heap.underlying p = some target ∧ target.acceptsText content = true := by
  constructor
  · intro h
    obtain ⟨target, htarget, h⟩ := of_matchable_bind h
    split at h
    · split at h
      · rename_i hsame
        exact ⟨(Except.ok.inj h).symm, _, htarget, beq_iff_eq.mpr hsame⟩
      · exact absurd h nofun
    · split at h
      · rename_i haccepts
        exact ⟨(Except.ok.inj h).symm, _, htarget, haccepts⟩
      · exact absurd h nofun
    · exact absurd h nofun
  · intro h
    obtain ⟨rfl, target, htarget, haccepts⟩ := h
    unfold matchText
    rw [matchable_bind htarget]
    cases target with
    | literal tag expected => exact if_pos (beq_iff_eq.mp haccepts)
    | characterClass tag cls => exact if_pos haccepts
    | _ => exact absurd haccepts nofun

theorem matchAlternation_eq_ok_iff {value : Match} :
    heap.matchAlternation p value = .ok m ↔ m = .alternative p value none ∧
      ∃ tag elements, heap.underlying p = some (.alternation tag elements) ∧
        ∃ element ∈ elements, heap.admits element value.pattern = true := by
  constructor
  · intro h
    obtain ⟨target, htarget, h⟩ := of_matchable_bind h
    split at h
    · split at h
      · rename_i hadmits
        exact ⟨(Except.ok.inj h).symm, _, _, htarget, List.any_eq_true.mp hadmits⟩
      · exact absurd h nofun
    · exact absurd h nofun
  · intro h
    obtain ⟨rfl, tag, elements, htarget, hadmits⟩ := h
    unfold matchAlternation
    rw [matchable_bind htarget]
    exact if_pos (List.any_eq_true.mpr hadmits)

theorem matchConcatenation_eq_ok_iff {values : List Match} :
    heap.matchConcatenation p values = .ok m ↔ m = .sequence p values none ∧
      ∃ tag elements, heap.underlying p = some (.concatenation tag elements) ∧
        elements.length = values.length := by
  constructor
  · intro h
    obtain ⟨target, htarget, h⟩ := of_matchable_bind h
    split at h
    · split at h
      · rename_i hlength
        exact ⟨(Except.ok.inj h).symm, _, _, htarget, hlength⟩
      · exact absurd h nofun
    · exact absurd h nofun
  · intro h
    obtain ⟨rfl, tag, elements, htarget, hlength⟩ := h
    unfold matchConcatenation
    rw [matchable_bind htarget]
    exact if_pos hlength

theorem matchRepetition_eq_ok_iff {values : List Match} :
    heap.matchRepetition p values = .ok m ↔ m = .sequence p values none ∧
      ∃ tag inner min max, heap.underlying p = some (.repetition tag inner min max) ∧
        withinBounds min max values.length = true := by
  constructor
  · intro h
    obtain ⟨target, htarget, h⟩ := of_matchable_bind h
    split at h
    · split at h
      · rename_i hcount
        exact ⟨(Except.ok.inj h).symm, _, _, _, _, htarget, hcount⟩
      · exact absurd h nofun
    · exact absurd h nofun
  · intro h
    obtain ⟨rfl, tag, inner, min, max, htarget, hcount⟩ := h
    unfold matchRepetition
    rw [matchable_bind htarget]
    exact if_pos hcount

end Heap
end PatternGraph
