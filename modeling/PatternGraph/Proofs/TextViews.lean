import Mathlib.Data.List.Basic
import PatternGraph.MatchText

/-!
# Comparing a text without building it

A given text is compared with a match by taking the leaves off its front, and the length is counted
leaf by leaf. Whatever stands behind the text of a match is left over, so the comparison succeeds
exactly on the text itself, and neither empty leaves nor leaves that other leaves begin with change
this. A text is a list of characters here; how many bytes one takes plays no part.
-/

namespace PatternGraph
set_option autoImplicit false

namespace Match

mutual
/-- The text of the match is taken off, and what stands behind it is left. -/
theorem stripFrom_eq_some_iff : ∀ (m : Match) {whole after : List Char},
    m.stripFrom whole = some after ↔ m.display.toList ++ after = whole
  | .text _ _ _, _, _ => List.isPrefixOf?_eq_some_iff_append_eq
  | .alternative _ chosen _, _, _ => stripFrom_eq_some_iff chosen
  | .sequence _ values _, _, _ => stripAllFrom_eq_some_iff values

theorem stripAllFrom_eq_some_iff : ∀ (values : List Match) {whole after : List Char},
    stripAllFrom values whole = some after ↔ (displayAll values).toList ++ after = whole
  | [], whole, after => by
    rw [stripAllFrom, Option.some.injEq, displayAll, String.toList_empty, List.nil_append]
    exact eq_comm
  | value :: rest, whole, after => by
    rw [stripAllFrom, displayAll, String.toList_append, List.append_assoc,
      Option.bind_eq_some_iff]
    constructor
    · intro h
      obtain ⟨between, hvalue, hrest⟩ := h
      rw [(stripAllFrom_eq_some_iff rest).mp hrest]
      exact (stripFrom_eq_some_iff value).mp hvalue
    · intro hwhole
      exact ⟨_, (stripFrom_eq_some_iff value).mpr hwhole, (stripAllFrom_eq_some_iff rest).mpr rfl⟩
end

/-- A match equals a text exactly when its own text is that one, and its length is the number of
characters of its text. -/
theorem equalsText_iff_and_length_eq (m : Match) (whole : String) :
    (m.equalsText whole = true ↔ m.display = whole) ∧ m.length = m.display.length := by
  refine ⟨?_, m.length_display.symm⟩
  calc m.equalsText whole = true
    _ ↔ m.stripFrom whole.toList = some [] := beq_iff_eq
    _ ↔ m.display.toList ++ [] = whole.toList := m.stripFrom_eq_some_iff
    _ ↔ m.display = whole := by rw [List.append_nil, String.toList_inj]

end Match
end PatternGraph
