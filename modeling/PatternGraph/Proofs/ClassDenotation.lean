import PatternGraph.ClassExpression

/-!
# Classes denote sets

Evaluating a class expression fails exactly when some item given to it runs backwards, and reports
the first such item in evaluation order. Otherwise the class includes exactly the characters of
the set that the expression stands for. Both halves go along together: `Checks` says of a
computation which items it checks and what holds of its result, and one computation after another
checks the items of both in order. The arithmetic lies in what is left of a range when a cut is
taken out of it: at the ends of the range and of the alphabet, and at the surrogate gap.
-/

namespace PatternGraph
set_option autoImplicit false

/-! ## Removing one item -/

namespace ClassItem

theorem includes_single {c d : Char} : (single d).includes c = true ↔ c = d := by
  rw [includes_iff]
  constructor
  · rintro ⟨hge, hle⟩
    exact Char.le_antisymm hle hge
  · rintro rfl
    exact ⟨Char.le_refl c, Char.le_refl c⟩

theorem any_includes_upTo (first bound c : Char) :
    (upTo first bound).any (·.includes c) = true ↔ first ≤ c ∧ c < bound := by
  have hc := char_range c
  unfold upTo
  by_cases h : first < bound
  · rw [dif_pos h]
    rw [char_lt_iff] at h
    simp only [List.any_cons, List.any_nil, Bool.or_false, includes_iff, lowest, highest,
      char_le_iff, char_lt_iff, toNat_charBefore (show 0 < bound.toNat by omega)]
    split <;> omega
  · rw [dif_neg h]
    refine iff_of_false (by simp) ?_
    simp only [char_le_iff, char_lt_iff] at *
    omega

theorem any_includes_beyond (bound last c : Char) :
    (beyond bound last).any (·.includes c) = true ↔ bound < c ∧ c ≤ last := by
  have hc := char_range c
  have hlast := char_range last
  unfold beyond
  by_cases h : bound < last
  · rw [dif_pos h]
    rw [char_lt_iff] at h
    simp only [List.any_cons, List.any_nil, Bool.or_false, includes_iff, lowest, highest,
      char_le_iff, char_lt_iff, toNat_charAfter (show bound.toNat < 0x10FFFF by omega)]
    split <;> omega
  · rw [dif_neg h]
    refine iff_of_false (by simp) ?_
    simp only [char_le_iff, char_lt_iff] at *
    omega

/-- What is left of an item are its characters that the cut does not cover. -/
theorem any_includes_without (cut item : ClassItem) (c : Char) :
    (cut.without item).any (·.includes c) = true ↔
      item.includes c = true ∧ ¬ cut.includes c = true := by
  cases item with
  | single d =>
    simp only [without, includes_single]
    by_cases hcovered : cut.includes d = true
    · rw [if_pos hcovered]
      refine iff_of_false (by simp) ?_
      rintro ⟨rfl, houtside⟩
      exact houtside hcovered
    · rw [if_neg hcovered]
      simp only [List.any_cons, List.any_nil, Bool.or_false, includes_single]
      constructor
      · rintro rfl
        exact ⟨rfl, hcovered⟩
      · exact And.left
  | range first last ordered =>
    have hcut := cut.lowest_le_highest
    simp only [without, includes_iff]
    by_cases hapart : cut.highest < first ∨ last < cut.lowest
    · rw [if_pos hapart]
      simp only [List.any_cons, List.any_nil, Bool.or_false, includes_iff, lowest, highest,
        char_le_iff, char_lt_iff] at hapart ⊢
      omega
    · rw [if_neg hapart, List.any_append, Bool.or_eq_true, any_includes_upTo,
        any_includes_beyond]
      simp only [lowest, highest, char_le_iff, char_lt_iff] at hapart hcut ordered ⊢
      omega

@[simp] theorem isInverted_toRaw (item : ClassItem) : item.toRaw.isInverted = false := by
  cases item with
  | single c => rfl
  | range first last ordered =>
    simp only [toRaw, RawItem.isInverted, decide_eq_false_iff_not]
    exact Nat.not_lt.mpr ordered

end ClassItem

namespace CharacterClass

/-- The class includes exactly the characters of the set. -/
def Denotes (cls : CharacterClass) (characters : Set Char) : Prop :=
  ∀ c, cls.includes c = true ↔ c ∈ characters

theorem includes_remove (cls : CharacterClass) (cut : ClassItem) (c : Char) :
    (cls.remove cut).includes c = true ↔ cls.includes c = true ∧ ¬ cut.includes c = true := by
  have hresidue : (cls.remove cut).includes c =
      cls.items.any fun item => (cut.without item).any (·.includes c) := List.any_flatMap
  rw [hresidue, List.any_eq_true, includes_iff cls]
  simp only [ClassItem.any_includes_without]
  constructor
  · rintro ⟨item, hmember, hincludes, houtside⟩
    exact ⟨⟨item, hmember, hincludes⟩, houtside⟩
  · rintro ⟨⟨item, hmember, hincludes⟩, houtside⟩
    exact ⟨item, hmember, hincludes, houtside⟩

end CharacterClass

/-! ## Checking items in order -/

/-- The computation fails at the first of the items that runs backwards; when there is none, it
succeeds and its result has the property. -/
def Checks {α : Type} (items : List RawItem) (property : α → Prop) :
    Except ClassError α → Prop
  | .error (.invertedRange first last) =>
    items.find? RawItem.isInverted = some (.range first last)
  | .ok result => items.find? RawItem.isInverted = none ∧ property result

namespace Checks
variable {α β : Type} {items more : List RawItem} {property : α → Prop} {later : β → Prop}

theorem pure {a : α} (h : property a) : Checks [] property (Pure.pure a) := ⟨rfl, h⟩

/-- What the second computation checks comes after what the first one does. -/
theorem bind {x : Except ClassError α} {f : α → Except ClassError β} (h : Checks items property x)
    (hf : ∀ a, property a → Checks more later (f a)) : Checks (items ++ more) later (x >>= f) := by
  match x, h with
  | .error (.invertedRange first last), h =>
    show List.find? _ _ = _
    rw [List.find?_append, h, Option.some_or]
  | .ok a, ⟨hnone, ha⟩ =>
    have happend : (items ++ more).find? RawItem.isInverted = more.find? RawItem.isInverted := by
      rw [List.find?_append, hnone, Option.none_or]
    have hnext := hf a ha
    show Checks (items ++ more) later (f a)
    unfold Checks at hnext ⊢
    rwa [happend]

/-- The last step cannot fail. -/
theorem map {x : Except ClassError α} {f : α → β} (h : Checks items property x)
    (hf : ∀ a, property a → later (f a)) :
    Checks items later (x >>= fun a => Pure.pure (f a)) := by
  have hboth := h.bind fun a ha => Checks.pure (hf a ha)
  rwa [List.append_nil] at hboth

theorem error_iff {x : Except ClassError α} (h : Checks items property x) (first last : Char) :
    x = .error (.invertedRange first last) ↔
      items.find? RawItem.isInverted = some (.range first last) := by
  match x, h with
  | .error (.invertedRange _ _), h =>
    have hfound : items.find? RawItem.isInverted = _ := h
    simp [hfound]
  | .ok a, ⟨hnone, _⟩ => simp [hnone]

theorem exists_error_iff {x : Except ClassError α} (h : Checks items property x) :
    (∃ error, x = .error error) ↔ ∃ item ∈ items, item.isInverted = true := by
  match x, h with
  | .error (.invertedRange first last), h =>
    have hfound : items.find? RawItem.isInverted = some (.range first last) := h
    exact ⟨fun _ => ⟨_, List.mem_of_find?_eq_some hfound, List.find?_some hfound⟩,
      fun _ => ⟨_, rfl⟩⟩
  | .ok a, ⟨hnone, _⟩ =>
    refine iff_of_false nofun ?_
    rintro ⟨item, hitem, hinverted⟩
    exact List.find?_eq_none.mp hnone item hitem hinverted

end Checks

theorem RawItem.checks_check (item : RawItem) :
    Checks [item] (fun checked => ∀ c, checked.includes c = true ↔ c ∈ item.characters)
      item.check := by
  cases item with
  | single d => exact ⟨rfl, fun c => ClassItem.includes_single⟩
  | range first last =>
    simp only [check]
    by_cases ordered : first ≤ last
    · rw [dif_pos ordered]
      have hkept : (range first last).isInverted = false :=
        ClassItem.isInverted_toRaw (.range first last ordered)
      exact ⟨by simp [hkept], fun c => ClassItem.includes_iff _ c⟩
    · rw [dif_neg ordered]
      have hinverted : (range first last).isInverted = true :=
        decide_eq_true (Nat.not_le.mp ordered)
      show List.find? _ _ = _
      simp [hinverted]

/-! ## Class operations -/

namespace CharacterClass
variable {cls left right : CharacterClass} {characters others : Set Char}

theorem Denotes.union (hleft : left.Denotes characters) (hright : right.Denotes others) :
    (left.union right).Denotes (characters ∪ others) := by
  intro c
  rw [includes_union, Bool.or_eq_true, hleft c, hright c]
  exact Iff.rfl

theorem Denotes.insertChar (h : cls.Denotes characters) (d : Char) :
    (cls.insertChar d).Denotes (characters ∪ {d}) := by
  intro c
  rw [includes_insertChar, Bool.or_eq_true, h c, ClassItem.includes_single]
  exact Iff.rfl

theorem checks_ofItems (items : List RawItem) :
    Checks items (Denotes · (RawItem.charactersOf items)) (ofItems items) := by
  induction items with
  | nil => exact ⟨rfl, fun c => by simp [RawItem.charactersOf, includes]⟩
  | cons item rest ih =>
    have hcons : ofItems (item :: rest) =
        item.check >>= fun checked => ofItems rest >>= fun tail =>
          Pure.pure ⟨checked :: tail.items⟩ := by
      simp [ofItems]
    rw [hcons]
    apply item.checks_check.bind
    intro checked hchecked
    apply ih.map
    intro tail htail c
    have hsplit : (⟨checked :: tail.items⟩ : CharacterClass).includes c =
        (checked.includes c || tail.includes c) := by
      simp [includes]
    rw [hsplit, Bool.or_eq_true, hchecked c, htail c]
    simp [RawItem.charactersOf]

theorem checks_except (removed : List RawItem) (h : cls.Denotes characters) :
    Checks removed (Denotes · (characters \ RawItem.charactersOf removed))
      (cls.except removed) := by
  induction removed generalizing cls characters with
  | nil =>
    refine ⟨rfl, fun c => ?_⟩
    rw [h c]
    simp [RawItem.charactersOf]
  | cons cut rest ih =>
    have hcons : cls.except (cut :: rest) =
        cut.check >>= fun checked => (cls.remove checked).except rest := by
      simp [except]
    rw [hcons]
    apply cut.checks_check.bind
    intro checked hchecked
    have hremoved : (cls.remove checked).Denotes (characters \ cut.characters) := by
      intro c
      rw [includes_remove, h c, hchecked c]
      exact Iff.rfl
    have hset : characters \ RawItem.charactersOf (cut :: rest) =
        (characters \ cut.characters) \ RawItem.charactersOf rest := by
      ext c
      simp [RawItem.charactersOf, and_assoc]
    rw [hset]
    exact ih hremoved

theorem checks_insertItem (item : RawItem) (h : cls.Denotes characters) :
    Checks [item] (Denotes · (characters ∪ item.characters)) (cls.insertItem item) := by
  apply item.checks_check.map
  intro checked hchecked c
  have hsplit : (⟨cls.items ++ [checked]⟩ : CharacterClass).includes c =
      (cls.includes c || checked.includes c) := by
    simp [includes]
  rw [hsplit, Bool.or_eq_true, h c, hchecked c]
  exact Iff.rfl

end CharacterClass

/-! ## Expressions -/

namespace ClassExpression

theorem checks_evaluate (expression : ClassExpression) :
    Checks expression.given (·.Denotes expression.characters) expression.evaluate := by
  induction expression with
  | ofItems items => exact CharacterClass.checks_ofItems items
  | empty => exact .pure fun c => by simp [characters]
  | except cls removed ih => exact ih.bind fun _ hcls => CharacterClass.checks_except removed hcls
  | union left right hleft hright =>
    exact hleft.bind fun _ hfirst => hright.map fun _ hsecond => hfirst.union hsecond
  | withChar cls c ih =>
    exact ih.bind fun _ hcls => ⟨rfl, hcls.insertChar c⟩
  | withItem cls item ih =>
    exact ih.bind fun _ hcls => CharacterClass.checks_insertItem item hcls

/-- A class expression fails exactly when some item given to it runs backwards, with the first one
in evaluation order as the error; otherwise no range of the class runs backwards, and the class
includes exactly the characters of the set that the expression stands for. -/
theorem evaluate_denotes (expression : ClassExpression) :
    ((∃ error, expression.evaluate = .error error) ↔
      ∃ item ∈ expression.given, item.isInverted = true) ∧
    (∀ first last, expression.evaluate = .error (.invertedRange first last) ↔
      expression.given.find? RawItem.isInverted = some (.range first last)) ∧
    ∀ cls, expression.evaluate = .ok cls →
      (∀ item ∈ cls.items, item.toRaw.isInverted = false) ∧
      ∀ c, cls.includes c = true ↔ c ∈ expression.characters := by
  have hchecks := expression.checks_evaluate
  refine ⟨hchecks.exists_error_iff, hchecks.error_iff, ?_⟩
  intro cls hok
  rw [hok] at hchecks
  exact ⟨fun item _ => item.isInverted_toRaw, hchecks.2⟩

/-- A cut beside the surrogate gap is stepped over to the other side. -/
example : ((ofItems [.range '\ud000' '\uf000']).except [.single '\ue000']).evaluate =
    .ok ⟨[.range '\ud000' '\ud7ff' (by decide), .range '\ue001' '\uf000' (by decide)]⟩ := rfl

end ClassExpression
end PatternGraph
