import Mathlib.Data.List.Forall2
import PatternGraph.MatchLevels

/-!
# Matches that agree level by level

Whether two matches agree at every path is settled at their own level and by their values, in order.
A match is finite, so a comparison that goes on from one level to the values below in this way is
the same as agreement. Agreement is an equivalence relation when what it asks of a level is one, and
agreement that includes the locations splits into agreement without them and same locations.
-/

namespace PatternGraph
set_option autoImplicit false

/-! ## Related options -/

section
variable {α β : Type} {related others : α → β → Prop}

theorem rel_equivalence {same : α → α → Prop} (h : Equivalence same) :
    Equivalence (Option.Rel same) := by
  refine ⟨?_, ?_, ?_⟩
  · intro x
    cases x with
    | none => exact .none
    | some a => exact .some (h.refl a)
  · intro x y hxy
    cases hxy with
    | none => exact .none
    | some hab => exact .some (h.symm hab)
  · intro x y z hxy hyz
    cases hxy with
    | none => exact hyz
    | some hab =>
      cases hyz with
      | some hbc => exact .some (h.trans hab hbc)

theorem rel_mono (weaker : ∀ a b, related a b → others a b) {x : Option α} {y : Option β}
    (h : Option.Rel related x y) : Option.Rel others x y := by
  cases h with
  | none => exact .none
  | some hab => exact .some (weaker _ _ hab)

theorem rel_bind {γ δ : Type} {results : γ → δ → Prop} {f : α → Option γ} {g : β → Option δ}
    (each : ∀ a b, related a b → Option.Rel results (f a) (g b)) {x : Option α} {y : Option β}
    (h : Option.Rel related x y) : Option.Rel results (x.bind f) (y.bind g) := by
  cases h with
  | none => exact .none
  | some hab => exact each _ _ hab

theorem forall₂_iff_getElem? {as : List α} {bs : List β} :
    List.Forall₂ related as bs ↔
      ∀ position : Nat, Option.Rel related as[position]? bs[position]? := by
  constructor
  · intro h
    induction h with
    | nil => exact fun _ => .none
    | cons hab _ ih =>
      intro position
      cases position with
      | zero => exact .some hab
      | succ position => exact ih position
  · intro h
    induction as generalizing bs with
    | nil =>
      cases bs with
      | nil => exact .nil
      | cons b bs => exact absurd (h 0) nofun
    | cons a as ih =>
      cases bs with
      | nil => exact absurd (h 0) nofun
      | cons b bs =>
        exact .cons (Option.rel_some_some.mp (h 0)) (ih fun position => h (position + 1))

end

namespace Match
variable {patterns others : Pattern → Pattern → Prop}
variable {locations places : Option Span → Option Span → Prop} {a b : Match}

/-- Induction with one hypothesis for every value, whatever the form. -/
theorem induction {motive : Match → Prop}
    (level : ∀ m : Match, (∀ value ∈ m.values, motive value) → motive m) (m : Match) : motive m :=
  Match.rec (fun _ _ _ => level _ nofun)
    (fun _ _ _ chosen => level _ fun _ hvalue => List.mem_singleton.mp hvalue ▸ chosen)
    (fun _ _ _ values => level _ values) (fun _ hvalue => absurd hvalue List.not_mem_nil)
    (fun _ _ head tail => List.forall_mem_cons.mpr ⟨head, tail⟩) m

/-! ## One level -/

theorem length_values_eq_of_form_eq (h : a.form = b.form) : a.values.length = b.values.length := by
  cases a with
  | text =>
    cases b with
    | text => rfl
    | _ => exact absurd h nofun
  | alternative =>
    cases b with
    | alternative => rfl
    | _ => exact absurd h nofun
  | sequence =>
    cases b with
    | sequence => exact Form.sequence.inj h
    | _ => exact absurd h nofun

/-- Matches agree when their own levels do and their values agree in order. -/
theorem agree_iff : a.Agree patterns locations b ↔
    SameLevel patterns locations a b ∧
      List.Forall₂ (Agree patterns locations) a.values b.values := by
  constructor
  · intro h
    refine ⟨Option.rel_some_some.mp (h []), forall₂_iff_getElem?.mpr ?_⟩
    intro position
    have hbelow : ∀ path, Option.Rel (SameLevel patterns locations)
        (a.values[position]?.bind (level path)) (b.values[position]?.bind (level path)) :=
      fun path => h (position :: path)
    cases ha : a.values[position]? <;> cases hb : b.values[position]? <;>
      simp only [ha, hb, Option.bind_none, Option.bind_some] at hbelow
    · exact .none
    · exact absurd (hbelow []) nofun
    · exact absurd (hbelow []) nofun
    · exact .some hbelow
  · intro h path
    obtain ⟨hlevel, hvalues⟩ := h
    cases path with
    | nil => exact .some hlevel
    | cons position path =>
      exact rel_bind (fun _ _ hagree => hagree path) (forall₂_iff_getElem?.mp hvalues position)

theorem forall₂_iff_of_mem {α : Type} {as bs : List α} {related others : α → α → Prop}
    (each : ∀ a ∈ as, ∀ b, related a b ↔ others a b) :
    List.Forall₂ related as bs ↔ List.Forall₂ others as bs := by
  induction as generalizing bs with
  | nil => simp
  | cons a as ih =>
    obtain ⟨ha, has⟩ := List.forall_mem_cons.mp each
    cases bs with
    | nil => simp
    | cons b bs => rw [List.forall₂_cons, List.forall₂_cons, ha b, ih has]

/-- A comparison that goes on with the values in order compares levels, because matches are
finite. -/
theorem iff_agree_of_level (related : Match → Match → Prop)
    (level : ∀ a b, related a b ↔
      SameLevel patterns locations a b ∧ List.Forall₂ related a.values b.values) (a : Match) :
    ∀ b, related a b ↔ a.Agree patterns locations b := by
  induction a using induction with
  | level a ih =>
    intro b
    rw [level, agree_iff, forall₂_iff_of_mem ih]

/-! What an equality has to do with two matches of one form. -/

section
variable {related : Match → Match → Prop} {p q : Pattern} {l l' : Option Span}

theorem text_level_iff {content content' : String} :
    SameLevel patterns locations (.text p content l) (.text q content' l') ∧
        List.Forall₂ related (text p content l).values (text q content' l').values ↔
      patterns p q ∧ locations l l' ∧ content = content' := by
  constructor
  · intro h
    exact ⟨h.1.pattern, h.1.location, Form.text.inj h.1.form⟩
  · intro h
    obtain ⟨hpattern, hlocation, rfl⟩ := h
    exact ⟨⟨rfl, hpattern, hlocation⟩, .nil⟩

theorem alternative_level_iff {chosen chosen' : Match} :
    SameLevel patterns locations (.alternative p chosen l) (.alternative q chosen' l') ∧
        List.Forall₂ related (alternative p chosen l).values (alternative q chosen' l').values ↔
      patterns p q ∧ locations l l' ∧ related chosen chosen' := by
  constructor
  · intro h
    exact ⟨h.1.pattern, h.1.location, (List.forall₂_cons.mp h.2).1⟩
  · intro h
    obtain ⟨hpattern, hlocation, hchosen⟩ := h
    exact ⟨⟨rfl, hpattern, hlocation⟩, .cons hchosen .nil⟩

/-- The number of values is part of the form, and it agrees where the values do. -/
theorem sequence_level_iff {values values' : List Match} :
    SameLevel patterns locations (.sequence p values l) (.sequence q values' l') ∧
        List.Forall₂ related (sequence p values l).values (sequence q values' l').values ↔
      patterns p q ∧ locations l l' ∧ List.Forall₂ related values values' := by
  constructor
  · intro h
    exact ⟨h.1.pattern, h.1.location, h.2⟩
  · intro h
    obtain ⟨hpattern, hlocation, hvalues⟩ := h
    exact ⟨⟨congrArg Form.sequence hvalues.length_eq, hpattern, hlocation⟩, hvalues⟩

end

/-! ## Agreement -/

theorem SameLevel.mono (weaker : ∀ p q, patterns p q → others p q)
    (wider : ∀ l l', locations l l' → places l l') (h : SameLevel patterns locations a b) :
    SameLevel others places a b :=
  ⟨h.form, weaker _ _ h.pattern, wider _ _ h.location⟩

theorem Agree.mono (weaker : ∀ p q, patterns p q → others p q)
    (wider : ∀ l l', locations l l' → places l l') (h : a.Agree patterns locations b) :
    a.Agree others places b :=
  fun path => rel_mono (fun _ _ hlevel => hlevel.mono weaker wider) (h path)

theorem sameLevel_equivalence (hpatterns : Equivalence patterns)
    (hlocations : Equivalence locations) : Equivalence (SameLevel patterns locations) := by
  refine ⟨?_, ?_, ?_⟩
  · intro a
    exact ⟨rfl, hpatterns.refl _, hlocations.refl _⟩
  · intro a b h
    exact ⟨h.form.symm, hpatterns.symm h.pattern, hlocations.symm h.location⟩
  · intro a b c h k
    exact ⟨h.form.trans k.form, hpatterns.trans h.pattern k.pattern,
      hlocations.trans h.location k.location⟩

theorem agree_equivalence (hpatterns : Equivalence patterns) (hlocations : Equivalence locations) :
    Equivalence (Agree patterns locations) := by
  have hlevels := rel_equivalence (sameLevel_equivalence hpatterns hlocations)
  refine ⟨?_, ?_, ?_⟩
  · intro a path
    exact hlevels.refl _
  · intro a b h path
    exact hlevels.symm (h path)
  · intro a b c h k path
    exact hlevels.trans (h path) (k path)

/-- To compare the locations as well is to compare them on their own. -/
theorem agree_eq_iff : a.Agree patterns Eq b ↔
    a.Agree patterns (fun _ _ => True) b ∧ a.SameLocations b := by
  have hlevel : ∀ x y : Option Match, Option.Rel (SameLevel patterns Eq) x y ↔
      Option.Rel (SameLevel patterns fun _ _ => True) x y ∧ x.map location = y.map location := by
    intro x y
    constructor
    · intro h
      cases h with
      | none => exact ⟨.none, rfl⟩
      | some h => exact ⟨.some ⟨h.form, h.pattern, trivial⟩, congrArg some h.location⟩
    · intro h
      obtain ⟨hrel, hlocation⟩ := h
      cases hrel with
      | none => exact .none
      | some h => exact .some ⟨h.form, h.pattern, Option.some.inj hlocation⟩
  calc a.Agree patterns Eq b
    _ ↔ ∀ path, Option.Rel (SameLevel patterns fun _ _ => True) (a.level path) (b.level path) ∧
        (a.level path).map location = (b.level path).map location :=
      forall_congr' fun path => hlevel _ _
    _ ↔ a.Agree patterns (fun _ _ => True) b ∧ a.SameLocations b := forall_and

end Match
end PatternGraph
