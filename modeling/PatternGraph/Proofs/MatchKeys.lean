import PatternGraph.MatchEquality
import PatternGraph.Proofs.HashInjectivity
import PatternGraph.Proofs.MatchAgreement

/-!
# Equality, keys and hashes of matches

Equality and key equality compare two matches level by level, and the two hash streams are put
together level by level. Each of the four is therefore settled by what it does at one level: the
equalities are the relations that such a comparison defines, and a stream tells its levels apart
because every part of a level says where it ends. Locations take part in keys at every level and in
equality at none; hash streams read the patterns without their recursions.
-/

namespace PatternGraph
set_option autoImplicit false

/-! ## The two equalities -/

namespace Heap
variable {heap : Heap} {a b : Match}

theorem equalMatches_iff {as bs : List Match} : heap.equalMatches as bs = true ↔
    List.Forall₂ (fun a b => heap.equalMatch a b = true) as bs := by
  induction as generalizing bs with
  | nil => cases bs <;> simp [equalMatches]
  | cons a as ih => cases bs <;> simp [equalMatches, ih]

theorem equalKeys_iff {as bs : List Match} : heap.equalKeys as bs = true ↔
    List.Forall₂ (fun a b => heap.equalKey a b = true) as bs := by
  induction as generalizing bs with
  | nil => cases bs <;> simp [equalKeys]
  | cons a as ih => cases bs <;> simp [equalKeys, ih]

theorem equalMatch_iff : heap.equalMatch a b = true ↔
    a.Agree (fun p q => heap.equal p q = true) (fun _ _ => True) b := by
  refine Match.iff_agree_of_level (fun a b => heap.equalMatch a b = true) ?_ a b
  intro a b
  cases a with
  | text p content l =>
    cases b with
    | text q content' l' => exact .trans (by simp [equalMatch]) Match.text_level_iff.symm
    | _ => exact iff_of_false Bool.false_ne_true fun h => by cases h.1.form
  | alternative p chosen l =>
    cases b with
    | alternative q chosen' l' =>
      exact .trans (by simp [equalMatch]) Match.alternative_level_iff.symm
    | _ => exact iff_of_false Bool.false_ne_true fun h => by cases h.1.form
  | sequence p values l =>
    cases b with
    | sequence q values' l' =>
      exact .trans (by simp [equalMatch, equalMatches_iff]) Match.sequence_level_iff.symm
    | _ => exact iff_of_false Bool.false_ne_true fun h => by cases h.1.form

theorem equalKey_iff : heap.equalKey a b = true ↔
    a.Agree (fun p q => heap.equal p q = true) Eq b := by
  refine Match.iff_agree_of_level (fun a b => heap.equalKey a b = true) ?_ a b
  intro a b
  cases a with
  | text p content l =>
    cases b with
    | text q content' l' =>
      exact .trans (by simp [equalKey, and_assoc, and_left_comm]) Match.text_level_iff.symm
    | _ => exact iff_of_false Bool.false_ne_true fun h => by cases h.1.form
  | alternative p chosen l =>
    cases b with
    | alternative q chosen' l' =>
      exact .trans (by simp [equalKey, and_assoc, and_left_comm]) Match.alternative_level_iff.symm
    | _ => exact iff_of_false Bool.false_ne_true fun h => by cases h.1.form
  | sequence p values l =>
    cases b with
    | sequence q values' l' =>
      exact .trans (by simp [equalKey, equalKeys_iff, and_assoc, and_left_comm])
        Match.sequence_level_iff.symm
    | _ => exact iff_of_false Bool.false_ne_true fun h => by cases h.1.form

end Heap

/-! ## The two hash streams -/

theorem delimited_hashLocation (location : Option Span) :
    Delimited Eq Match.hashLocation location := by
  intro other after after' h
  cases location with
  | none => cases other <;> simp_all [Match.hashLocation]
  | some span =>
    cases span
    cases other with
    | none => simp_all [Match.hashLocation]
    | some span =>
      cases span
      simp_all [Match.hashLocation]

namespace Match

def Form.hashStream : Form → List HashWord
  | .text content => [.number textNumber, .text content]
  | .alternative => [.number alternativeNumber]
  | .sequence count => [.number sequenceNumber, .number count]

theorem Form.delimited_hashStream (form : Form) : Delimited Eq Form.hashStream form := by
  intro other after after' h
  cases form <;> cases other <;>
    simp_all [hashStream, textNumber, alternativeNumber, sequenceNumber]

/-- The stream of a match is that of its own level, with the given one for the location, in front
of the streams of its values. -/
def Levelwise (locationStream : Option Span → List HashWord) (stream : Match → List HashWord) :
    Prop :=
  ∀ m : Match, stream m = m.pattern.hashStream ++
    (locationStream m.location ++ (m.form.hashStream ++ m.values.flatMap stream))

theorem hashStreamAll_eq_flatMap (values : List Match) :
    hashStreamAll values = values.flatMap hashStream := by
  induction values with
  | nil => rfl
  | cons value rest ih => rw [hashStreamAll, List.flatMap_cons, ih]

theorem keyHashStreamAll_eq_flatMap (values : List Match) :
    keyHashStreamAll values = values.flatMap keyHashStream := by
  induction values with
  | nil => rfl
  | cons value rest ih => rw [keyHashStreamAll, List.flatMap_cons, ih]

theorem levelwise_hashStream : Levelwise (fun _ => []) hashStream := by
  intro m
  cases m <;> simp [hashStream, hashStreamAll_eq_flatMap, Form.hashStream, pattern, form, values]

theorem levelwise_keyHashStream : Levelwise hashLocation keyHashStream := by
  intro m
  cases m <;> simp [keyHashStream, keyHashStreamAll_eq_flatMap, Form.hashStream, pattern, location,
    form, values]

namespace Levelwise
variable {locations : Option Span → Option Span → Prop}
variable {locationStream : Option Span → List HashWord} {stream : Match → List HashWord}

/-- Where the stream of a location tells what it stands for, that of a match does at every
level. -/
theorem delimited (h : Levelwise locationStream stream)
    (each : ∀ location, Delimited locations locationStream location) (m : Match) :
    Delimited (Agree Pattern.SameSkeleton locations) stream m := by
  induction m using induction with
  | level m ih =>
    intro other after after' hsame
    rw [h m, h other] at hsame
    simp only [List.append_assoc] at hsame
    obtain ⟨hpattern, hsame⟩ := m.pattern.delimited_hashStream other.pattern _ _ hsame
    obtain ⟨hlocation, hsame⟩ := each m.location other.location _ _ hsame
    obtain ⟨hform, hsame⟩ := m.form.delimited_hashStream other.form _ _ hsame
    obtain ⟨hvalues, hafter⟩ :=
      Delimited.forall₂ ih (length_values_eq_of_form_eq hform) hsame
    exact ⟨agree_iff.mpr ⟨⟨hform, hpattern, hlocation⟩, hvalues⟩, hafter⟩

theorem eq_of_agree (h : Levelwise locationStream stream)
    (each : ∀ l l', locations l l' → locationStream l = locationStream l') (a : Match) :
    ∀ b, a.Agree Pattern.SameSkeleton locations b → stream a = stream b := by
  induction a using induction with
  | level a ih =>
    intro b hagree
    obtain ⟨hlevel, hvalues⟩ := agree_iff.mp hagree
    have hstreams : List.Forall₂ (fun x y => stream x = stream y) a.values b.values :=
      Pattern.forall₂_imp_of_mem hvalues ih
    rw [h a, h b, hlevel.pattern.hashStream_eq, each _ _ hlevel.location, hlevel.form,
      List.flatMap_def, List.flatMap_def, map_eq_map_iff_forall₂.mpr hstreams]

theorem eq_iff (h : Levelwise locationStream stream)
    (each : ∀ location, Delimited locations locationStream location)
    (alike : ∀ l l', locations l l' → locationStream l = locationStream l') (a b : Match) :
    stream a = stream b ↔ a.Agree Pattern.SameSkeleton locations b := by
  constructor
  · intro hsame
    exact (h.delimited each a b [] [] (by rw [hsame])).1
  · exact h.eq_of_agree alike a b

end Levelwise

theorem hashStream_eq_iff (a b : Match) : a.hashStream = b.hashStream ↔
    a.Agree Pattern.SameSkeleton (fun _ _ => True) b :=
  levelwise_hashStream.eq_iff (fun _ _ _ _ hsame => ⟨trivial, hsame⟩) (fun _ _ _ => rfl) a b

theorem keyHashStream_eq_iff (a b : Match) : a.keyHashStream = b.keyHashStream ↔
    a.Agree Pattern.SameSkeleton Eq b :=
  levelwise_keyHashStream.eq_iff delimited_hashLocation (fun _ _ h => congrArg _ h) a b

end Match

namespace Heap

theorem hashStream_eq_of_equalMatch {heap : Heap} {a b : Match} (h : heap.equalMatch a b = true) :
    a.hashStream = b.hashStream := by
  apply (Match.hashStream_eq_iff a b).mpr
  exact (equalMatch_iff.mp h).mono (fun _ _ hpattern => sameSkeleton_of_equal hpattern)
    (fun _ _ hlocation => hlocation)

theorem keyHashStream_eq_of_equalKey {heap : Heap} {a b : Match} (h : heap.equalKey a b = true) :
    a.keyHashStream = b.keyHashStream := by
  apply (Match.keyHashStream_eq_iff a b).mpr
  exact (equalKey_iff.mp h).mono (fun _ _ hpattern => sameSkeleton_of_equal hpattern)
    (fun _ _ hlocation => hlocation)

/-- On every heap, keys are equal exactly when the matches are and have the same locations at every
level. Both are equivalence relations, and each has a hash stream of its own that equal things
share. Two key streams are equal exactly when the matches have the same forms, the same locations
and patterns of one skeleton at every level. -/
theorem keys_and_hashes_by_level (heap : Heap) :
    (∀ a b, heap.equalKey a b = true ↔ heap.equalMatch a b = true ∧ a.SameLocations b) ∧
    (Equivalence fun a b => heap.equalMatch a b = true) ∧
    (Equivalence fun a b => heap.equalKey a b = true) ∧
    (∀ a b, heap.equalMatch a b = true → a.hashStream = b.hashStream) ∧
    (∀ a b, heap.equalKey a b = true → a.keyHashStream = b.keyHashStream) ∧
    ∀ a b : Match, a.keyHashStream = b.keyHashStream ↔ a.Agree Pattern.SameSkeleton Eq b := by
  have hequal : Equivalence fun p q => heap.equal p q = true := by
    simp only [equal_iff_bisimilar]
    exact ⟨.refl, .symm, .trans⟩
  refine ⟨?_, ?_, ?_, ?_, ?_, ?_⟩
  · intro a b
    rw [equalKey_iff, equalMatch_iff]
    exact Match.agree_eq_iff
  · simp only [equalMatch_iff]
    exact Match.agree_equivalence hequal ⟨fun _ => trivial, fun _ => trivial, fun _ _ => trivial⟩
  · simp only [equalKey_iff]
    exact Match.agree_equivalence hequal eq_equivalence
  · intro a b h
    exact hashStream_eq_of_equalMatch h
  · intro a b h
    exact keyHashStream_eq_of_equalKey h
  · exact Match.keyHashStream_eq_iff

/-- The location of a chosen value takes part in the key and not in the equality. -/
example :
    let choice : Pattern := .anyOf [.ofText "a"]
    let a : Match := .alternative choice (.text (.ofText "a") "a" none) none
    let b : Match := .alternative choice (.text (.ofText "a") "a" (some ⟨0, 1⟩)) none
    ({} : Heap).equalMatch a b = true ∧ ({} : Heap).equalKey a b = false := by decide

end Heap
end PatternGraph
