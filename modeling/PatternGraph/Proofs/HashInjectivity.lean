import PatternGraph.HashStream
import PatternGraph.Session
import PatternGraph.Proofs.Renumbering

/-!
# Hash streams are injective

The hash stream of a pattern says all there is to its skeleton: the tree without names, in which
one recursion is like any other. Each part of a stream tells where it ends, a list by the count in
front of it and everything else by its form, so whatever follows a stream it is cut off at the
same place. Equality of patterns looks into cells and may be coinductive, yet it compares the
trees in front of the cells node by node, so equal patterns have one skeleton and one stream.
-/

namespace PatternGraph
set_option autoImplicit false

/-! ## Delimited streams -/

/-- Nothing that can follow the stream of `a` is mistaken for a part of it: where two streams with
something behind them agree, they belong together and so does what is behind them. -/
def Delimited {α : Type} (related : α → α → Prop) (stream : α → List HashWord) (a : α) : Prop :=
  ∀ b after after', stream a ++ after = stream b ++ after' → related a b ∧ after = after'

theorem Delimited.forall₂ {α : Type} {related : α → α → Prop} {stream : α → List HashWord}
    {as bs : List α} (each : ∀ a ∈ as, Delimited related stream a)
    (hlength : as.length = bs.length) {after after' : List HashWord}
    (h : as.flatMap stream ++ after = bs.flatMap stream ++ after') :
    List.Forall₂ related as bs ∧ after = after' := by
  induction as generalizing bs with
  | nil =>
    cases bs with
    | nil => exact ⟨.nil, h⟩
    | cons b bs => exact absurd hlength nofun
  | cons a as ih =>
    cases bs with
    | nil => exact absurd hlength nofun
    | cons b bs =>
      obtain ⟨ha, has⟩ := List.forall_mem_cons.mp each
      rw [List.flatMap_cons, List.flatMap_cons, List.append_assoc, List.append_assoc] at h
      obtain ⟨hab, hrest⟩ := ha b _ _ h
      obtain ⟨hall, hafter⟩ := ih has (Nat.succ.inj hlength) hrest
      exact ⟨.cons hab hall, hafter⟩

theorem ClassItem.delimited_hashStream (item : ClassItem) :
    Delimited Eq ClassItem.hashStream item := by
  intro other after after' h
  cases item <;> cases other <;> simp_all [ClassItem.hashStream]

theorem CharacterClass.delimited_hashStream (cls : CharacterClass) :
    Delimited Eq CharacterClass.hashStream cls := by
  intro other after after' h
  obtain ⟨hlength, hitems⟩ : cls.items.length = other.items.length ∧
      cls.items.flatMap (·.hashStream) ++ after =
        other.items.flatMap (·.hashStream) ++ after' := by
    simpa [CharacterClass.hashStream] using h
  obtain ⟨hall, hafter⟩ :=
    Delimited.forall₂ (fun item _ => item.delimited_hashStream) hlength hitems
  rw [List.forall₂_eq_eq_eq] at hall
  cases cls
  cases other
  exact ⟨congrArg _ hall, hafter⟩

theorem delimited_hashOptional (bound : Option Nat) : Delimited Eq hashOptional bound := by
  intro other after after' h
  cases bound <;> cases other <;> simp_all [hashOptional]

/-! ## Skeletons -/

theorem PatternKind.number_injective : Function.Injective PatternKind.number := by
  intro kind other h
  cases kind <;> cases other <;> first | rfl | exact absurd h (by decide)

namespace Pattern

/-- The trees agree when names and serial numbers are ignored and every recursion is identified
with every other. -/
def SameSkeleton (p q : Pattern) : Prop := p.Alike (fun _ _ => True) q

section
variable (tag : Tag)

theorem hashStream_alternation (elements : List Pattern) :
    (alternation tag elements).hashStream =
      .number PatternKind.alternation.number :: .number elements.length ::
        elements.flatMap hashStream := by
  rw [← feedAll_eq_flatMap]
  rfl

theorem hashStream_concatenation (elements : List Pattern) :
    (concatenation tag elements).hashStream =
      .number PatternKind.concatenation.number :: .number elements.length ::
        elements.flatMap hashStream := by
  rw [← feedAll_eq_flatMap]
  rfl

theorem hashStream_repetition (inner : Pattern) (min : Nat) (max : Option Nat) :
    (repetition tag inner min max).hashStream =
      .number PatternKind.repetition.number ::
        (inner.hashStream ++ .number min :: hashOptional max) := by
  simp [hashStream, feed, feed_eq inner (.number min :: _)]

theorem hashStream_latch (target : Pattern) :
    (latch tag target).hashStream =
      .number PatternKind.latch.number :: target.hashStream := rfl

end

/-- Every stream begins with the kind of its pattern. -/
theorem exists_hashStream_eq (p : Pattern) :
    ∃ content, p.hashStream = .number p.kind.number :: content := by
  cases p <;> exact ⟨_, rfl⟩

theorem kind_eq_of_hashStream {p q : Pattern} {after after' : List HashWord}
    (h : p.hashStream ++ after = q.hashStream ++ after') : p.kind = q.kind := by
  obtain ⟨content, hp⟩ := p.exists_hashStream_eq
  obtain ⟨content', hq⟩ := q.exists_hashStream_eq
  rw [hp, hq] at h
  obtain ⟨hhead, _⟩ := List.cons.inj h
  exact PatternKind.number_injective (HashWord.number.inj hhead)

/-- A stream determines the skeleton and the place where it ends. -/
theorem delimited_hashStream (p : Pattern) : Delimited SameSkeleton hashStream p := by
  have elementwise : ∀ {elements others : List Pattern} {number : Nat}
      {after after' : List HashWord}, (∀ p ∈ elements, Delimited SameSkeleton hashStream p) →
      HashWord.number number :: .number elements.length ::
          elements.flatMap hashStream ++ after =
        HashWord.number number :: .number others.length ::
          others.flatMap hashStream ++ after' →
      AllAlike (fun _ _ => True) elements others ∧ after = after' := by
    intro elements others number after after' each h
    obtain ⟨hlength, hall⟩ : elements.length = others.length ∧
        elements.flatMap hashStream ++ after = others.flatMap hashStream ++ after' := by
      simpa using h
    obtain ⟨hrelated, hafter⟩ := Delimited.forall₂ each hlength hall
    exact ⟨allAlike_iff.mpr hrelated, hafter⟩
  induction p with
  | literal tag text =>
    intro q after after' h
    have hkind := kind_eq_of_hashStream h
    cases q with
    | literal tag' text' => simpa [hashStream, feed, SameSkeleton, Alike] using h
    | _ => exact absurd hkind nofun
  | characterClass tag cls =>
    intro q after after' h
    have hkind := kind_eq_of_hashStream h
    cases q with
    | characterClass tag' cls' =>
      have hclass : cls.hashStream ++ after = cls'.hashStream ++ after' := by
        simpa [hashStream, feed] using h
      exact cls.delimited_hashStream cls' after after' hclass
    | _ => exact absurd hkind nofun
  | alternation tag elements ih =>
    intro q after after' h
    have hkind := kind_eq_of_hashStream h
    cases q with
    | alternation tag' elements' =>
      rw [hashStream_alternation, hashStream_alternation] at h
      exact elementwise ih h
    | _ => exact absurd hkind nofun
  | concatenation tag elements ih =>
    intro q after after' h
    have hkind := kind_eq_of_hashStream h
    cases q with
    | concatenation tag' elements' =>
      rw [hashStream_concatenation, hashStream_concatenation] at h
      exact elementwise ih h
    | _ => exact absurd hkind nofun
  | repetition tag inner min max ih =>
    intro q after after' h
    have hkind := kind_eq_of_hashStream h
    cases q with
    | repetition tag' inner' min' max' =>
      have hinner : inner.hashStream ++ .number min :: (hashOptional max ++ after) =
          inner'.hashStream ++ .number min' :: (hashOptional max' ++ after') := by
        simpa [hashStream_repetition] using h
      obtain ⟨hskeleton, hbounds⟩ := ih inner' _ _ hinner
      obtain ⟨hmin, hmax⟩ := List.cons.inj hbounds
      obtain ⟨hmax, hafter⟩ := delimited_hashOptional max max' after after' hmax
      exact ⟨⟨HashWord.number.inj hmin, hmax, hskeleton⟩, hafter⟩
    | _ => exact absurd hkind nofun
  | latch tag target ih =>
    intro q after after' h
    have hkind := kind_eq_of_hashStream h
    cases q with
    | latch tag' target' =>
      rw [hashStream_latch, hashStream_latch] at h
      exact ih target' after after' (List.cons.inj h).2
    | _ => exact absurd hkind nofun
  | recursion tag cell =>
    intro q after after' h
    have hkind := kind_eq_of_hashStream h
    cases q with
    | recursion tag' cell' => exact ⟨trivial, (List.cons.inj h).2⟩
    | _ => exact absurd hkind nofun

theorem SameSkeleton.hashStream_eq {p q : Pattern} (h : p.SameSkeleton q) :
    p.hashStream = q.hashStream := by
  have elementwise : ∀ {ps qs : List Pattern},
      List.Forall₂ (fun p q => p.hashStream = q.hashStream) ps qs →
      ps.length = qs.length ∧ ps.flatMap hashStream = qs.flatMap hashStream := by
    intro ps qs hall
    refine ⟨hall.length_eq, ?_⟩
    rw [List.flatMap_def, List.flatMap_def, map_eq_map_iff_forall₂.mpr hall]
  refine Alike.induction (motive := fun p q => p.hashStream = q.hashStream)
    ?literal ?characterClass ?alternation ?concatenation ?repetition ?latch ?recursion h
  case literal | characterClass | recursion =>
    intros
    rfl
  case alternation =>
    intro tag tag' ps qs hall
    obtain ⟨hlength, hstreams⟩ := elementwise hall
    rw [hashStream_alternation, hashStream_alternation, hlength, hstreams]
  case concatenation =>
    intro tag tag' ps qs hall
    obtain ⟨hlength, hstreams⟩ := elementwise hall
    rw [hashStream_concatenation, hashStream_concatenation, hlength, hstreams]
  case repetition =>
    intro tag tag' p q min max hinner
    rw [hashStream_repetition, hashStream_repetition, hinner]
  case latch =>
    intro tag tag' p q htarget
    rw [hashStream_latch, hashStream_latch, htarget]

theorem SameSkeleton.of_alike {cells : Nat → Nat → Prop} {p q : Pattern} (h : p.Alike cells q) :
    p.SameSkeleton q :=
  h.mono fun _ _ _ => trivial

theorem hashStream_eq_iff {p q : Pattern} : p.hashStream = q.hashStream ↔ p.SameSkeleton q := by
  constructor
  · intro h
    exact (p.delimited_hashStream q [] [] (by rw [h])).1
  · exact SameSkeleton.hashStream_eq

/-- A stream that another one begins with is all of it. -/
theorem hashStream_eq_of_isPrefix {p q : Pattern} (h : p.hashStream <+: q.hashStream) :
    p.hashStream = q.hashStream := by
  obtain ⟨after, hafter⟩ := h
  obtain ⟨_, hnothing⟩ := p.delimited_hashStream q after [] (by rw [hafter, List.append_nil])
  rw [← hafter, hnothing, List.append_nil]

theorem sameSkeleton_renumber (number : Nat → Nat) (p : Pattern) :
    (p.renumber number).SameSkeleton p := by
  induction p with
  | literal | characterClass => exact rfl
  | alternation tag elements ih =>
    rw [renumber_alternation]
    exact allAlike_iff.mpr (List.forall₂_map_left_iff.mpr (List.forall₂_same.mpr ih))
  | concatenation tag elements ih =>
    rw [renumber_concatenation]
    exact allAlike_iff.mpr (List.forall₂_map_left_iff.mpr (List.forall₂_same.mpr ih))
  | repetition tag inner min max ih => exact ⟨rfl, rfl, ih⟩
  | latch tag target ih => exact ih
  | recursion tag cell => exact trivial

end Pattern

theorem Heap.sameSkeleton_of_equal {heap : Heap} {p q : Pattern} (h : heap.equal p q = true) :
    p.SameSkeleton q := by
  obtain ⟨cells, _, halike⟩ := Heap.bisimilar_iff.mp (Heap.equal_iff_bisimilar.mp h)
  exact .of_alike halike

/-- Two hash streams are equal exactly when the patterns have one skeleton, and none is a proper
prefix of another. A stream stays the same whichever cells the recursions refer to, and so
whatever these hold, and in whichever state of a run the pattern is used. So patterns that are
equal in any state have equal streams. -/
theorem Pattern.hashStream_encodes_skeleton :
    (∀ p q : Pattern, p.hashStream = q.hashStream ↔ p.SameSkeleton q) ∧
    (∀ p q : Pattern, p.hashStream <+: q.hashStream → p.hashStream = q.hashStream) ∧
    (∀ (number : Nat → Nat) (p : Pattern), (p.renumber number).hashStream = p.hashStream) ∧
    (∀ (session : Session) (calls : List Call) (p : Pattern),
      ((session.run calls).heap.enter p).1.hashStream = p.hashStream) ∧
    ∀ (heap : Heap) (p q : Pattern), heap.equal p q = true → p.hashStream = q.hashStream := by
  refine ⟨?_, ?_, ?_, ?_, ?_⟩
  · intro p q
    exact hashStream_eq_iff
  · intro p q
    exact hashStream_eq_of_isPrefix
  · intro number p
    exact (sameSkeleton_renumber number p).hashStream_eq
  · intro session calls p
    exact (SameSkeleton.of_alike (alike_enter _ p)).hashStream_eq
  · intro heap p q h
    exact (Heap.sameSkeleton_of_equal h).hashStream_eq

end PatternGraph
