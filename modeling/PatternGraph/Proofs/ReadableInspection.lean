import PatternGraph.Inspection
import PatternGraph.Proofs.ReadableText
import PatternGraph.Proofs.StructuralEquality

/-!
# Inspection shows the whole pattern

Of a pattern without names, latches and recursions the inspection text leaves nothing out but the
serial numbers: it begins with a word for the kind and is readable from there on, part by part. So
two such patterns have one text exactly when they are equal, whatever brackets, separators and
quotation marks their texts and classes contain.
-/

namespace PatternGraph
set_option autoImplicit false

namespace Pattern

/-- A pattern without names, latches and recursions. -/
inductive WrittenOut : Pattern → Prop where
  | literal {tag : Tag} {text : String} (anonymous : tag.name = none) :
      WrittenOut (.literal tag text)
  | characterClass {tag : Tag} {cls : CharacterClass} (anonymous : tag.name = none) :
      WrittenOut (.characterClass tag cls)
  | alternation {tag : Tag} {elements : List Pattern} (anonymous : tag.name = none)
      (each : ∀ p ∈ elements, WrittenOut p) : WrittenOut (.alternation tag elements)
  | concatenation {tag : Tag} {elements : List Pattern} (anonymous : tag.name = none)
      (each : ∀ p ∈ elements, WrittenOut p) : WrittenOut (.concatenation tag elements)
  | repetition {tag : Tag} {inner : Pattern} {min : Nat} {max : Option Nat}
      (anonymous : tag.name = none) (once : WrittenOut inner) :
      WrittenOut (.repetition tag inner min max)

theorem WrittenOut.anonymous {p : Pattern} (h : p.WrittenOut) : p.name = none := by
  cases h <;> assumption

/-- The text of a pattern without its own name, as a list of characters. -/
def inspectChars (atCell : Nat → String) (p : Pattern) : List Char :=
  (p.inspectWith atCell).toList

variable {atCell : Nat → String} {tag : Tag} {p q : Pattern} {elements : List Pattern}

theorem WrittenOut.inspectPart_eq (h : p.WrittenOut) :
    p.inspectPart atCell = p.inspectWith atCell := by
  rw [inspectPart, h.anonymous]

theorem toList_inspectParts (each : ∀ p ∈ elements, p.WrittenOut) :
    (inspectParts atCell elements).map String.toList = elements.map (inspectChars atCell) := by
  rw [inspectParts_eq_map, List.map_map]
  exact List.map_congr_left fun p hp => congrArg String.toList (each p hp).inspectPart_eq

/-! ## Texts of the forms -/

theorem inspectChars_literal (text : String) :
    inspectChars atCell (.literal tag text) =
      "literal(".toList ++ (QuotedText.enclose '\x22' text.toList ++ [')']) := by
  simp only [inspectChars, inspectWith, String.toList_append, QuotedText.toList_ofString,
    List.append_assoc]
  rfl

/-- Parts in brackets, whichever word opens them and whichever separator stands between them. -/
theorem toList_bracketed (opening separator : String) (each : ∀ p ∈ elements, p.WrittenOut) :
    (opening ++ separator.intercalate (inspectParts atCell elements) ++ ")").toList =
      opening.toList ++ (separator.toList.intercalate (elements.map (inspectChars atCell)) ++
        [')']) := by
  rw [String.toList_append, String.toList_append, String.toList_intercalate,
    toList_inspectParts each, List.append_assoc]
  rfl

theorem inspectChars_alternation (each : ∀ p ∈ elements, p.WrittenOut) :
    inspectChars atCell (.alternation tag elements) =
      "alt(".toList ++ ([' ', '|', ' '].intercalate (elements.map (inspectChars atCell)) ++
        [')']) :=
  toList_bracketed "alt(" " | " each

theorem inspectChars_concatenation (each : ∀ p ∈ elements, p.WrittenOut) :
    inspectChars atCell (.concatenation tag elements) =
      "seq(".toList ++ ([',', ' '].intercalate (elements.map (inspectChars atCell)) ++ [')']) :=
  toList_bracketed "seq(" ", " each

theorem inspectChars_repetition {inner : Pattern} (once : inner.WrittenOut) (min : Nat)
    (max : Option Nat) :
    inspectChars atCell (.repetition tag inner min max) =
      "repeat(".toList ++ (inspectChars atCell inner ++
        ',' :: ' ' :: ((inspectBounds min max).toList ++ [')'])) := by
  simp only [inspectChars, inspectWith, once.anonymous, String.toList_append, List.append_assoc]
  rfl

/-- The first letter of the word for a kind. -/
def initial : PatternKind → Char
  | .literal | .latch => 'l'
  | .characterClass => 'c'
  | .alternation => 'a'
  | .concatenation => 's'
  | .repetition | .recursion => 'r'

theorem WrittenOut.exists_inspectChars_eq (h : p.WrittenOut) (atCell : Nat → String) :
    ∃ content, p.inspectChars atCell = initial p.kind :: content := by
  cases h with
  | literal => exact ⟨_, inspectChars_literal _⟩
  | characterClass => exact ⟨_, CharacterClass.toList_inspect _⟩
  | alternation _ each => exact ⟨_, inspectChars_alternation each⟩
  | concatenation _ each => exact ⟨_, inspectChars_concatenation each⟩
  | repetition _ once => exact ⟨_, inspectChars_repetition once _ _⟩

theorem WrittenOut.opensBeside (h : p.WrittenOut) :
    OpensBeside ')' (p.inspectChars atCell) := by
  obtain ⟨content, hcontent⟩ := h.exists_inspectChars_eq atCell
  refine ⟨_, content, hcontent, ?_⟩
  cases p.kind <;> decide

theorem WrittenOut.kind_eq (hp : p.WrittenOut) (hq : q.WrittenOut) {after after' : List Char}
    (h : p.inspectChars atCell ++ after = q.inspectChars atCell ++ after') : p.kind = q.kind := by
  obtain ⟨content, hcontent⟩ := hp.exists_inspectChars_eq atCell
  obtain ⟨content', hcontent'⟩ := hq.exists_inspectChars_eq atCell
  rw [hcontent, hcontent'] at h
  have hinitial := (List.cons.inj h).1
  cases hp <;> cases hq <;> first | rfl | exact absurd hinitial (by simp [kind, initial])

/-! ## Reading -/

/-- The upper bound, or the infinity sign. -/
def mostChars : Option Nat → List Char
  | some max => Nat.toDigits 10 max
  | none => ['\u221e']

theorem toList_inspectBounds (min : Nat) (max : Option Nat) :
    (inspectBounds min max).toList =
      Nat.toDigits 10 min ++ '.' :: '.' :: '=' :: mostChars max := by
  cases max <;> simp [inspectBounds, mostChars, Nat.toString_eq_repr]

theorem notMem_decimal {c : Char} (hc : ∀ n : Nat, n.digitChar ≠ c) (n : Nat) :
    c ∉ Nat.toDigits 10 n :=
  notMem_toDigits (by decide) hc n

theorem toDigits_decimal_injective : Function.Injective (Nat.toDigits 10) :=
  toDigits_injective (by decide) (by decide)

theorem notMem_mostChars (max : Option Nat) : ')' ∉ mostChars max := by
  cases max with
  | none => decide
  | some max => exact notMem_decimal (fun _ => Nat.digitChar_ne ')' (by decide)) max

/-- The infinity sign is no digit. -/
theorem mostChars_none_ne (most : Nat) : mostChars none ≠ mostChars (some most) := by
  intro h
  have hsign : '\u221e' ∈ mostChars (some most) := h ▸ .head _
  exact notMem_decimal (fun _ => Nat.digitChar_ne '\u221e' (by decide)) most hsign

theorem mostChars_injective : Function.Injective mostChars := by
  intro max max' h
  cases max with
  | none =>
    cases max' with
    | none => rfl
    | some most => exact absurd h (mostChars_none_ne most)
  | some most =>
    cases max' with
    | none => exact absurd h.symm (mostChars_none_ne most)
    | some most' => exact congrArg some (toDigits_decimal_injective h)

theorem eq_of_inspectBounds {min min' : Nat} {max max' : Option Nat} {after after' : List Char}
    (h : (inspectBounds min max).toList ++ ')' :: after =
      (inspectBounds min' max').toList ++ ')' :: after') :
    min = min' ∧ max = max' ∧ after = after' := by
  simp only [toList_inspectBounds, List.append_assoc, List.cons_append] at h
  have hpoint := notMem_decimal fun _ => Nat.digitChar_ne '.' (by decide)
  obtain ⟨hmin, hrest⟩ := Readable.upTo (hpoint min) (hpoint min') h
  obtain ⟨hmax, hafter⟩ := Readable.upTo (notMem_mostChars max) (notMem_mostChars max')
    (List.cons.inj (List.cons.inj hrest).2).2
  exact ⟨toDigits_decimal_injective hmin, mostChars_injective hmax, hafter⟩

theorem readable_literal {tag' : Tag} (text text' : String) :
    Readable (Alike Eq) (inspectChars atCell) (.literal tag text) (.literal tag' text') := by
  intro after after' h
  simp only [inspectChars_literal, List.append_assoc] at h
  obtain ⟨htext, hclose⟩ := QuotedText.readable_enclose (.inl rfl) _ _ _ _
    (List.append_cancel_left h)
  exact ⟨String.toList_inj.mp htext, (List.cons.inj hclose).2⟩

/-- Parts in brackets are read one after another up to the closing bracket. -/
theorem allAlike_of_readable {opening separator after after' : List Char} {ps qs : List Pattern}
    (each : ∀ p ∈ ps, ∀ q : Pattern, q.WrittenOut →
      Readable (Alike Eq) (inspectChars atCell) p q)
    (hps : ∀ p ∈ ps, p.WrittenOut) (hqs : ∀ q ∈ qs, q.WrittenOut)
    (apart : OpensBeside ')' separator)
    (h : opening ++ (separator.intercalate (ps.map (inspectChars atCell)) ++ [')']) ++ after =
      opening ++ (separator.intercalate (qs.map (inspectChars atCell)) ++ [')']) ++ after') :
    AllAlike Eq ps qs ∧ after = after' := by
  simp only [List.append_assoc] at h
  obtain ⟨hall, hafter⟩ := Readable.separated (fun p hp q hq => each p hp q (hqs q hq)) apart
    (fun p hp => (hps p hp).opensBeside) (fun q hq => (hqs q hq).opensBeside)
    (List.append_cancel_left h)
  exact ⟨allAlike_iff.mpr hall, hafter⟩

/-- The texts of two patterns that are written out tell whether the trees agree, and where they
end. -/
theorem WrittenOut.readable (hp : p.WrittenOut) :
    ∀ q : Pattern, q.WrittenOut → Readable (Alike Eq) (inspectChars atCell) p q := by
  induction hp with
  | @literal tag text anonymous =>
    intro q hq after after' h
    have hkind := (WrittenOut.literal anonymous).kind_eq hq h
    cases hq with
    | literal => exact readable_literal _ _ after after' h
    | _ => exact absurd hkind nofun
  | @characterClass tag cls anonymous =>
    intro q hq after after' h
    have hkind := (WrittenOut.characterClass anonymous).kind_eq hq h
    cases hq with
    | characterClass => exact cls.readable_inspect _ after after' h
    | _ => exact absurd hkind nofun
  | @alternation tag elements anonymous each ih =>
    intro q hq after after' h
    have hkind := (WrittenOut.alternation anonymous each).kind_eq hq h
    cases hq with
    | alternation _ each' =>
      rw [inspectChars_alternation each, inspectChars_alternation each'] at h
      exact allAlike_of_readable ih each each' ⟨_, _, rfl, by decide⟩ h
    | _ => exact absurd hkind nofun
  | @concatenation tag elements anonymous each ih =>
    intro q hq after after' h
    have hkind := (WrittenOut.concatenation anonymous each).kind_eq hq h
    cases hq with
    | concatenation _ each' =>
      rw [inspectChars_concatenation each, inspectChars_concatenation each'] at h
      exact allAlike_of_readable ih each each' ⟨_, _, rfl, by decide⟩ h
    | _ => exact absurd hkind nofun
  | @repetition tag inner min max anonymous once ih =>
    intro q hq after after' h
    have hkind := (WrittenOut.repetition anonymous once).kind_eq hq h
    cases hq with
    | repetition _ once' =>
      simp only [inspectChars_repetition once, inspectChars_repetition once', List.append_assoc,
        List.cons_append] at h
      obtain ⟨hinner, hrest⟩ := ih _ once' _ _ (List.append_cancel_left h)
      obtain ⟨hmin, hmax, hafter⟩ :=
        eq_of_inspectBounds (List.cons.inj (List.cons.inj hrest).2).2
      exact ⟨⟨hmin, hmax, hinner⟩, hafter⟩
    | _ => exact absurd hkind nofun

/-! ## Equal patterns -/

theorem map_inspectChars_eq {ps qs : List Pattern}
    (h : List.Forall₂ (fun p q => p.WrittenOut → q.WrittenOut →
      p.inspectChars atCell = q.inspectChars atCell) ps qs)
    (hps : ∀ p ∈ ps, p.WrittenOut) (hqs : ∀ q ∈ qs, q.WrittenOut) :
    ps.map (inspectChars atCell) = qs.map (inspectChars atCell) := by
  induction h with
  | nil => rfl
  | cons hhead _ ih =>
    obtain ⟨hp, hps⟩ := List.forall_mem_cons.mp hps
    obtain ⟨hq, hqs⟩ := List.forall_mem_cons.mp hqs
    rw [List.map_cons, List.map_cons, hhead hp hq, ih hps hqs]

/-- Trees that agree have the same text; neither has a recursion, where they might differ. -/
theorem Alike.inspectChars_eq {cells : Nat → Nat → Prop} (h : p.Alike cells q) :
    p.WrittenOut → q.WrittenOut → p.inspectChars atCell = q.inspectChars atCell := by
  refine Alike.induction (motive := fun p q => p.WrittenOut → q.WrittenOut →
      p.inspectChars atCell = q.inspectChars atCell)
    ?literal ?characterClass ?alternation ?concatenation ?repetition ?latch ?recursion h
  case literal | characterClass =>
    intros
    rfl
  case alternation =>
    intro tag tag' ps qs hall hp hq
    cases hp with
    | alternation _ each =>
      cases hq with
      | alternation _ each' =>
        rw [inspectChars_alternation each, inspectChars_alternation each',
          map_inspectChars_eq hall each each']
  case concatenation =>
    intro tag tag' ps qs hall hp hq
    cases hp with
    | concatenation _ each =>
      cases hq with
      | concatenation _ each' =>
        rw [inspectChars_concatenation each, inspectChars_concatenation each',
          map_inspectChars_eq hall each each']
  case repetition =>
    intro tag tag' p q min max hinner hp hq
    cases hp with
    | repetition _ once =>
      cases hq with
      | repetition _ once' =>
        rw [inspectChars_repetition once, inspectChars_repetition once', hinner once once']
  case latch | recursion =>
    intros
    contradiction

end Pattern

namespace Heap

theorem toList_inspect {p : Pattern} (hp : p.WrittenOut) (heap : Heap) :
    (heap.inspect p).toList =
      p.inspectChars (inspectionWalk.atCell heap.grammar (heap.cells.size + 1) []) := by
  rw [inspect, hp.anonymous]
  rfl

theorem equal_of_alike {heap : Heap} {p q : Pattern} (h : p.Alike Eq q) :
    heap.equal p q = true := by
  refine equal_iff_bisimilar.mpr (bisimilar_iff.mpr ⟨Eq, ?_, h⟩)
  rintro c d rfl
  exact .of_refl (fun _ => rfl) c

/-- Two patterns without names, latches and recursions have the same inspection text exactly when
they are equal. -/
theorem inspect_eq_iff_equal (heap : Heap) {p q : Pattern} (hp : p.WrittenOut)
    (hq : q.WrittenOut) : heap.inspect p = heap.inspect q ↔ heap.equal p q = true := by
  rw [← String.toList_inj, toList_inspect hp, toList_inspect hq]
  constructor
  · intro h
    obtain ⟨halike, -⟩ := hp.readable q hq [] [] (by rw [h])
    exact equal_of_alike halike
  · intro h
    obtain ⟨cells, -, halike⟩ := bisimilar_iff.mp (equal_iff_bisimilar.mp h)
    exact halike.inspectChars_eq hp hq

end Heap

/-- One text with the marks that would end it and begin another one, as they are printed. -/
def Pattern.punctuated : Pattern := .anyOf [.ofText "a\x22) | literal(\x22b"]

/-- Two texts without such marks. -/
def Pattern.plainly : Pattern := .anyOf [.ofText "a", .ofText "b"]

theorem Heap.inspect_eq_iff_equal_punctuated :
    Pattern.punctuated.WrittenOut ∧ Pattern.plainly.WrittenOut ∧
      ({} : Heap).inspect .plainly = "alt(literal(\x22a\x22) | literal(\x22b\x22))" ∧
      ({} : Heap).inspect .punctuated ≠ ({} : Heap).inspect .plainly := by
  have hpunctuated : Pattern.punctuated.WrittenOut := by
    refine .alternation rfl ?_
    intro p hp
    obtain rfl := List.mem_singleton.mp hp
    exact .literal rfl
  have hplainly : Pattern.plainly.WrittenOut := by
    refine .alternation rfl ?_
    intro p hp
    rcases List.mem_pair.mp hp with rfl | rfl <;> exact .literal rfl
  have hunequal : ({} : Heap).equal .punctuated .plainly ≠ true := by decide
  have hiff := inspect_eq_iff_equal {} hpunctuated hplainly
  exact ⟨hpunctuated, hplainly, by decide, fun h => hunequal (hiff.mp h)⟩

end PatternGraph
