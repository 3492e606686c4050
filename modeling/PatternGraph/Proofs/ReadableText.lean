import Mathlib.Data.List.Forall2
import PatternGraph.CharacterClass

/-!
# Readable texts

A text is readable when it tells by itself where it ends: whatever follows it, it is taken for no
other text. Lists need no count in front of them when something closes them that none of their
parts begins with, with or without separators. Numbers are read up to the first character that is
no digit. Quoted text is read up to the first delimiter that does not belong to an escape, and each
escape is told by its first two characters; so whatever brackets, bars and quotation marks stand in
a quoted text, they are never taken for those around it.
-/

namespace PatternGraph
set_option autoImplicit false

/-- Where the texts of `a` and `b` agree with something behind them, the two are related and what
is behind them agrees as well. -/
def Readable {α : Type} (related : α → α → Prop) (text : α → List Char) (a b : α) : Prop :=
  ∀ after after', text a ++ after = text b ++ after' → related a b ∧ after = after'

/-- There is a first character, and it is another one. -/
def OpensBeside (close : Char) (text : List Char) : Prop := ∃ c rest, text = c :: rest ∧ c ≠ close

theorem OpensBeside.append_ne {close : Char} {text : List Char} (h : OpensBeside close text)
    (more after : List Char) : text ++ more ≠ close :: after := by
  obtain ⟨c, rest, rfl, hc⟩ := h
  exact fun heq => hc (List.cons.inj heq).1

namespace Readable
variable {α : Type} {related : α → α → Prop} {text : α → List Char} {as bs : List α}
  {after after' : List Char}

/-- Parts one after another, up to the closing character. -/
theorem closed {close : Char} (each : ∀ a ∈ as, ∀ b ∈ bs, Readable related text a b)
    (opens : ∀ a ∈ as, OpensBeside close (text a)) (opens' : ∀ b ∈ bs, OpensBeside close (text b))
    (h : as.flatMap text ++ close :: after = bs.flatMap text ++ close :: after') :
    List.Forall₂ related as bs ∧ after = after' := by
  induction as generalizing bs with
  | nil =>
    cases bs with
    | nil => exact ⟨.nil, (List.cons.inj h).2⟩
    | cons b bs =>
      rw [List.flatMap_cons, List.append_assoc] at h
      exact absurd h.symm ((opens' b List.mem_cons_self).append_ne _ _)
  | cons a as ih =>
    cases bs with
    | nil =>
      rw [List.flatMap_cons, List.append_assoc] at h
      exact absurd h ((opens a List.mem_cons_self).append_ne _ _)
    | cons b bs =>
      rw [List.flatMap_cons, List.flatMap_cons, List.append_assoc, List.append_assoc] at h
      obtain ⟨hhead, hrest⟩ := each a List.mem_cons_self b List.mem_cons_self _ _ h
      obtain ⟨hall, hafter⟩ := ih (fun a ha b hb => each a (.tail _ ha) b (.tail _ hb))
        (fun a ha => opens a (.tail _ ha)) (fun b hb => opens' b (.tail _ hb)) hrest
      exact ⟨.cons hhead hall, hafter⟩

theorem intercalate_cons (separator : List Char) (a : α) (as : List α) :
    separator.intercalate ((a :: as).map text) =
      text a ++ as.flatMap (fun b => separator ++ text b) := by
  induction as generalizing a with
  | nil => simp
  | cons b as ih =>
    rw [List.map_cons, List.map_cons, List.intercalate_cons_cons, ← List.map_cons, ih,
      List.flatMap_cons, List.append_assoc, List.append_assoc]

/-- Parts with a separator between any two, up to the closing character. -/
theorem separated {separator : List Char} {close : Char}
    (each : ∀ a ∈ as, ∀ b ∈ bs, Readable related text a b)
    (apart : OpensBeside close separator)
    (opens : ∀ a ∈ as, OpensBeside close (text a)) (opens' : ∀ b ∈ bs, OpensBeside close (text b))
    (h : separator.intercalate (as.map text) ++ close :: after =
      separator.intercalate (bs.map text) ++ close :: after') :
    List.Forall₂ related as bs ∧ after = after' := by
  cases as with
  | nil =>
    cases bs with
    | nil => exact ⟨.nil, (List.cons.inj h).2⟩
    | cons b bs =>
      rw [intercalate_cons, List.append_assoc] at h
      exact absurd h.symm ((opens' b List.mem_cons_self).append_ne _ _)
  | cons a as =>
    cases bs with
    | nil =>
      rw [intercalate_cons, List.append_assoc] at h
      exact absurd h ((opens a List.mem_cons_self).append_ne _ _)
    | cons b bs =>
      rw [intercalate_cons, intercalate_cons, List.append_assoc, List.append_assoc] at h
      obtain ⟨hhead, hrest⟩ := each a List.mem_cons_self b List.mem_cons_self _ _ h
      have beside : ∀ a, OpensBeside close (separator ++ text a) := by
        intro a
        obtain ⟨c, rest, rfl, hc⟩ := apart
        exact ⟨c, rest ++ text a, rfl, hc⟩
      have next : ∀ a ∈ as, ∀ b ∈ bs, Readable related (fun a => separator ++ text a) a b := by
        intro a ha b hb after after' h
        rw [List.append_assoc, List.append_assoc] at h
        exact each a (.tail _ ha) b (.tail _ hb) _ _ (List.append_cancel_left h)
      obtain ⟨hall, hafter⟩ := closed next (fun a _ => beside a) (fun b _ => beside b) hrest
      exact ⟨.cons hhead hall, hafter⟩

/-- Characters up to the first closing one. -/
theorem upTo {close : Char} {as bs : List Char} (has : close ∉ as) (hbs : close ∉ bs)
    (h : as ++ close :: after = bs ++ close :: after') : as = bs ∧ after = after' := by
  have each : ∀ a b : Char, Readable Eq (fun c => [c]) a b := fun _ _ _ _ h => List.cons.inj h
  have opens : ∀ {cs : List Char}, close ∉ cs → ∀ c ∈ cs, OpensBeside close [c] :=
    fun hcs c hc => ⟨c, [], rfl, fun heq => hcs (heq ▸ hc)⟩
  have hall := closed (fun a _ b _ => each a b) (opens has) (opens hbs)
    (by rwa [List.flatMap_singleton', List.flatMap_singleton'])
  rwa [List.forall₂_eq_eq_eq] at hall

end Readable

/-! ## Numbers -/

theorem digitChar_injective : ∀ m < 16, ∀ n < 16, m.digitChar = n.digitChar → m = n := by decide

/-- No digit of a base up to sixteen is this character. -/
theorem notMem_toDigits {base : Nat} (hbase : 1 < base) {c : Char}
    (hc : ∀ n : Nat, n.digitChar ≠ c) (n : Nat) : c ∉ base.toDigits n := by
  induction n using Nat.strongRecOn with
  | _ n ih =>
    rw [Nat.toDigits_eq_if hbase]
    split
    · simpa using (hc n).symm
    · have hlt : n / base < n := Nat.div_lt_self (by omega) hbase
      simpa using ⟨ih _ hlt, (hc (n % base)).symm⟩

theorem toDigits_injective {base : Nat} (hbase : 1 < base) (hmost : base ≤ 16) :
    Function.Injective base.toDigits := by
  intro m
  induction m using Nat.strongRecOn with
  | _ m ih =>
    intro n h
    rw [Nat.toDigits_eq_if hbase, Nat.toDigits_eq_if hbase (n := n)] at h
    split at h <;> split at h
    · rename_i hm hn
      exact digitChar_injective m (by omega) n (by omega) (List.cons.inj h).1
    · exact absurd (List.append_eq_singleton_iff.mp h.symm) (by simp [Nat.toDigits_ne_nil])
    · exact absurd (List.append_eq_singleton_iff.mp h) (by simp [Nat.toDigits_ne_nil])
    · rename_i hm hn
      obtain ⟨hfront, hlast⟩ := List.append_inj' h rfl
      have hdiv := ih (m / base) (Nat.div_lt_self (by omega) hbase) hfront
      have hpos : 0 < base := by omega
      have hm' := Nat.mod_lt m hpos
      have hn' := Nat.mod_lt n hpos
      have hmod := digitChar_injective (m % base) (by omega) (n % base) (by omega)
        (List.cons.inj hlast).1
      rw [← Nat.div_add_mod m base, ← Nat.div_add_mod n base, hdiv, hmod]

/-! ## Quoted text -/

namespace QuotedText

/-- The character that a letter or sign after a backslash stands for. -/
def named (sign : Char) : Char :=
  if sign = '0' then '\x00'
  else if sign = 't' then '\t'
  else if sign = 'r' then '\r'
  else if sign = 'n' then '\n'
  else sign

/-- A delimiter is one of the two quotation marks, so it is no letter of an escape. -/
def IsDelimiter (c : Char) : Prop := c = '\x22' ∨ c = '\x27'

variable {delimiter : Char}

/-- The three forms of an escape: a sign after a backslash, a code point and a bare character. -/
theorem escape_cases (hd : IsDelimiter delimiter) (c : Char) :
    (∃ sign, escape delimiter c = ['\\', sign] ∧ sign ≠ 'u' ∧ c = named sign) ∨
      escape delimiter c = codePoint c ∨
      escape delimiter c = [c] ∧ c ≠ '\\' ∧ c ≠ delimiter := by
  unfold escape
  split_ifs with h0 ht hr hn hself hcode
  · exact .inl ⟨'0', rfl, by decide, by rw [h0]; rfl⟩
  · exact .inl ⟨'t', rfl, by decide, by rw [ht]; rfl⟩
  · exact .inl ⟨'r', rfl, by decide, by rw [hr]; rfl⟩
  · exact .inl ⟨'n', rfl, by decide, by rw [hn]; rfl⟩
  · obtain rfl | rfl | rfl : c = '\\' ∨ c = '\x22' ∨ c = '\x27' := by
      rcases hself with rfl | rfl
      · exact .inl rfl
      · exact .inr hd
    all_goals exact .inl ⟨_, rfl, by decide, by decide⟩
  · exact .inr (.inl rfl)
  · exact .inr (.inr ⟨rfl, not_or.mp hself⟩)

theorem readable_codePoint (c d : Char) : Readable Eq codePoint c d := by
  intro after after' h
  have hbrace := fun n => notMem_toDigits (by decide : 1 < 16)
    (fun _ => Nat.digitChar_ne '\x7d' (by decide)) n
  obtain ⟨hdigits, hafter⟩ := Readable.upTo (hbrace c.toNat) (hbrace d.toNat)
    (by simpa [codePoint] using h)
  exact ⟨Char.toNat_inj.mp (toDigits_injective (by decide) (by decide) hdigits), hafter⟩

theorem readable_escape (hd : IsDelimiter delimiter) (c d : Char) :
    Readable Eq (escape delimiter) c d := by
  intro after after' h
  rcases escape_cases hd c with ⟨sign, hc, hu, rfl⟩ | hc | ⟨hc, hbare, _⟩ <;>
    rcases escape_cases hd d with ⟨sign', hc', hu', rfl⟩ | hc' | ⟨hc', hbare', _⟩ <;>
    rw [hc, hc'] at h
  -- A bare character differs from the backslash of the others, and these differ behind it: no sign
  -- is the letter of a code point.
  · obtain ⟨rfl, hafter⟩ := List.cons.inj (List.cons.inj h).2
    exact ⟨rfl, hafter⟩
  · exact absurd (List.cons.inj (List.cons.inj h).2).1 hu
  · exact absurd (List.cons.inj h).1.symm hbare'
  · exact absurd (List.cons.inj (List.cons.inj h).2).1.symm hu'
  · exact readable_codePoint c d after after' h
  · exact absurd (List.cons.inj h).1.symm hbare'
  · exact absurd (List.cons.inj h).1 hbare
  · exact absurd (List.cons.inj h).1 hbare
  · exact List.cons.inj h

/-- No escape begins with the delimiter. -/
theorem opensBeside_escape (hd : IsDelimiter delimiter) (c : Char) :
    OpensBeside delimiter (escape delimiter c) := by
  have hbackslash : '\\' ≠ delimiter := by rcases hd with rfl | rfl <;> decide
  rcases escape_cases hd c with ⟨sign, hc, _⟩ | hc | ⟨hc, _, hne⟩
  · exact ⟨_, _, hc, hbackslash⟩
  · exact ⟨_, _, hc, hbackslash⟩
  · exact ⟨_, _, hc, hne⟩

theorem readable_enclose (hd : IsDelimiter delimiter) (text text' : List Char) :
    Readable Eq (enclose delimiter) text text' := by
  intro after after' h
  have hall := Readable.closed (fun c _ d _ => readable_escape hd c d)
    (fun c _ => opensBeside_escape hd c) (fun c _ => opensBeside_escape hd c)
    (by simpa [enclose] using h)
  rwa [List.forall₂_eq_eq_eq] at hall

end QuotedText

/-! ## Classes -/

/-- The text of an item as a list of characters. -/
def ClassItem.inspectChars (item : ClassItem) : List Char := item.inspect.toList

theorem ClassItem.inspectChars_single (c : Char) :
    (single c).inspectChars = QuotedText.enclose '\x27' [c] :=
  QuotedText.toList_ofChar c

theorem ClassItem.inspectChars_range (first last : Char) (ordered : first ≤ last) :
    (range first last ordered).inspectChars =
      '[' :: (QuotedText.enclose '\x27' [first] ++
        '-' :: (QuotedText.enclose '\x27' [last] ++ [']'])) := by
  simp [inspectChars, inspect]

theorem ClassItem.opensBeside_inspectChars (item : ClassItem) :
    OpensBeside ']' item.inspectChars := by
  cases item with
  | single c => exact ⟨_, _, inspectChars_single c, by decide⟩
  | range first last ordered => exact ⟨_, _, inspectChars_range first last ordered, by decide⟩

theorem ClassItem.readable_inspectChars (item other : ClassItem) :
    Readable Eq inspectChars item other := by
  intro after after' h
  have hchar := fun c d => QuotedText.readable_enclose (.inr rfl) [c] [d]
  cases item with
  | single c =>
    cases other with
    | single d =>
      rw [inspectChars_single, inspectChars_single] at h
      obtain ⟨hcd, hafter⟩ := hchar c d after after' h
      exact ⟨congrArg single (List.cons.inj hcd).1, hafter⟩
    | range low high ordered =>
      rw [inspectChars_single, inspectChars_range] at h
      exact absurd (List.cons.inj h).1 (by decide)
  | range first last ordered =>
    cases other with
    | single d =>
      rw [inspectChars_single, inspectChars_range] at h
      exact absurd (List.cons.inj h).1 (by decide)
    | range low high ordered' =>
      simp only [inspectChars_range, List.cons_append, List.append_assoc] at h
      obtain ⟨hlow, hlast⟩ := hchar first low _ _ (List.cons.inj h).2
      obtain ⟨hhigh, hclose⟩ := hchar last high _ _ (List.cons.inj hlast).2
      obtain ⟨rfl, -⟩ := List.cons.inj hlow
      obtain ⟨rfl, -⟩ := List.cons.inj hhigh
      exact ⟨rfl, (List.cons.inj hclose).2⟩

theorem CharacterClass.toList_inspect (cls : CharacterClass) :
    cls.inspect.toList =
      "class[".toList ++ ([',', ' '].intercalate (cls.items.map (·.inspectChars)) ++ [']']) := by
  have hmap : (cls.items.map (·.inspect)).map String.toList =
      cls.items.map (·.inspectChars) := by
    rw [List.map_map]
    rfl
  rw [inspect, String.toList_append, String.toList_append, String.toList_intercalate, hmap,
    List.append_assoc]
  rfl

theorem CharacterClass.readable_inspect (cls other : CharacterClass) :
    Readable Eq (fun cls => cls.inspect.toList) cls other := by
  intro after after' h
  simp only [toList_inspect, List.append_assoc] at h
  obtain ⟨hall, hafter⟩ := Readable.separated
    (fun item _ other _ => item.readable_inspectChars other) ⟨_, _, rfl, by decide⟩
    (fun item _ => item.opensBeside_inspectChars) (fun item _ => item.opensBeside_inspectChars)
    (List.append_cancel_left h)
  rw [List.forall₂_eq_eq_eq] at hall
  cases cls
  cases other
  exact ⟨congrArg mk hall, hafter⟩

end PatternGraph
