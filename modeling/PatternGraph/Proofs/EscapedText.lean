import PatternGraph.Proofs.FoldedOperators
import PatternGraph.RegexRoundTrip

/-!
# Escaped texts and classes

What is written for a text has one sign for each of its characters, and no character with a meaning
of its own is left bare. What is written for a class is read by the full rules of brackets, under
which a sign may owe its meaning to its neighbours: a hyphen joins two characters but stands for
itself at either end, a doubled sign is an operator, a caret at the front negates, a bracket opens a
class inside. Where none of the last three happens the rules give a list of items, and the brackets
of a class give its own items in order. A class without items is not written as a list.
-/

namespace PatternGraph
set_option autoImplicit false

namespace Regex

/-! ## Rules of brackets -/

/-- The character of a sign, whatever it means. -/
def Sign.char : Sign → Char
  | .bare c => c
  | .quoted c => c

/-- Whether two signs in a row join two classes. -/
def isOperator (sign next : Sign) : Bool :=
  sign == next && [Sign.bare '&', .bare '-', .bare '~'].contains sign

/-- Whether an item begins with `sign`, if `next` follows. -/
def opensItem (sign next : Sign) : Bool :=
  sign != .bare ']' && sign != .bare '[' && !isOperator sign next

/-- The items up to the closing bracket, with which the signs end. -/
def itemsOf? : List Sign → Option (List ClassItem)
  | [] => none
  | [sign] => if sign = .bare ']' then some [] else none
  | [sign, next] =>
    if opensItem sign next then return .single sign.char :: (← itemsOf? [next]) else none
  | sign :: next :: last :: rest =>
    if opensItem sign next then
      -- A hyphen in front of the closing bracket or of another hyphen does not join.
      if next = .bare '-' ∧ last ≠ .bare ']' ∧ last ≠ .bare '-' then do
        let item ← (RawItem.range sign.char last.char).check.toOption
        return item :: (← itemsOf? rest)
      else return .single sign.char :: (← itemsOf? (next :: last :: rest))
    else none

/-- The same where hyphens that come first stand for themselves. -/
def itemsAfterHyphens? : List Sign → Option (List ClassItem)
  | [] => none
  | sign :: rest =>
    if sign = .bare '-' then return .single '-' :: (← itemsAfterHyphens? rest)
    else itemsOf? (sign :: rest)

/-- The items of a class in brackets; a closing bracket that comes first stands for itself. -/
def bracketed? : List Sign → Option (List ClassItem)
  | opening :: first :: rest =>
    if opening ≠ .bare '[' ∨ first = .bare '^' then none
    else if first = .bare ']' then return .single ']' :: (← itemsOf? rest)
    else itemsAfterHyphens? (first :: rest)
  | _ => none

def classOfText? (text : String) : Option (List ClassItem) := do
  bracketed? (← signs .outside text.toList)

/-! ## Signs that stand for a character -/

section
variable {sign last : Sign} {c d : Char}

theorem char_of_literal? (h : sign.literal? = some c) : sign.char = c := by
  cases sign with
  | bare e =>
    simp only [Sign.literal?, Option.ite_none_left_eq_some, Option.some.injEq] at h
    exact h.2
  | quoted e => exact Option.some.inj h

theorem opensItem_of_literal? (h : sign.literal? = some c) (next : Sign) :
    opensItem sign next = true := by
  have hclose := ne_bare_of_literal? (d := ']') h (by decide)
  have hopen := ne_bare_of_literal? (d := '[') h (by decide)
  have hand := ne_bare_of_literal? (d := '&') h (by decide)
  have hhyphen := ne_bare_of_literal? (d := '-') h (by decide)
  have htilde := ne_bare_of_literal? (d := '~') h (by decide)
  simp [opensItem, isOperator, hclose, hopen, hand, hhyphen, htilde]

theorem itemsOf?_single (h : sign.literal? = some c) {next : Sign} (hnext : next ≠ .bare '-')
    (rest : List Sign) :
    itemsOf? (sign :: next :: rest) = (itemsOf? (next :: rest)).map (.single c :: ·) := by
  cases rest <;>
    simp [itemsOf?, opensItem_of_literal? h, char_of_literal? h, hnext, Option.map_eq_bind]

theorem itemsOf?_range (h : sign.literal? = some c) (h' : last.literal? = some d)
    (ordered : c ≤ d) (rest : List Sign) :
    itemsOf? (sign :: .bare '-' :: last :: rest) =
      (itemsOf? rest).map (.range c d ordered :: ·) := by
  have hclose := ne_bare_of_literal? (d := ']') h' (by decide)
  have hhyphen := ne_bare_of_literal? (d := '-') h' (by decide)
  simp [itemsOf?, opensItem_of_literal? h, char_of_literal? h, char_of_literal? h', hclose, hhyphen,
    RawItem.check, ordered, Except.toOption, Option.map_eq_bind]

theorem bracketed?_of_literal? (h : sign.literal? = some c) (rest : List Sign) :
    bracketed? (.bare '[' :: sign :: rest) = itemsOf? (sign :: rest) := by
  have hcaret := ne_bare_of_literal? (d := '^') h (by decide)
  have hclose := ne_bare_of_literal? (d := ']') h (by decide)
  have hhyphen := ne_bare_of_literal? (d := '-') h (by decide)
  simp [bracketed?, itemsAfterHyphens?, hcaret, hclose, hhyphen]

end

theorem char_charSign (c : Char) : (charSign c).char = c :=
  char_of_literal? (literal?_charSign c)

theorem isMeta_of_charSign_eq {c d : Char} (h : charSign d = .bare c) : isMeta c = false := by
  have hliteral := literal?_charSign d
  rw [h] at hliteral
  simp only [Sign.literal?, Option.ite_none_left_eq_some] at hliteral
  simpa using hliteral.1

/-! ## Signs of a text and of a class -/

theorem Signed.signs_eq {text : List Char} {read : List Sign} (h : Signed text read) :
    signs .outside text = some read := by
  have hall := h []
  rw [List.append_nil] at hall
  rw [hall]
  simp [signs]

theorem signed_text (text : List Char) : Signed (text.flatMap escape) (text.map charSign) := by
  have h := Signed.flatMap signed_escape text
  rwa [← List.map_eq_flatMap] at h

theorem map_char_map_charSign (text : List Char) : (text.map charSign).map Sign.char = text := by
  simp [Function.comp_def, char_charSign]

/-- No item is followed by a hyphen that would join it to the next one. -/
theorem exists_next_sign (items : List ClassItem) : ∃ next rest,
    items.flatMap (itemSigns charSign) ++ [.bare ']'] = next :: rest ∧ next ≠ .bare '-' := by
  have hne := fun c => ne_bare_of_literal? (d := '-') (literal?_charSign c) (by decide)
  cases items with
  | nil => exact ⟨_, _, rfl, by decide⟩
  | cons item items =>
    cases item with
    | single c => exact ⟨_, _, rfl, hne c⟩
    | range first last ordered => exact ⟨_, _, rfl, hne first⟩

theorem itemsOf?_signs (items : List ClassItem) :
    itemsOf? (items.flatMap (itemSigns charSign) ++ [.bare ']']) = some items := by
  induction items with
  | nil => rfl
  | cons item items ih =>
    rw [List.flatMap_cons, List.append_assoc]
    cases item with
    | single c =>
      obtain ⟨next, rest, hnext, hne⟩ := exists_next_sign items
      rw [hnext] at ih ⊢
      exact (itemsOf?_single (literal?_charSign c) hne rest).trans (congrArg _ ih)
    | range first last ordered =>
      exact (itemsOf?_range (literal?_charSign first) (literal?_charSign last) ordered _).trans
        (congrArg _ ih)

theorem bracketed?_signs (first : ClassItem) (rest : List ClassItem) :
    bracketed? (Atom.oneOf first rest).signs = some (first :: rest) := by
  rw [← itemsOf?_signs (first :: rest), Atom.signs]
  cases first with
  | single c => exact bracketed?_of_literal? (literal?_charSign c) _
  | range low high ordered => exact bracketed?_of_literal? (literal?_charSign low) _

end Regex

namespace Fragment
open Regex

theorem pieces_ofText (text : List Char) : (ofText text).pieces = Branch.ofText text := by
  unfold ofText
  split <;> rfl

theorem signs_ofText (text : List Char) :
    signs .outside (ofText text).source.toList = some (text.map charSign) := by
  rw [toList_source, pieces_ofText, charsAll_ofText]
  exact (signed_text text).signs_eq

theorem source_ofText_injective {text text' : List Char}
    (h : (ofText text).source = (ofText text').source) : text = text' := by
  have hsigns := signs_ofText text
  rw [h, signs_ofText, Option.some.injEq] at hsigns
  have htexts := congrArg (List.map Sign.char) hsigns
  rw [map_char_map_charSign, map_char_map_charSign] at htexts
  exact htexts.symm

theorem classOfText?_ofClass {cls : CharacterClass} (h : cls.items ≠ []) :
    classOfText? (ofClass cls).source = some cls.items := by
  obtain ⟨first, rest, hitems⟩ := List.exists_cons_of_ne_nil h
  have hpieces : (ofClass cls).pieces = [(Atom.oneOf first rest).once] := by
    unfold ofClass
    rw [hitems]
    rfl
  have htext : (ofClass cls).source.toList = (Atom.oneOf first rest).chars := by
    rw [toList_source, hpieces]
    simp [Piece.charsAll, Atom.once, Piece.chars, suffixText]
  rw [classOfText?, htext, (Atom.signed _).signs_eq, hitems]
  exact bracketed?_signs first rest

end Fragment

namespace Heap
open Regex

/-- The text of a literal has one sign for each of its characters, none of which keeps a meaning of
its own, so different literals have different texts; and the brackets of a class are read as its
items, in order. -/
theorem sources_read_back (heap : Heap) :
    (∀ tag text, ∃ source read, heap.regexSource (.literal tag text) = .ok source ∧
      signs .outside source.toList = some read ∧ read.map Sign.char = text.toList ∧
      ∀ c, Sign.bare c ∈ read → isMeta c = false) ∧
    (∀ tag tag' text text', heap.regexSource (.literal tag text) =
      heap.regexSource (.literal tag' text') ↔ text = text') ∧
    ∀ tag cls, cls.items ≠ [] → ∃ source,
      heap.regexSource (.characterClass tag cls) = .ok source ∧
        classOfText? source = some cls.items := by
  refine ⟨?_, ?_, ?_⟩
  · intro tag text
    refine ⟨_, _, rfl, Fragment.signs_ofText _, map_char_map_charSign _, ?_⟩
    intro c hc
    obtain ⟨d, _, hd⟩ := List.mem_map.mp hc
    exact isMeta_of_charSign_eq hd
  · intro tag tag' text text'
    constructor
    · intro hsame
      have hsource : (Fragment.ofText text.toList).source = (Fragment.ofText text'.toList).source :=
        Except.ok.inj hsame
      exact String.toList_inj.mp (Fragment.source_ofText_injective hsource)
    · rintro rfl
      rfl
  · intro tag cls hitems
    exact ⟨_, rfl, Fragment.classOfText?_ofClass hitems⟩

/-- Signs that would mean something to their neighbours if they were bare, also at the ends of
ranges, and a backslash in front of a letter. -/
def crowded : CharacterClass :=
  ⟨[.single '^', .single '-', .range '+' '-' (by decide), .single '-', .single '&', .single '&',
    .single '~', .single '~', .single '[', .range '\\' ']' (by decide), .single ']', .single '\\',
    .single 'n', .single '\n', .single '\x00']⟩

theorem sources_read_back_crowded : crowded.items ≠ [] ∧ ∃ source,
    ({} : Heap).regexSource (.ofClass crowded) = .ok source ∧
      classOfText? source = some crowded.items :=
  ⟨by decide, (sources_read_back {}).2.2 {} crowded (by decide)⟩

/-- Without backslashes some of these signs do mean something. -/
example : classOfText? "[a-b-c]" = some [.range 'a' 'b' (by decide), .single '-', .single 'c'] ∧
    classOfText? "[a&&b]" = none := by
  decide

end Heap
end PatternGraph
