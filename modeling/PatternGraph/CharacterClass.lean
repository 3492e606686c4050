import PatternGraph.QuotedText

/-!
# Character classes

A class is an ordered list of characters and inclusive ranges, none of which runs backwards. Items
given to a class operation are checked in order, and the first range that runs backwards is
reported. Removing characters truncates or splits ranges in place; the surrogate gap separates no
characters, so U+D7FF and U+E000 are neighbours. The order and repetition of items are kept.
-/

namespace PatternGraph
set_option autoImplicit false

/-- An item as it is given; a range may run backwards. -/
inductive RawItem where
  | single (c : Char)
  | range (first last : Char)
deriving DecidableEq, Repr

/-- A single character, or all characters between two, both included. -/
inductive ClassItem where
  | single (c : Char)
  | range (first last : Char) (ordered : first ≤ last)
deriving DecidableEq, Repr

inductive ClassError where
  | invertedRange (first last : Char)
deriving DecidableEq, Repr

def ClassError.message : ClassError → String
  | .invertedRange first last =>
    "inverted character range " ++ QuotedText.ofChar first ++ "-" ++ QuotedText.ofChar last

def RawItem.check : RawItem → Except ClassError ClassItem
  | .single c => .ok (.single c)
  | .range first last =>
    if ordered : first ≤ last then .ok (.range first last ordered)
    else .error (.invertedRange first last)

/-- The character before `c`, where the surrogate gap is stepped over. -/
def charBefore (c : Char) : Char :=
  if c.toNat = 0xE000 then '\ud7ff' else Char.ofNat (c.toNat - 1)

/-- The character after `c`, where the surrogate gap is stepped over. -/
def charAfter (c : Char) : Char :=
  if c.toNat = 0xD7FF then '\ue000' else Char.ofNat (c.toNat + 1)

theorem char_le_iff (c d : Char) : c ≤ d ↔ c.toNat ≤ d.toNat := Iff.rfl

theorem char_lt_iff (c d : Char) : c < d ↔ c.toNat < d.toNat := Iff.rfl

theorem char_range (c : Char) : c.toNat < 0xD800 ∨ (0xDFFF < c.toNat ∧ c.toNat < 0x110000) :=
  c.valid

theorem toNat_charOfNat {n : Nat} (h : n.isValidChar) : (Char.ofNat n).toNat = n := by
  rw [Char.ofNat, dif_pos h]
  rfl

theorem toNat_charBefore {c : Char} (h : 0 < c.toNat) :
    (charBefore c).toNat = if c.toNat = 0xE000 then 0xD7FF else c.toNat - 1 := by
  have hc := char_range c
  unfold charBefore
  split
  · rfl
  · refine toNat_charOfNat ?_
    unfold Nat.isValidChar
    omega

theorem toNat_charAfter {c : Char} (h : c.toNat < 0x10FFFF) :
    (charAfter c).toNat = if c.toNat = 0xD7FF then 0xE000 else c.toNat + 1 := by
  have hc := char_range c
  unfold charAfter
  split
  · rfl
  · refine toNat_charOfNat ?_
    unfold Nat.isValidChar
    omega

theorem le_charBefore {first bound : Char} (h : first < bound) : first ≤ charBefore bound := by
  have hf := char_range first
  rw [char_lt_iff] at h
  rw [char_le_iff, toNat_charBefore (by omega)]
  split <;> omega

theorem charAfter_le {bound last : Char} (h : bound < last) : charAfter bound ≤ last := by
  have hl := char_range last
  rw [char_lt_iff] at h
  rw [char_le_iff, toNat_charAfter (by omega)]
  split <;> omega

namespace ClassItem

def lowest : ClassItem → Char
  | .single c => c
  | .range first _ _ => first

def highest : ClassItem → Char
  | .single c => c
  | .range _ last _ => last

theorem lowest_le_highest (item : ClassItem) : item.lowest ≤ item.highest := by
  cases item with
  | single c => exact Nat.le_refl c.toNat
  | range first last ordered => exact ordered

def includes (item : ClassItem) (c : Char) : Bool :=
  item.lowest ≤ c && c ≤ item.highest

theorem includes_iff (item : ClassItem) (c : Char) :
    item.includes c = true ↔ item.lowest ≤ c ∧ c ≤ item.highest := by
  simp [includes]

def inspect : ClassItem → String
  | .single c => QuotedText.ofChar c
  | .range first last _ =>
    "[" ++ QuotedText.ofChar first ++ "-" ++ QuotedText.ofChar last ++ "]"

/-- The characters from `first` up to the one before `bound`. -/
def upTo (first bound : Char) : List ClassItem :=
  if h : first < bound then [.range first (charBefore bound) (le_charBefore h)] else []

/-- The characters from the one after `bound` up to `last`. -/
def beyond (bound last : Char) : List ClassItem :=
  if h : bound < last then [.range (charAfter bound) last (charAfter_le h)] else []

/-- What is left of an item once the characters of `cut` are removed. -/
def without (cut : ClassItem) : ClassItem → List ClassItem
  | .single c => if cut.includes c then [] else [.single c]
  | .range first last ordered =>
    if cut.highest < first ∨ last < cut.lowest then [.range first last ordered]
    else upTo first cut.lowest ++ beyond cut.highest last

end ClassItem

structure CharacterClass where
  items : List ClassItem := []
deriving DecidableEq, Repr

namespace CharacterClass

def empty : CharacterClass := {}

def isEmpty (cls : CharacterClass) : Bool := cls.items.isEmpty

def includes (cls : CharacterClass) (c : Char) : Bool :=
  cls.items.any (·.includes c)

/-- The class of the given items, in their order. -/
def ofItems (items : List RawItem) : Except ClassError CharacterClass :=
  return ⟨← items.mapM (·.check)⟩

/-- Removes the characters of one item. -/
def remove (cls : CharacterClass) (cut : ClassItem) : CharacterClass :=
  ⟨cls.items.flatMap cut.without⟩

/-- Removes the characters of each given item in turn. -/
def except (cls : CharacterClass) (removed : List RawItem) : Except ClassError CharacterClass :=
  removed.foldlM (fun cls item => return cls.remove (← item.check)) cls

def union (left right : CharacterClass) : CharacterClass := ⟨left.items ++ right.items⟩

def insertChar (cls : CharacterClass) (c : Char) : CharacterClass := ⟨cls.items ++ [.single c]⟩

def insertItem (cls : CharacterClass) (item : RawItem) : Except ClassError CharacterClass :=
  return ⟨cls.items ++ [← item.check]⟩

def inspect (cls : CharacterClass) : String :=
  "class[" ++ String.intercalate ", " (cls.items.map (·.inspect)) ++ "]"

theorem includes_iff (cls : CharacterClass) (c : Char) :
    cls.includes c = true ↔ ∃ item ∈ cls.items, item.includes c = true := by
  simp [includes]

@[simp] theorem includes_empty (c : Char) : empty.includes c = false := rfl

@[simp] theorem includes_union (left right : CharacterClass) (c : Char) :
    (left.union right).includes c = (left.includes c || right.includes c) := by
  simp [includes, union]

@[simp] theorem includes_insertChar (cls : CharacterClass) (c d : Char) :
    (cls.insertChar c).includes d = (cls.includes d || (ClassItem.single c).includes d) := by
  simp [includes, insertChar]

end CharacterClass
end PatternGraph
