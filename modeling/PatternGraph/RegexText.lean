import PatternGraph.RegularExpression

/-!
# The text of a regular expression

A character with a meaning of its own in the notation follows a backslash, and three blanks have a
letter. Inside brackets the same rules hold, so that a bare hyphen there always joins the two ends
of a range. Negated brackets give their characters by code point in upper-case hexadecimal. The
text is put together from its end, so that no part of it is copied once it is written.
-/

namespace PatternGraph
set_option autoImplicit false

namespace Regex

/-- The characters with a meaning of their own. -/
def metaCharacters : List Char :=
  ['\\', '.', '+', '*', '?', '(', ')', '|', '[', ']', '\x7b', '\x7d', '^', '$', '#', '&', '-', '~']

def isMeta (c : Char) : Bool := metaCharacters.contains c

def escape (c : Char) : List Char :=
  if c = '\n' then ['\\', 'n']
  else if c = '\r' then ['\\', 'r']
  else if c = '\t' then ['\\', 't']
  else if isMeta c then ['\\', c]
  else [c]

/-- Upper-case hexadecimal digits between braces. -/
def codePoint (c : Char) : List Char :=
  '\\' :: 'x' :: '\x7b' :: ((Nat.toDigits 16 c.toNat).map Char.toUpper ++ ['\x7d'])

/-- An item whose characters are written by `spell`. -/
def itemText (spell : Char → List Char) : ClassItem → List Char
  | .single c => spell c
  | .range first last _ => spell first ++ '-' :: spell last

/-- Brackets around the text of the items; `opening` is what stands before the first one. -/
def bracketText (opening : List Char) (spell : Char → List Char) (items : List ClassItem) :
    List Char :=
  opening ++ items.flatMap (itemText spell) ++ [']']

/-- The sign or braces after an atom; the shortest form is chosen. -/
def boundsText : Nat → Option Nat → List Char
  | 0, some 1 => ['?']
  | 0, none => ['*']
  | 1, none => ['+']
  | min, none => '\x7b' :: (Nat.toDigits 10 min ++ [',', '\x7d'])
  | min, some max =>
    if min = max then '\x7b' :: (Nat.toDigits 10 min ++ ['\x7d'])
    else '\x7b' :: (Nat.toDigits 10 min ++ ',' :: (Nat.toDigits 10 max ++ ['\x7d']))

def suffixText : Option Quantifier → List Char
  | none => []
  | some quantifier => boundsText quantifier.min quantifier.max

mutual
def Atom.chars : Atom → List Char
  | .character c => escape c
  | .oneOf first rest => bracketText ['['] escape (first :: rest)
  | .noneOf first rest => bracketText ['[', '^'] codePoint (first :: rest)
  | .group first rest => '(' :: (Piece.charsAll first ++ Piece.charsRest rest ++ [')'])

def Piece.chars : Piece → List Char
  | .mk atom quantifier => Atom.chars atom ++ suffixText quantifier

def Piece.charsAll : List Piece → List Char
  | [] => []
  | piece :: rest => Piece.chars piece ++ Piece.charsAll rest

/-- Each further branch after its bar. -/
def Piece.charsRest : List (List Piece) → List Char
  | [] => []
  | branch :: rest => '|' :: (Piece.charsAll branch ++ Piece.charsRest rest)
end

def chars (regex : Regex) : List Char := Piece.charsAll regex.first ++ Piece.charsRest regex.rest

mutual
/-- Writes an atom in front of the text that follows it. -/
def Atom.write : Atom → List Char → List Char
  | .group first rest, after =>
    '(' :: Piece.writeAll first (Piece.writeRest rest (')' :: after))
  | atom, after => Atom.chars atom ++ after

def Piece.write : Piece → List Char → List Char
  | .mk atom quantifier, after => Atom.write atom (suffixText quantifier ++ after)

def Piece.writeAll : List Piece → List Char → List Char
  | [], after => after
  | piece :: rest, after => Piece.write piece (Piece.writeAll rest after)

def Piece.writeRest : List (List Piece) → List Char → List Char
  | [], after => after
  | branch :: rest, after => '|' :: Piece.writeAll branch (Piece.writeRest rest after)
end

def text (regex : Regex) : String :=
  String.ofList (Piece.writeAll regex.first (Piece.writeRest regex.rest []))

mutual
theorem Atom.write_eq : ∀ (atom : Atom) (after : List Char),
    Atom.write atom after = Atom.chars atom ++ after
  | .character _, _ => by simp only [Atom.write]
  | .oneOf _ _, _ => by simp only [Atom.write]
  | .noneOf _ _, _ => by simp only [Atom.write]
  | .group first rest, after => by
    simp [Atom.write, Atom.chars, Piece.writeAll_eq first, Piece.writeRest_eq rest]

theorem Piece.write_eq : ∀ (piece : Piece) (after : List Char),
    Piece.write piece after = Piece.chars piece ++ after
  | .mk atom _, _ => by simp [Piece.write, Piece.chars, Atom.write_eq atom]

theorem Piece.writeAll_eq : ∀ (pieces : List Piece) (after : List Char),
    Piece.writeAll pieces after = Piece.charsAll pieces ++ after
  | [], _ => rfl
  | piece :: rest, _ => by
    simp [Piece.writeAll, Piece.charsAll, Piece.write_eq piece, Piece.writeAll_eq rest]

theorem Piece.writeRest_eq : ∀ (branches : List (List Piece)) (after : List Char),
    Piece.writeRest branches after = Piece.charsRest branches ++ after
  | [], _ => rfl
  | branch :: rest, _ => by
    simp [Piece.writeRest, Piece.charsRest, Piece.writeAll_eq branch, Piece.writeRest_eq rest]
end

theorem toList_text (regex : Regex) : regex.text.toList = regex.chars := by
  simp [text, chars, Piece.writeAll_eq, Piece.writeRest_eq]

@[simp] theorem charsAll_append (as bs : List Piece) :
    Piece.charsAll (as ++ bs) = Piece.charsAll as ++ Piece.charsAll bs := by
  induction as with
  | nil => simp [Piece.charsAll]
  | cons a as ih => simp [Piece.charsAll, ih]

theorem charsAll_ofText (text : List Char) :
    Piece.charsAll (Branch.ofText text) = text.flatMap escape := by
  induction text with
  | nil => rfl
  | cons c text ih =>
    simp only [Branch.ofText, List.map_cons, Piece.charsAll, List.flatMap_cons] at ih ⊢
    rw [ih]
    simp [Atom.once, Piece.chars, Atom.chars, suffixText]

end Regex
end PatternGraph
