import PatternGraph.UnprintableCharacters

/-!
# Quoted text

Text is quoted by one delimiter on each side. Inside, the delimiter and the backslash follow a
backslash, five controls have a letter, and every other character without a form of its own is
written by its code point. A string is delimited by the quotation mark and a single character by
the apostrophe, so each of the two marks stands bare inside the other.
-/

namespace PatternGraph.QuotedText
set_option autoImplicit false

/-- Lower-case hexadecimal digits, without leading zeros, between braces. -/
def codePoint (c : Char) : List Char :=
  '\\' :: 'u' :: '\x7b' :: (Nat.toDigits 16 c.toNat ++ ['\x7d'])

def escape (delimiter c : Char) : List Char :=
  if c = '\x00' then ['\\', '0']
  else if c = '\t' then ['\\', 't']
  else if c = '\r' then ['\\', 'r']
  else if c = '\n' then ['\\', 'n']
  else if c = '\\' ∨ c = delimiter then ['\\', c]
  else if isUnprintable c then codePoint c
  else [c]

def enclose (delimiter : Char) (text : List Char) : List Char :=
  delimiter :: (text.flatMap (escape delimiter) ++ [delimiter])

def ofString (text : String) : String := String.ofList (enclose '\x22' text.toList)

def ofChar (c : Char) : String := String.ofList (enclose '\x27' [c])

theorem escape_ne_nil (delimiter c : Char) : escape delimiter c ≠ [] := by
  unfold escape codePoint
  repeat' split
  all_goals simp

@[simp] theorem toList_ofString (text : String) :
    (ofString text).toList = enclose '\x22' text.toList := by
  simp [ofString]

@[simp] theorem toList_ofChar (c : Char) : (ofChar c).toList = enclose '\x27' [c] := by
  simp [ofChar]

end PatternGraph.QuotedText
