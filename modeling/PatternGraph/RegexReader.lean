import PatternGraph.RegexText

/-!
# Reading a regular expression

Reading happens in two passes, each of which takes one item at a time and never goes back. The
first turns escapes into characters that have lost their meaning. The second builds the tree: it
keeps the open groups on a stack, innermost first, and inside brackets or braces it keeps what it
has read of them. The notation read is the one of `RegexText`: a quantifier stands on an atom that
has none yet, and lazy quantifiers, flags, anchors and the dot are not part of it.
-/

namespace PatternGraph
set_option autoImplicit false

namespace Regex

/-- A character of the text, with or without the meaning that the notation gives it. -/
inductive Sign where
  | bare (c : Char)
  | quoted (c : Char)
deriving DecidableEq, Repr

/-- What the first pass has read of an escape. -/
inductive EscapeState where
  | outside
  | backslash
  /-- The escape by code point, before its opening brace. -/
  | code
  /-- The digits after the opening brace, if any yet. -/
  | digits (value : Option Nat)
deriving DecidableEq, Repr

/-- The character that a letter or meta character after a backslash stands for. -/
def escaped? (c : Char) : Option Char :=
  if c = 'n' then some '\n'
  else if c = 'r' then some '\r'
  else if c = 't' then some '\t'
  else if isMeta c then some c
  else none

def hexValue? (c : Char) : Option Nat :=
  if '0' ≤ c ∧ c ≤ '9' then some (c.toNat - '0'.toNat)
  else if 'A' ≤ c ∧ c ≤ 'F' then some (c.toNat - 'A'.toNat + 10)
  else if 'a' ≤ c ∧ c ≤ 'f' then some (c.toNat - 'a'.toNat + 10)
  else none

def decimalValue? (c : Char) : Option Nat :=
  if '0' ≤ c ∧ c ≤ '9' then some (c.toNat - '0'.toNat) else none

/-- The number so far with one more digit. -/
def appendDigit (base : Nat) (value : Option Nat) (digit : Nat) : Nat :=
  base * value.getD 0 + digit

def charOfCode? (value : Nat) : Option Char :=
  if value.isValidChar then some (Char.ofNat value) else none

/-- The first pass. -/
def signs : EscapeState → List Char → Option (List Sign)
  | .outside, [] => some []
  | _, [] => none
  | .outside, c :: rest =>
    if c = '\\' then signs .backslash rest else (signs .outside rest).map (.bare c :: ·)
  | .backslash, c :: rest =>
    if c = 'x' then signs .code rest
    else do
      let d ← escaped? c
      return .quoted d :: (← signs .outside rest)
  | .code, c :: rest => if c = '\x7b' then signs (.digits none) rest else none
  | .digits value, c :: rest =>
    if c = '\x7d' then do
      let d ← charOfCode? (← value)
      return .quoted d :: (← signs .outside rest)
    else do
      let digit ← hexValue? c
      signs (.digits (some (appendDigit 16 value digit))) rest

/-- A group that is still open, or the whole expression; latest first. -/
structure Level where
  finished : List Branch := []
  current : List Piece := []

/-- What the second pass is inside of. -/
inductive Place where
  | branch
  /-- Just after the opening bracket. -/
  | bracket
  /-- Inside brackets, with the items so far, latest first. -/
  | items (negated : Bool) (items : List ClassItem)
  /-- After the hyphen of a range. -/
  | rangeFrom (negated : Bool) (items : List ClassItem) (first : Char)
  /-- Inside braces, in the first number. -/
  | lower (value : Option Nat)
  /-- Inside braces, after the comma. -/
  | upper (min : Nat) (value : Option Nat)

structure ReaderState where
  place : Place := .branch
  level : Level := {}
  outer : List Level := []

namespace Level

def push (level : Level) (piece : Piece) : Level :=
  { level with current := piece :: level.current }

/-- Ends the current branch at a bar. -/
def bar (level : Level) : Level :=
  { finished := level.current.reverse :: level.finished }

/-- All branches in order. -/
def close (level : Level) : Regex :=
  match level.finished.reverse with
  | [] => { first := level.current.reverse }
  | first :: rest => { first, rest := rest ++ [level.current.reverse] }

/-- Puts a quantifier on the piece just read. -/
def quantify (level : Level) (quantifier : Quantifier) : Option Level :=
  match level.current with
  | .mk atom none :: rest => some { level with current := atom.repeated quantifier :: rest }
  | _ => none

end Level

/-- The character that a sign stands for where no meaning is looked for. -/
def Sign.literal? : Sign → Option Char
  | .bare c => if isMeta c then none else some c
  | .quoted c => some c

namespace ReaderState

def push (state : ReaderState) (atom : Atom) : ReaderState :=
  { state with place := .branch, level := state.level.push atom.once }

/-- Puts a quantifier on the piece just read, if its bounds are in order. -/
def quantify (state : ReaderState) (min : Nat) (max : Option Nat) : Option ReaderState :=
  if ordered : max.all (min ≤ ·) = true then do
    return { state with place := .branch, level := ← state.level.quantify ⟨min, max, ordered⟩ }
  else none

/-- Ends brackets, which hold at least one item; the items come latest first. -/
def closeBrackets (state : ReaderState) (negated : Bool) (items : List ClassItem) :
    Option ReaderState :=
  match items.reverse with
  | [] => none
  | first :: rest => some (state.push (if negated then .noneOf first rest else .oneOf first rest))

def stepBranch (state : ReaderState) (sign : Sign) : Option ReaderState :=
  match sign with
  | .bare '(' => some { level := {}, outer := state.level :: state.outer }
  | .bare ')' =>
    match state.outer with
    | [] => none
    | level :: outer =>
      let inner := state.level.close
      some { level := level.push (Atom.group inner.first inner.rest).once, outer }
  | .bare '|' => some { state with level := state.level.bar }
  | .bare '[' => some { state with place := .bracket }
  | .bare '\x7b' => some { state with place := .lower none }
  | .bare '?' => state.quantify 0 (some 1)
  | .bare '*' => state.quantify 0 none
  | .bare '+' => state.quantify 1 none
  | sign => sign.literal?.map fun c => state.push (.character c)

def stepItems (state : ReaderState) (negated : Bool) (items : List ClassItem) (sign : Sign) :
    Option ReaderState :=
  match sign with
  | .bare ']' => state.closeBrackets negated items
  | .bare '-' =>
    match items with
    | .single first :: rest => some { state with place := .rangeFrom negated rest first }
    | _ => none
  | sign => sign.literal?.map fun c => { state with place := .items negated (.single c :: items) }

def stepRange (state : ReaderState) (negated : Bool) (items : List ClassItem) (first : Char)
    (sign : Sign) : Option ReaderState := do
  let last ← sign.literal?
  if ordered : first ≤ last then
    some { state with place := .items negated (.range first last ordered :: items) }
  else none

def stepLower (state : ReaderState) (value : Option Nat) (sign : Sign) : Option ReaderState :=
  match sign with
  | .bare '\x7d' => do
    let count ← value
    state.quantify count (some count)
  | .bare ',' => return { state with place := .upper (← value) none }
  | .bare c => return { state with place := .lower (appendDigit 10 value (← decimalValue? c)) }
  | .quoted _ => none

def stepUpper (state : ReaderState) (min : Nat) (value : Option Nat) (sign : Sign) :
    Option ReaderState :=
  match sign with
  | .bare '\x7d' => state.quantify min value
  | .bare c => return { state with place := .upper min (appendDigit 10 value (← decimalValue? c)) }
  | .quoted _ => none

def step (state : ReaderState) (sign : Sign) : Option ReaderState :=
  match state.place with
  | .branch => state.stepBranch sign
  | .bracket =>
    if sign = .bare '^' then some { state with place := .items true [] }
    else state.stepItems false [] sign
  | .items negated items => state.stepItems negated items sign
  | .rangeFrom negated items first => state.stepRange negated items first sign
  | .lower value => state.stepLower value sign
  | .upper min value => state.stepUpper min value sign

/-- The tree, once every group, bracket and brace is closed. -/
def finish? (state : ReaderState) : Option Regex :=
  match state.place, state.outer with
  | .branch, [] => some state.level.close
  | _, _ => none

end ReaderState

/-- The second pass. -/
def ofSigns? (signs : List Sign) : Option Regex := do
  (← signs.foldlM ReaderState.step {}).finish?

def ofChars? (text : List Char) : Option Regex := do
  ofSigns? (← signs .outside text)

def ofText? (text : String) : Option Regex := ofChars? text.toList

end Regex
end PatternGraph
