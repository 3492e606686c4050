import PatternGraph.Equality
import PatternGraph.Unfolding

/-!
# Matches

A match is a tree of values, each with the pattern it is a value of and, optionally, the span of
the source it was found at. A match is built against what its pattern stands for once latches and
bound recursions are looked through. The values of a concatenation and of a repetition are counted
but not compared with the patterns of the parts.
-/

namespace PatternGraph
set_option autoImplicit false

/-- The source positions from `start` up to `stop`, in either order. -/
structure Span where
  start : Nat
  stop : Nat
deriving DecidableEq, Repr

inductive Match where
  | text (pattern : Pattern) (content : String) (location : Option Span)
  | alternative (pattern : Pattern) (chosen : Match) (location : Option Span)
  | sequence (pattern : Pattern) (values : List Match) (location : Option Span)

inductive MatchError where
  | arity (expected actual : Nat)
  | bounds (min : Nat) (max : Option Nat) (actual : Nat)
  | kind (expected actual : PatternKind)
  | notAnAlternative
  | mismatch (text : String)
  | notMatchable
deriving DecidableEq, Repr

def MatchError.message : MatchError → String
  | .arity expected actual =>
    "need " ++ toString expected ++ " values, got " ++ toString actual
  | .bounds min none actual =>
    toString actual ++ " repetitions outside of " ++ toString min ++ "..=None"
  | .bounds min (some max) actual =>
    toString actual ++ " repetitions outside of " ++ toString min ++ "..=Some(" ++
      toString max ++ ")"
  | .kind expected actual =>
    "expected a " ++ expected.word ++ " pattern, found " ++ actual.word
  | .notAnAlternative => "value is not one of the alternatives"
  | .mismatch text => "text " ++ QuotedText.ofString text ++ " does not match the pattern"
  | .notMatchable => "pattern has no match shape"

/-- The pattern behind latches, given what stands behind cells. -/
def Pattern.underlyingWith (atCell : Nat → Option Pattern) : Pattern → Option Pattern
  | .latch _ target => target.underlyingWith atCell
  | .recursion _ cell => atCell cell
  | p => some p

def underlyingWalk : Walk (Option Pattern) where
  onRepeat := none
  onUnbound := none
  onTree := Pattern.underlyingWith

/-- The pattern that does the matching, unless there is only an unbound cell or a circle. -/
def Heap.underlying (heap : Heap) (p : Pattern) : Option Pattern := underlyingWalk.run heap p

namespace Match

def pattern : Match → Pattern
  | .text pattern _ _ => pattern
  | .alternative pattern _ _ => pattern
  | .sequence pattern _ _ => pattern

def location : Match → Option Span
  | .text _ _ location => location
  | .alternative _ _ location => location
  | .sequence _ _ location => location

/-- The chosen value of an alternation, or the values of a sequence. -/
def values : Match → List Match
  | .text .. => []
  | .alternative _ chosen _ => [chosen]
  | .sequence _ values _ => values

def withLocation (span : Span) : Match → Match
  | .text pattern content _ => .text pattern content (some span)
  | .alternative pattern chosen _ => .alternative pattern chosen (some span)
  | .sequence pattern values _ => .sequence pattern values (some span)

end Match

/-- Whether a class accepts a text, which has to be one character. -/
def CharacterClass.acceptsText (cls : CharacterClass) : List Char → Bool
  | [c] => cls.includes c
  | _ => false

namespace Heap

/-- The pattern behind `p`, or the error that it has none. -/
def matchable (heap : Heap) (p : Pattern) : Except MatchError Pattern :=
  match heap.underlying p with
  | some target => .ok target
  | none => .error .notMatchable

/-- The text of a literal, or a single character of a class. -/
def matchText (heap : Heap) (p : Pattern) (text : String) : Except MatchError Match := do
  match ← heap.matchable p with
  | .literal _ expected =>
    if expected = text then .ok (.text p text none) else .error (.mismatch text)
  | .characterClass _ cls =>
    if cls.acceptsText text.toList then .ok (.text p text none) else .error (.mismatch text)
  | target => .error (.kind .literal target.kind)

/-- Whether a value of the pattern `p` counts as a value of the alternative `element`. -/
def admits (heap : Heap) (element p : Pattern) : Bool :=
  heap.equal element p || heap.equalOutcome (heap.underlying element) (heap.underlying p)

def matchAlternation (heap : Heap) (p : Pattern) (value : Match) : Except MatchError Match := do
  match ← heap.matchable p with
  | .alternation _ elements =>
    if elements.any (heap.admits · value.pattern) then .ok (.alternative p value none)
    else .error .notAnAlternative
  | target => .error (.kind .alternation target.kind)

/-- There is exactly one value for each part. -/
def matchConcatenation (heap : Heap) (p : Pattern) (values : List Match) :
    Except MatchError Match := do
  match ← heap.matchable p with
  | .concatenation _ elements =>
    if elements.length = values.length then .ok (.sequence p values none)
    else .error (.arity elements.length values.length)
  | target => .error (.kind .concatenation target.kind)

def matchRepetition (heap : Heap) (p : Pattern) (values : List Match) :
    Except MatchError Match := do
  match ← heap.matchable p with
  | .repetition _ _ min max =>
    if withinBounds min max values.length then .ok (.sequence p values none)
    else .error (.bounds min max values.length)
  | target => .error (.kind .repetition target.kind)

end Heap

end PatternGraph
