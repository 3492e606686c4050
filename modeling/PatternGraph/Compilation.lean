import PatternGraph.RegexReader
import PatternGraph.RegexNesting
import PatternGraph.Unfolding

/-!
# Regular expressions of patterns

A pattern has a regular expression when its unfolding is finite, every recursion in it is bound
and no repetition has its bounds the wrong way round. The tree of the expression is built first
and then written. The first obstacle met from left to right is the error; the bounds of a
repetition are looked at before what it repeats. Parsing reads the written text back and refuses
a tree that is nested more deeply than a limit.
-/

namespace PatternGraph
set_option autoImplicit false

/-- Why a written expression is refused. -/
inductive RegexError where
  | malformed
  | tooDeep (limit : Nat)
deriving DecidableEq, Repr

inductive CompileError where
  | notRegular
  | unresolvedRecursion
  | invalidRepeat (min max : Nat)
  | rejected (reason : RegexError)
deriving DecidableEq, Repr

def RegexError.message : RegexError → String
  | .malformed => "error: malformed pattern"
  | .tooDeep limit =>
    "error: exceed the maximum number of nested parentheses/brackets (" ++ toString limit ++ ")"

def CompileError.message : CompileError → String
  | .notRegular => "self-embedding recursion has no regular expression"
  | .unresolvedRecursion => "recursion was never resolved"
  | .invalidRepeat min max =>
    "invalid repetition bounds " ++ toString min ++ "..=" ++ toString max
  | .rejected reason => reason.message

open Regex

/-- What a pattern becomes: an atom, which may take a quantifier as it is, or a row of pieces. -/
inductive Fragment where
  | atom (single : Atom)
  | row (pieces : List Piece)

namespace Fragment

def pieces : Fragment → List Piece
  | .atom single => [single.once]
  | .row pieces => pieces

/-- The atom that takes a quantifier; a row becomes one by a group around it. -/
def toAtom : Fragment → Atom
  | .atom single => single
  | .row pieces => .group pieces []

def ofText : List Char → Fragment
  | [c] => .atom (.character c)
  | text => .row (Branch.ofText text)

/-- Brackets need an item, so a class without one matches nothing. -/
def ofClass (cls : CharacterClass) : Fragment :=
  match cls.items with
  | [] => .atom .nothing
  | first :: rest => .atom (.oneOf first rest)

def choice : List Fragment → Fragment
  | [] => .atom .nothing
  | [single] => single
  | first :: rest => .atom (.group first.pieces (rest.map pieces))

def chain : List Fragment → Fragment
  | [single] => single
  | fragments => .row (fragments.flatMap pieces)

/-- Exactly one copy is the fragment itself. -/
def repeated (fragment : Fragment) (quantifier : Quantifier) : Fragment :=
  if quantifier.min = 1 ∧ quantifier.max = some 1 then fragment
  else .row [fragment.toAtom.repeated quantifier]

end Fragment

/-- A quantifier for bounds that are in order. -/
def Quantifier.ofBounds (min : Nat) : Option Nat → Except CompileError Quantifier
  | none => .ok ⟨min, none, rfl⟩
  | some max =>
    if ordered : min ≤ max then .ok ⟨min, some max, by simpa using ordered⟩
    else .error (.invalidRepeat min max)

mutual
def Pattern.fragmentWith (atCell : Nat → Except CompileError Fragment) :
    Pattern → Except CompileError Fragment
  | .literal _ text => .ok (.ofText text.toList)
  | .characterClass _ cls => .ok (.ofClass cls)
  | .alternation _ elements => return .choice (← Pattern.fragments atCell elements)
  | .concatenation _ elements => return .chain (← Pattern.fragments atCell elements)
  | .repetition _ inner min max => do
    let quantifier ← Quantifier.ofBounds min max
    return (← Pattern.fragmentWith atCell inner).repeated quantifier
  | .latch _ target => Pattern.fragmentWith atCell target
  | .recursion _ cell => atCell cell

def Pattern.fragments (atCell : Nat → Except CompileError Fragment) :
    List Pattern → Except CompileError (List Fragment)
  | [] => .ok []
  | p :: rest => return (← Pattern.fragmentWith atCell p) :: (← Pattern.fragments atCell rest)
end

def fragmentWalk : Walk (Except CompileError Fragment) where
  onRepeat := .error .notRegular
  onUnbound := .error .unresolvedRecursion
  onTree := Pattern.fragmentWith

/-- How deeply an expression may be nested unless a limit is given. -/
def defaultNestLimit : Nat := 250

namespace Heap

def fragment (heap : Heap) (p : Pattern) : Except CompileError Fragment := fragmentWalk.run heap p

/-- The regular expression that a pattern is compiled to. -/
def regex (heap : Heap) (p : Pattern) : Except CompileError Regex :=
  return { first := (← heap.fragment p).pieces }

/-- The text of that expression. -/
def regexSource (heap : Heap) (p : Pattern) : Except CompileError String :=
  return (← heap.regex p).text

/-- Reads the text back, within a limit on its nesting. -/
def parseRegex (heap : Heap) (nestLimit : Nat) (p : Pattern) : Except CompileError Regex := do
  match Regex.ofText? (← heap.regexSource p) with
  | none => .error (.rejected .malformed)
  | some regex =>
    if nestLimit < regex.depth then .error (.rejected (.tooDeep nestLimit)) else .ok regex

end Heap
end PatternGraph
