import PatternGraph.Pattern

/-!
# Building patterns

Each builder makes one new anonymous node, which has no serial number until it enters a heap.
Alternating and concatenating flatten an anonymous left operand of their own kind and keep
everything else whole. A bound of a repetition never exceeds `maxCount`.
-/

namespace PatternGraph
set_option autoImplicit false

/-- The largest bound of a repetition. -/
def maxCount : Nat := 4294967295

namespace Pattern

def ofText (text : String) : Pattern := .literal {} text

def ofClass (cls : CharacterClass) : Pattern := .characterClass {} cls

def anyOf (elements : List Pattern) : Pattern := .alternation {} elements

def inOrder (elements : List Pattern) : Pattern := .concatenation {} elements

def repeated (p : Pattern) (min : Nat) (max : Option Nat) : Pattern := .repetition {} p min max

def latched (name : String) (p : Pattern) : Pattern := .latch { name := some name } p

def reference (cell : Nat) : Pattern := .recursion {} cell

/-- The alternatives that a further one is appended to. -/
def alternatives : Pattern → List Pattern
  | .alternation { name := none, .. } elements => elements
  | p => [p]

/-- The parts that a further one is appended to. -/
def parts : Pattern → List Pattern
  | .concatenation { name := none, .. } elements => elements
  | p => [p]

def alternate (p q : Pattern) : Pattern := anyOf (p.alternatives ++ [q])

def concatenate (p q : Pattern) : Pattern := inOrder (p.parts ++ [q])

/-- A concatenation without its first `count` parts. -/
def dropFirst (count : Nat) : Pattern → Option Pattern
  | .concatenation _ elements => some (inOrder (elements.drop count))
  | _ => none

def any (p : Pattern) : Pattern := p.repeated 0 none

def atLeast (p : Pattern) (min : Nat) : Pattern := p.repeated min none

def atMost (p : Pattern) (max : Nat) : Pattern := p.repeated 0 (some max)

def oneOrMore (p : Pattern) : Pattern := p.atLeast 1

/-- There is no count below zero. -/
def lessThan (p : Pattern) : Nat → Option Pattern
  | 0 => none
  | max + 1 => some (p.atMost max)

/-- The bound stays at `maxCount` where the next count would exceed it. -/
def moreThan (p : Pattern) (min : Nat) : Pattern := p.atLeast (Nat.min (min + 1) maxCount)

def exactly (p : Pattern) (count : Nat) : Pattern := p.repeated count (some count)

def between (p : Pattern) (min max : Nat) : Pattern := p.repeated min (some max)

/-- A recursion counts as optional already and is returned as it is. -/
def optional : Pattern → Pattern
  | .recursion tag cell => .recursion tag cell
  | p => p.repeated 0 (some 1)

def isAny (p : Pattern) : Bool := p.bounds == some (0, none)

def isOneOrMore (p : Pattern) : Bool := p.bounds == some (1, none)

/-- Whether `p` is an unbounded repetition that `count` copies are enough for. -/
def isAtLeast (count : Nat) (p : Pattern) : Bool :=
  match p.bounds with
  | some (min, none) => min ≤ count
  | _ => false

/-- A latch is as optional as its target; every recursion counts as optional. -/
def isOptional : Pattern → Bool
  | .repetition _ _ min max => min == 0 && max == some 1
  | .latch _ target => target.isOptional
  | .recursion .. => true
  | _ => false

theorem bounds_repeated (p : Pattern) (min : Nat) (max : Option Nat) :
    (p.repeated min max).bounds = some (min, max) := rfl

@[simp] theorem name_anyOf (elements : List Pattern) : (anyOf elements).name = none := rfl

@[simp] theorem name_inOrder (elements : List Pattern) : (inOrder elements).name = none := rfl

@[simp] theorem alternatives_alternate (p q : Pattern) :
    (p.alternate q).alternatives = p.alternatives ++ [q] := rfl

@[simp] theorem parts_concatenate (p q : Pattern) :
    (p.concatenate q).parts = p.parts ++ [q] := rfl

end Pattern
end PatternGraph
