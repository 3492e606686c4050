import PatternGraph.Unfolding

/-!
# Fixed width

The width of a pattern in characters, where every alternative and every repetition agrees on one.
A width is a 64-bit count: a sum or product beyond it is no width. A pattern inside itself and an
unbound recursion have no width either.
-/

namespace PatternGraph
set_option autoImplicit false

/-- The first count that does not fit 64 bits. -/
def widthLimit : Nat := 18446744073709551616

/-- A count that fits 64 bits. -/
def checkedWidth (n : Nat) : Option Nat :=
  if n < widthLimit then some n else none

mutual
def Pattern.widthWith (atCell : Nat → Option Nat) : Pattern → Option Nat
  | .literal _ text => checkedWidth text.length
  | .characterClass .. => some 1
  | .alternation _ [] => none
  | .alternation _ (first :: rest) => do
    let width ← Pattern.widthWith atCell first
    if Pattern.allOfWidth atCell width rest then some width else none
  | .concatenation _ elements => Pattern.totalWidth atCell 0 elements
  | .repetition _ inner min max =>
    if max = some min then do checkedWidth ((← Pattern.widthWith atCell inner) * min) else none
  | .latch _ target => Pattern.widthWith atCell target
  | .recursion _ cell => atCell cell

def Pattern.allOfWidth (atCell : Nat → Option Nat) (width : Nat) : List Pattern → Bool
  | [] => true
  | p :: rest => Pattern.widthWith atCell p == some width && Pattern.allOfWidth atCell width rest

/-- The widths of the parts added to what came before them. -/
def Pattern.totalWidth (atCell : Nat → Option Nat) : Nat → List Pattern → Option Nat
  | total, [] => some total
  | total, p :: rest => do
    let width ← Pattern.widthWith atCell p
    Pattern.totalWidth atCell (← checkedWidth (total + width)) rest
end

def widthWalk : Walk (Option Nat) where
  onRepeat := none
  onUnbound := none
  onTree := Pattern.widthWith

/-- The number of characters of every match, where there is one such number. -/
def Heap.width (heap : Heap) (p : Pattern) : Option Nat := widthWalk.run heap p

theorem checkedWidth_eq_some_iff (n width : Nat) :
    checkedWidth n = some width ↔ n = width ∧ width < widthLimit := by
  unfold checkedWidth
  split <;> simp <;> omega

end PatternGraph
