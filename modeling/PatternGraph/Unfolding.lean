import PatternGraph.Heap

/-!
# Unfolding guarded by the cells it stands inside

A walk over a pattern is a function on trees that is told what to answer at a recursion. Running a
walk on a heap answers a recursion by the walk over what its cell is bound to, except inside that
same cell, where it answers `onRepeat`. A cell is forgotten again when its walk is over, so it may
be met any number of times side by side. The fuel is bookkeeping: a heap has no more cells to
stand inside than its size.
-/

namespace PatternGraph
set_option autoImplicit false

structure Walk (β : Type) where
  /-- The answer at a cell that the walk stands inside already. -/
  onRepeat : β
  onUnbound : β
  /-- The walk over one tree, given the answers at cells. -/
  onTree : (Nat → β) → Pattern → β

namespace Walk
variable {β : Type}

def atCell (walk : Walk β) (grammar : Nat → Option Pattern) : Nat → List Nat → Nat → β
  | 0, _, _ => walk.onRepeat
  | fuel + 1, inside, c =>
    if c ∈ inside then walk.onRepeat
    else match grammar c with
      | none => walk.onUnbound
      | some p => walk.onTree (walk.atCell grammar fuel (c :: inside)) p

def run (walk : Walk β) (heap : Heap) (p : Pattern) : β :=
  walk.onTree (walk.atCell heap.grammar (heap.cells.size + 1) []) p

theorem atCell_of_mem (walk : Walk β) (grammar : Nat → Option Pattern) (fuel : Nat)
    {inside : List Nat} {c : Nat} (h : c ∈ inside) :
    walk.atCell grammar fuel inside c = walk.onRepeat := by
  cases fuel <;> simp [atCell, h]

theorem atCell_unbound (walk : Walk β) {grammar : Nat → Option Pattern} (fuel : Nat)
    {inside : List Nat} {c : Nat} (hc : c ∉ inside) (h : grammar c = none) :
    walk.atCell grammar (fuel + 1) inside c = walk.onUnbound := by
  simp [atCell, hc, h]

theorem atCell_bound (walk : Walk β) {grammar : Nat → Option Pattern} (fuel : Nat)
    {inside : List Nat} {c : Nat} {p : Pattern} (hc : c ∉ inside) (h : grammar c = some p) :
    walk.atCell grammar (fuel + 1) inside c =
      walk.onTree (walk.atCell grammar fuel (c :: inside)) p := by
  simp [atCell, hc, h]

end Walk
end PatternGraph
