import PatternGraph.Heap
import PatternGraph.PatternSet

/-!
# Reachability

An edge leads from a pattern to a direct child, where a bound recursion has its cell's grammar as
its child. Leading edges drop every child of a concatenation but the first. `Reaches` is a
finite, possibly empty, path of edges; the functions below decide whether a path ends at a given
identity. They gather the patterns that are met on paths, each once, so a subtree held in many
places is walked once. The fuel is bookkeeping: a walk stands inside no more cells than there are,
because it never enters a cell's grammar that it has met.
-/

namespace PatternGraph
set_option autoImplicit false

/-- Which children of a node count. -/
inductive Edges where
  | all
  | leading
deriving DecidableEq, Repr

namespace Heap

/-- The children that the edges from a pattern lead to. -/
def successors (heap : Heap) : Edges → Pattern → List Pattern
  | .leading, .concatenation _ elements => elements.take 1
  | _, p => heap.elements p

/-- A path of edges; the first pattern is where it starts. -/
inductive Reaches (heap : Heap) (edges : Edges) : Pattern → Pattern → Prop where
  | refl (p : Pattern) : Reaches heap edges p p
  | step {p q r : Pattern} : q ∈ heap.successors edges p → Reaches heap edges q r →
      Reaches heap edges p r

end Heap

mutual
/-- Adds a tree and what its edges lead to, given what a cell adds. A tree that was met before is
not walked again. -/
def Pattern.gather (edges : Edges) (atCell : Nat → PatternSet → PatternSet) (p : Pattern)
    (met : PatternSet) : PatternSet :=
  if p ∈ met then met
  else match p with
    | .alternation _ elements => Pattern.gatherAll edges atCell elements (met.insert p)
    | .concatenation _ elements =>
      match edges with
      | .all => Pattern.gatherAll edges atCell elements (met.insert p)
      | .leading => Pattern.gatherHead edges atCell elements (met.insert p)
    | .repetition _ inner _ _ => Pattern.gather edges atCell inner (met.insert p)
    | .latch _ target => Pattern.gather edges atCell target (met.insert p)
    | .recursion _ cell => atCell cell (met.insert p)
    | _ => met.insert p

def Pattern.gatherAll (edges : Edges) (atCell : Nat → PatternSet → PatternSet) :
    List Pattern → PatternSet → PatternSet
  | [], met => met
  | p :: rest, met =>
    Pattern.gatherAll edges atCell rest (Pattern.gather edges atCell p met)

def Pattern.gatherHead (edges : Edges) (atCell : Nat → PatternSet → PatternSet) :
    List Pattern → PatternSet → PatternSet
  | [], met => met
  | p :: _, met => Pattern.gather edges atCell p met
end

namespace Heap

/-- Adds what a cell is bound to and what its edges lead to. -/
def gatherCell (heap : Heap) (edges : Edges) : Nat → Nat → PatternSet → PatternSet
  | 0, _, met => met
  | fuel + 1, c, met =>
    match heap.grammar c with
    | none => met
    | some p => p.gather edges (heap.gatherCell edges fuel) met

/-- The patterns met on paths from any of the given ones. -/
def reached (heap : Heap) (edges : Edges) (starts : List Pattern) : PatternSet :=
  Pattern.gatherAll edges (heap.gatherCell edges (heap.cells.size + 1)) starts {}

/-- Whether a path from any of the given patterns ends at an identity. -/
def anyReaches (heap : Heap) (edges : Edges) (starts : List Pattern) (root : Identity) : Bool :=
  (heap.reached edges starts).toList.any (·.identity == root)

def reaches (heap : Heap) (edges : Edges) (p : Pattern) (root : Identity) : Bool :=
  heap.anyReaches edges [p] root

/-- Whether `root` is this pattern or can be reached from it. -/
def recursesInto (heap : Heap) (p root : Pattern) : Bool :=
  heap.reaches .all p root.identity

/-- The same without passing a concatenation other than at its first part. -/
def leftRecursesInto (heap : Heap) (p root : Pattern) : Bool :=
  heap.reaches .leading p root.identity

/-- Whether a path that is not empty leads from a pattern back to it. -/
def returns (heap : Heap) (edges : Edges) (p : Pattern) : Bool :=
  heap.anyReaches edges (heap.successors edges p) p.identity

def isRecursive (heap : Heap) (p : Pattern) : Bool := heap.returns .all p

def isLeftRecursive (heap : Heap) (p : Pattern) : Bool := heap.returns .leading p

end Heap
end PatternGraph
