import Mathlib.Data.List.Forall2
import PatternGraph.Heap

/-!
# Bisimilarity

Two patterns are bisimilar when some relation holds between them that one step of unfolding
preserves: both nodes have the same form and content, names and serial numbers aside, and their
children are related in order; two recursions are related when both cells are unbound or both are
bound to related patterns. So bisimilar patterns have the same unfolding, however large.
-/

namespace PatternGraph
set_option autoImplicit false

namespace Heap

/-- One step of unfolding, with the children compared by `related`. -/
def SameStep (heap : Heap) (related : Pattern → Pattern → Prop) : Pattern → Pattern → Prop
  | .literal _ a, .literal _ b => a = b
  | .characterClass _ a, .characterClass _ b => a = b
  | .alternation _ as, .alternation _ bs => List.Forall₂ related as bs
  | .concatenation _ as, .concatenation _ bs => List.Forall₂ related as bs
  | .repetition _ a min max, .repetition _ b min' max' => min = min' ∧ max = max' ∧ related a b
  | .latch _ a, .latch _ b => related a b
  | .recursion _ c, .recursion _ d =>
    match heap.grammar c, heap.grammar d with
    | some p, some q => related p q
    | none, none => True
    | _, _ => False
  | _, _ => False

/-- A relation that one step of unfolding preserves. -/
def IsBisimulation (heap : Heap) (related : Pattern → Pattern → Prop) : Prop :=
  ∀ p q, related p q → heap.SameStep related p q

def Bisimilar (heap : Heap) (p q : Pattern) : Prop :=
  ∃ related, heap.IsBisimulation related ∧ related p q

end Heap
end PatternGraph
