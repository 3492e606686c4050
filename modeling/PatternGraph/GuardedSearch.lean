import Mathlib.Data.List.Basic
import PatternGraph.Reachability

/-!
# Guarded search

A depth-first search as it is carried out, node by node. It keeps the marks of the nodes that it
has entered, enters none of them twice and never takes a mark back, so siblings share what was
marked below one another; it stops at the first node with the identity it looks for. A recursion is
marked by its cell, so a renamed copy counts as entered. Any other node is marked by itself, serial
number included: that is its identity once it has entered a heap.
-/

namespace PatternGraph
set_option autoImplicit false

/-- The entries of the list are all different and come from a given supply. -/
structure GuardWithin {Key : Type} (supply guard : List Key) : Prop where
  nodup : guard.Nodup
  subset : guard ⊆ supply

namespace GuardWithin
variable {Key : Type} {supply guard : List Key}

theorem nil (supply : List Key) : GuardWithin supply [] :=
  ⟨List.nodup_nil, List.nil_subset supply⟩

theorem cons (h : GuardWithin supply guard) {key : Key} (hnew : key ∉ guard)
    (hkey : key ∈ supply) : GuardWithin supply (key :: guard) :=
  ⟨List.nodup_cons.mpr ⟨hnew, h.nodup⟩, List.cons_subset.mpr ⟨hkey, h.subset⟩⟩

theorem length_le (h : GuardWithin supply guard) : guard.length ≤ supply.length :=
  h.nodup.length_le_of_subset h.subset

end GuardWithin

/-- What is remembered of a node that was entered. -/
def Pattern.mark : Pattern → Pattern
  | .recursion _ cell => .reference cell
  | p => p

namespace Heap

/-- The search among `pending` siblings and below them; the guard it starts with and the one it
leaves are listed latest first, and every one on the way is `allowed`. -/
inductive Searches (heap : Heap) (edges : Edges) (root : Identity)
    (allowed : List Pattern → Prop) :
    List Pattern → List Pattern → Bool → List Pattern → Prop where
  | exhausted {guard : List Pattern} : Searches heap edges root allowed guard [] false guard
  | hit {guard rest : List Pattern} {p : Pattern} (isRoot : p.identity = root) :
      Searches heap edges root allowed guard (p :: rest) true guard
  | metBefore {guard rest later : List Pattern} {p : Pattern} {found : Bool}
      (other : p.identity ≠ root) (met : p.mark ∈ guard)
      (beside : Searches heap edges root allowed guard rest found later) :
      Searches heap edges root allowed guard (p :: rest) found later
  | hitBelow {guard rest later : List Pattern} {p : Pattern} (other : p.identity ≠ root)
      (new : p.mark ∉ guard) (admitted : allowed (p.mark :: guard))
      (below : Searches heap edges root allowed (p.mark :: guard) (heap.successors edges p)
        true later) :
      Searches heap edges root allowed guard (p :: rest) true later
  | missedBelow {guard rest between later : List Pattern} {p : Pattern} {found : Bool}
      (other : p.identity ≠ root) (new : p.mark ∉ guard) (admitted : allowed (p.mark :: guard))
      (below : Searches heap edges root allowed (p.mark :: guard) (heap.successors edges p)
        false between)
      (beside : Searches heap edges root allowed between rest found later) :
      Searches heap edges root allowed guard (p :: rest) found later

end Heap
end PatternGraph
