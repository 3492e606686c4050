import PatternGraph.Heap

/-!
# Outlines

An outline is a finite picture of a whole pattern graph. Cells are numbered in the order in which
they are first met, from the outside in and from left to right; the first meeting shows whether
the cell is frozen and what it is bound to, and later meetings show the number alone. Two graphs
have the same outline when they differ only in the numbers of their cells and nodes.
-/

namespace PatternGraph
set_option autoImplicit false

inductive Outline where
  | literal (name : Option String) (text : String)
  | characterClass (name : Option String) (cls : CharacterClass)
  | alternation (name : Option String) (elements : List Outline)
  | concatenation (name : Option String) (elements : List Outline)
  | repetition (name : Option String) (inner : Outline) (min : Nat) (max : Option Nat)
  | latch (name : Option String) (target : Outline)
  | bound (name : Option String) (number : Nat) (frozen : Bool) (grammar : Outline)
  | unbound (name : Option String) (number : Nat) (frozen : Bool)
  | metBefore (name : Option String) (number : Nat)
deriving Repr

mutual
/-- The outline of a tree, given the cells met before it in order, with those met after it. -/
def Pattern.outlineWith (atCell : Option String → Nat → List Nat → Outline × List Nat) :
    Pattern → List Nat → Outline × List Nat
  | .literal tag text, met => (.literal tag.name text, met)
  | .characterClass tag cls, met => (.characterClass tag.name cls, met)
  | .alternation tag elements, met =>
    let (elements, met) := Pattern.outlineAll atCell elements met
    (.alternation tag.name elements, met)
  | .concatenation tag elements, met =>
    let (elements, met) := Pattern.outlineAll atCell elements met
    (.concatenation tag.name elements, met)
  | .repetition tag inner min max, met =>
    let (inner, met) := Pattern.outlineWith atCell inner met
    (.repetition tag.name inner min max, met)
  | .latch tag target, met =>
    let (target, met) := Pattern.outlineWith atCell target met
    (.latch tag.name target, met)
  | .recursion tag cell, met => atCell tag.name cell met

def Pattern.outlineAll (atCell : Option String → Nat → List Nat → Outline × List Nat) :
    List Pattern → List Nat → List Outline × List Nat
  | [], met => ([], met)
  | p :: rest, met =>
    let (first, met) := Pattern.outlineWith atCell p met
    let (rest, met) := Pattern.outlineAll atCell rest met
    (first :: rest, met)
end

namespace Heap

/-- The outline of a recursion; a cell is met for the first time no more often than there are
cells, which bounds the fuel. -/
def outlineCell (heap : Heap) :
    Nat → Option String → Nat → List Nat → Outline × List Nat
  | 0, name, c, met => (.metBefore name (met.idxOf c), met)
  | fuel + 1, name, c, met =>
    if c ∈ met then (.metBefore name (met.idxOf c), met)
    else match heap.grammar c with
      | none => (.unbound name met.length (heap.isFrozen c), met ++ [c])
      | some p =>
        let (grammar, later) := p.outlineWith (heap.outlineCell fuel) (met ++ [c])
        (.bound name met.length (heap.isFrozen c) grammar, later)

def outline (heap : Heap) (p : Pattern) : Outline :=
  (p.outlineWith (heap.outlineCell (heap.cells.size + 1)) []).1

end Heap
end PatternGraph
