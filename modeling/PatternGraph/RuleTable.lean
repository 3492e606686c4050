import Std.Data.TreeMap
import PatternGraph.RuleSet

/-!
# Rule tables

A rule set as it is stored: the entries in the order in which their names were mentioned first, an
index from names to positions, and the positions of the defined entries in the order of their
definitions. Looking up a position that has no entry is a fault of the table, not an answer, so
each operation that does it answers nothing in that case. Finishing takes the entries out one by
one and passes over a position where nothing is left to take.
-/

namespace PatternGraph
set_option autoImplicit false

/-- A name and its cell, with a body once it has one. -/
structure RuleEntry where
  name : String
  placeholder : Placeholder
  body : Option Pattern := none

structure RuleTable where
  entries : List RuleEntry := []
  index : Std.TreeMap String Nat := {}
  order : List Nat := []

/-- Resolved rules with an index from names to positions. -/
structure GrammarTable where
  rules : List (String × Pattern) := []
  index : Std.TreeMap String Nat := {}

namespace RuleTable

/-- The position of a name, which gets an entry of its own when it is mentioned first. -/
def position (table : RuleTable) (heap : Heap) (name : String) : Nat × RuleTable × Heap :=
  match table.index[name]? with
  | some position => (position, table, heap)
  | none =>
    let (placeholder, heap) := heap.newPlaceholder
    let position := table.entries.length
    (position,
      { table with
        entries := table.entries ++ [{ name, placeholder }]
        index := table.index.insert name position },
      heap)

/-- A pattern that stands for a rule, defined or not. -/
def reference (table : RuleTable) (heap : Heap) (name : String) :
    Option (Pattern × RuleTable × Heap) :=
  let (position, table, heap) := table.position heap name
  table.entries[position]?.map fun entry =>
    let (p, heap) := heap.enter (entry.placeholder.pattern.named name)
    (p, table, heap)

/-- Gives a name its body, once. -/
def define (table : RuleTable) (heap : Heap) (name : String) (body : Pattern) :
    Option (Except ResolveError Unit × RuleTable × Heap) :=
  let (position, table, heap) := table.position heap name
  table.entries[position]?.map fun entry =>
    if entry.body.isSome then (.error (.duplicateRule name), table, heap)
    else
      (.ok (),
        { table with
          entries := table.entries.set position { entry with body := some body }
          order := table.order ++ [position] },
        heap)

def isDefined (table : RuleTable) (name : String) : Option Bool :=
  match table.index[name]? with
  | none => some false
  | some position => table.entries[position]?.map (·.body.isSome)

end RuleTable

namespace Heap

/-- Binds the cell of every entry that has a body. -/
def bindEntries (heap : Heap) (entries : List RuleEntry) : Heap :=
  entries.foldl (fun heap entry =>
    match entry.body with
    | some body => heap.bind entry.placeholder.cell body
    | none => heap) heap

/-- Resolves the entries at some positions in turn and takes each of them out. -/
def resolvePending (heap : Heap) (pending : List (Option RuleEntry)) :
    List Nat → Except ResolveError (List (String × Pattern)) × Heap
  | [] => (.ok [], heap)
  | position :: rest =>
    match pending[position]? with
    | some (some ⟨name, placeholder, some body⟩) =>
      match heap.resolve body placeholder false with
      | .error error => (.error error, heap)
      | .ok (p, heap) =>
        let (p, heap) := heap.enter (p.named name)
        let (others, heap) := heap.resolvePending (pending.set position none) rest
        (others.map ((name, p) :: ·), heap)
    | _ => heap.resolvePending (pending.set position none) rest

end Heap

/-- The index of some rules; a later rule takes the place of an earlier one of the same name. -/
def GrammarTable.ofRules (rules : List (String × Pattern)) : GrammarTable where
  rules := rules
  index := rules.zipIdx.foldl (fun index entry => index.insert entry.1.1 entry.2) {}

/-- Resolves all rules of a table. -/
def RuleTable.finish (table : RuleTable) (heap : Heap) :
    Except ResolveError GrammarTable × Heap :=
  match table.entries.find? (·.body.isNone) with
  | some entry => (.error (.undefinedRule entry.name), heap)
  | none =>
    let (resolved, heap) :=
      (heap.bindEntries table.entries).resolvePending (table.entries.map some) table.order
    (resolved.map .ofRules, heap)

namespace GrammarTable

def get? (grammar : GrammarTable) (name : String) : Option Pattern :=
  match grammar.index[name]? with
  | none => none
  | some position => grammar.rules[position]?.map (·.2)

def contains (grammar : GrammarTable) (name : String) : Bool := grammar.index.contains name

def size (grammar : GrammarTable) : Nat := grammar.rules.length

def isEmpty (grammar : GrammarTable) : Bool := grammar.rules.isEmpty

end GrammarTable
end PatternGraph
