import PatternGraph.RecursionElimination

/-!
# Rule sets

A rule set gives every name that is mentioned a cell of its own, so a rule may be referred to
before it is defined. Finishing a rule set first binds every cell to the body as it was defined,
so that references can be followed in any order, and then resolves the rules one by one in the
order of their definitions. When a rule cannot be resolved, the cells stay as they are at that
point: earlier rules are resolved and later ones hold their bodies as defined.
-/

namespace PatternGraph
set_option autoImplicit false

structure Rule where
  name : String
  placeholder : Placeholder
  body : Pattern

structure RuleSet where
  /-- Every name in the order of first mention. -/
  mentioned : List (String × Placeholder) := []
  /-- The rules in the order of definition. -/
  defined : List Rule := []

/-- Resolved rules in the order of their definition. -/
structure Grammar where
  rules : List (String × Pattern) := []

namespace RuleSet

def placeholder? (rules : RuleSet) (name : String) : Option Placeholder :=
  rules.mentioned.lookup name

def isDefined (rules : RuleSet) (name : String) : Bool :=
  rules.defined.any (·.name == name)

/-- The placeholder of a name, which gets a new cell when it is mentioned for the first time. -/
def mention (rules : RuleSet) (heap : Heap) (name : String) : Placeholder × RuleSet × Heap :=
  match rules.placeholder? name with
  | some placeholder => (placeholder, rules, heap)
  | none =>
    let (placeholder, heap) := heap.newPlaceholder
    (placeholder, { rules with mentioned := rules.mentioned ++ [(name, placeholder)] }, heap)

/-- A pattern that stands for a rule, defined or not. -/
def reference (rules : RuleSet) (heap : Heap) (name : String) : Pattern × RuleSet × Heap :=
  let (placeholder, rules, heap) := rules.mention heap name
  let (p, heap) := heap.enter (placeholder.pattern.named name)
  (p, rules, heap)

/-- The first definition of a name counts and a second one is refused. -/
def define (rules : RuleSet) (heap : Heap) (name : String) (body : Pattern) :
    Except ResolveError (RuleSet × Heap) :=
  if rules.isDefined name then .error (.duplicateRule name)
  else
    let (placeholder, rules, heap) := rules.mention heap name
    .ok ({ rules with defined := rules.defined ++ [{ name, placeholder, body }] }, heap)

/-- The earliest mentioned name that has no body. -/
def undefined? (rules : RuleSet) : Option String :=
  (rules.mentioned.map (·.1)).find? fun name => !rules.isDefined name

end RuleSet

namespace Heap

/-- Binds every cell to its body as defined. -/
def bindBodies (heap : Heap) (rules : List Rule) : Heap :=
  rules.foldl (fun heap rule => heap.bind rule.placeholder.cell rule.body) heap

/-- Resolves rules in turn; the first error ends it and leaves the heap as it is by then. -/
def resolveRules (heap : Heap) : List Rule → Except ResolveError (List (String × Pattern)) × Heap
  | [] => (.ok [], heap)
  | rule :: rest =>
    match heap.resolve rule.body rule.placeholder false with
    | .error error => (.error error, heap)
    | .ok (p, heap) =>
      let (p, heap) := heap.enter (p.named rule.name)
      let (others, heap) := heap.resolveRules rest
      (others.map ((rule.name, p) :: ·), heap)

end Heap

/-- Resolves all rules of a set. -/
def RuleSet.finish (rules : RuleSet) (heap : Heap) : Except ResolveError Grammar × Heap :=
  match rules.undefined? with
  | some name => (.error (.undefinedRule name), heap)
  | none =>
    let (resolved, heap) := (heap.bindBodies rules.defined).resolveRules rules.defined
    (resolved.map (⟨·⟩), heap)

namespace Grammar

def get? (grammar : Grammar) (name : String) : Option Pattern := grammar.rules.lookup name

def contains (grammar : Grammar) (name : String) : Bool := grammar.rules.any (·.1 == name)

def size (grammar : Grammar) : Nat := grammar.rules.length

def isEmpty (grammar : Grammar) : Bool := grammar.rules.isEmpty

end Grammar
end PatternGraph
