import PatternGraph.RuleSet

/-!
# Sessions

Beside the heap, a session holds what can still bind a cell: the placeholders and the rule sets
that have not been used up. Resolving uses up its placeholder and finishing its rule set, whether
they succeed or fail. Patterns are values that can be kept and passed on freely, so a session does
not hold them and a call may be given any pattern. Calls that only read are left out.
-/

namespace PatternGraph
set_option autoImplicit false

structure Session where
  heap : Heap := {}
  placeholders : List Placeholder := []
  ruleSets : List RuleSet := []

/-- Placeholders and rule sets are given by their position; a call on one that does not exist
changes nothing. -/
inductive Call where
  | newPlaceholder
  /-- A node for the cell of a placeholder. -/
  | selfReference (position : Nat)
  /-- A new node of any other form. -/
  | build (p : Pattern)
  | resolve (position : Nat) (body : Pattern) (requireRecursion : Bool)
  | newRuleSet
  | reference (position : Nat) (name : String)
  | define (position : Nat) (name : String) (body : Pattern)
  | finish (position : Nat)

/-- The placeholders that a rule set owns. -/
def RuleSet.placeholders (rules : RuleSet) : List Placeholder := rules.mentioned.map (·.2)

namespace Session

def step (session : Session) : Call → Session
  | .newPlaceholder =>
    let (placeholder, heap) := session.heap.newPlaceholder
    { session with heap, placeholders := session.placeholders ++ [placeholder] }
  | .selfReference position =>
    match session.placeholders[position]? with
    | none => session
    | some placeholder => { session with heap := (session.heap.enter placeholder.pattern).2 }
  | .build p => { session with heap := (session.heap.enter p).2 }
  | .resolve position body requireRecursion =>
    match session.placeholders[position]? with
    | none => session
    | some placeholder =>
      let placeholders := session.placeholders.eraseIdx position
      match session.heap.resolve body placeholder requireRecursion with
      | .error _ => { session with placeholders }
      | .ok (_, heap) => { session with heap, placeholders }
  | .newRuleSet => { session with ruleSets := session.ruleSets ++ [{}] }
  | .reference position name =>
    match session.ruleSets[position]? with
    | none => session
    | some rules =>
      let (_, rules, heap) := rules.reference session.heap name
      { session with heap, ruleSets := session.ruleSets.set position rules }
  | .define position name body =>
    match session.ruleSets[position]? with
    | none => session
    | some rules =>
      match rules.define session.heap name body with
      | .error _ => session
      | .ok (rules, heap) => { session with heap, ruleSets := session.ruleSets.set position rules }
  | .finish position =>
    match session.ruleSets[position]? with
    | none => session
    | some rules =>
      { session with
        heap := (rules.finish session.heap).2
        ruleSets := session.ruleSets.eraseIdx position }

def run (session : Session) (calls : List Call) : Session := calls.foldl step session

/-- The placeholders that have not been used up, those of the rule sets included. -/
def unconsumed (session : Session) : List Placeholder :=
  session.placeholders ++ session.ruleSets.flatMap RuleSet.placeholders

end Session
end PatternGraph
