import PatternGraph.CharacterClass

/-!
# Patterns

A pattern is a finite tree. Its only leaf that can change is a recursion, which names a cell of a
heap by number; what the cell is bound to is not part of the tree. Each node carries an optional
rule name and, once it has entered a heap, a serial number that tells it from every other node.
Names and serial numbers take no part in what a pattern matches.
-/

namespace PatternGraph
set_option autoImplicit false

/-- What a node carries besides its content. -/
structure Tag where
  serial : Option Nat := none
  name : Option String := none
deriving DecidableEq, Repr

inductive Pattern where
  | literal (tag : Tag) (text : String)
  | characterClass (tag : Tag) (cls : CharacterClass)
  | alternation (tag : Tag) (elements : List Pattern)
  | concatenation (tag : Tag) (elements : List Pattern)
  /-- Between `min` and `max` copies of `inner`, or any number from `min` on. -/
  | repetition (tag : Tag) (inner : Pattern) (min : Nat) (max : Option Nat)
  /-- A sub-rule exposed under a name of its own. -/
  | latch (tag : Tag) (target : Pattern)
  /-- Whatever the cell is bound to. -/
  | recursion (tag : Tag) (cell : Nat)
deriving Repr

inductive PatternKind where
  | literal | characterClass | alternation | concatenation | repetition | latch | recursion
deriving DecidableEq, Repr

/-- The word for a kind in messages. -/
def PatternKind.word : PatternKind → String
  | .literal => "Literal"
  | .characterClass => "Class"
  | .alternation => "Alternation"
  | .concatenation => "Concatenation"
  | .repetition => "Repetition"
  | .latch => "Latch"
  | .recursion => "Recursion"

/-- Whether a number of copies lies within the bounds of a repetition. -/
def withinBounds (min : Nat) (max : Option Nat) (count : Nat) : Bool :=
  min ≤ count && max.all (count ≤ ·)

theorem withinBounds_iff (min : Nat) (max : Option Nat) (count : Nat) :
    withinBounds min max count = true ↔ min ≤ count ∧ ∀ most ∈ max, count ≤ most := by
  cases max <;> simp [withinBounds]

/-- A recursion is known by its cell, so a renamed copy is the same; any other node by its serial
number. -/
inductive Identity where
  | cell (number : Nat)
  | node (serial : Option Nat)
deriving DecidableEq, Repr

namespace Pattern

/-- Induction with one hypothesis for every element, so that lists need no induction of their
own. -/
@[induction_eliminator]
theorem induction {motive : Pattern → Prop}
    (literal : ∀ tag text, motive (.literal tag text))
    (characterClass : ∀ tag cls, motive (.characterClass tag cls))
    (alternation : ∀ tag elements, (∀ p ∈ elements, motive p) →
      motive (.alternation tag elements))
    (concatenation : ∀ tag elements, (∀ p ∈ elements, motive p) →
      motive (.concatenation tag elements))
    (repetition : ∀ tag inner min max, motive inner → motive (.repetition tag inner min max))
    (latch : ∀ tag target, motive target → motive (.latch tag target))
    (recursion : ∀ tag cell, motive (.recursion tag cell)) (p : Pattern) : motive p :=
  Pattern.rec literal characterClass alternation concatenation
    repetition latch recursion (by simp)
    (fun _ _ head tail => List.forall_mem_cons.mpr ⟨head, tail⟩) p

def tag : Pattern → Tag
  | .literal tag _ => tag
  | .characterClass tag _ => tag
  | .alternation tag _ => tag
  | .concatenation tag _ => tag
  | .repetition tag _ _ _ => tag
  | .latch tag _ => tag
  | .recursion tag _ => tag

def withTag (tag : Tag) : Pattern → Pattern
  | .literal _ text => .literal tag text
  | .characterClass _ cls => .characterClass tag cls
  | .alternation _ elements => .alternation tag elements
  | .concatenation _ elements => .concatenation tag elements
  | .repetition _ inner min max => .repetition tag inner min max
  | .latch _ target => .latch tag target
  | .recursion _ cell => .recursion tag cell

def name (p : Pattern) : Option String := p.tag.name

/-- A new node with the same content under the given name. -/
def named (name : String) (p : Pattern) : Pattern := p.withTag { name := some name }

/-- The name of `model`, if it has one, is given to `p`. -/
def namedLike (model p : Pattern) : Pattern :=
  match model.name with
  | some name => p.named name
  | none => p

def kind : Pattern → PatternKind
  | .literal .. => .literal
  | .characterClass .. => .characterClass
  | .alternation .. => .alternation
  | .concatenation .. => .concatenation
  | .repetition .. => .repetition
  | .latch .. => .latch
  | .recursion .. => .recursion

def identity : Pattern → Identity
  | .recursion _ cell => .cell cell
  | p => .node p.tag.serial

/-- Whether `p` is a reference to the given cell, under whatever name. -/
def isReferenceTo (cell : Nat) : Pattern → Bool
  | .recursion _ other => other == cell
  | _ => false

/-- The bounds of a repetition. -/
def bounds : Pattern → Option (Nat × Option Nat)
  | .repetition _ _ min max => some (min, max)
  | _ => none

/-- The text of a literal, whatever its name, is compared; nothing else equals a text. -/
def equalsText (text : String) : Pattern → Bool
  | .literal _ own => own == text
  | _ => false

@[simp] theorem tag_withTag (tag : Tag) (p : Pattern) : (p.withTag tag).tag = tag := by
  cases p <;> rfl

@[simp] theorem kind_withTag (tag : Tag) (p : Pattern) : (p.withTag tag).kind = p.kind := by
  cases p <;> rfl

@[simp] theorem name_named (name : String) (p : Pattern) : (p.named name).name = some name := by
  simp [Pattern.name, named]

theorem isReferenceTo_iff (cell : Nat) (p : Pattern) :
    p.isReferenceTo cell = true ↔ p.identity = .cell cell := by
  cases p <;> simp [isReferenceTo, identity]

theorem isReferenceTo_iff_exists (cell : Nat) (p : Pattern) :
    p.isReferenceTo cell = true ↔ ∃ tag, p = .recursion tag cell := by
  cases p <;> simp [isReferenceTo]

end Pattern
end PatternGraph
