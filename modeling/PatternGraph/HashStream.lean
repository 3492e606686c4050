import PatternGraph.Pattern

/-!
# Hash streams

What a hasher is fed for a pattern: the kind of each node by its number, then its content, with
the count of children in front of them. A recursion contributes its kind alone, so a stream ends
on every graph and does not depend on what any cell holds. A stream is put together from its end.
Two hashes count as equal when the streams are.
-/

namespace PatternGraph
set_option autoImplicit false

/-- One item fed to a hasher. -/
inductive HashWord where
  | number (n : Nat)
  | text (s : String)
  | character (c : Char)
deriving DecidableEq, Repr

def PatternKind.number : PatternKind → Nat
  | .literal => 0
  | .characterClass => 1
  | .alternation => 2
  | .concatenation => 3
  | .repetition => 4
  | .latch => 5
  | .recursion => 6

def ClassItem.hashStream : ClassItem → List HashWord
  | .single c => [.number 0, .character c]
  | .range first last _ => [.number 1, .character first, .character last]

def CharacterClass.hashStream (cls : CharacterClass) : List HashWord :=
  .number cls.items.length :: cls.items.flatMap (·.hashStream)

/-- An optional number is preceded by whether it is there. -/
def hashOptional : Option Nat → List HashWord
  | none => [.number 0]
  | some n => [.number 1, .number n]

mutual
/-- Feeds a pattern in front of what follows it. -/
def Pattern.feed : Pattern → List HashWord → List HashWord
  | .literal _ text, after => .number PatternKind.literal.number :: .text text :: after
  | .characterClass _ cls, after =>
    .number PatternKind.characterClass.number :: (cls.hashStream ++ after)
  | .alternation _ elements, after =>
    .number PatternKind.alternation.number :: .number elements.length ::
      Pattern.feedAll elements after
  | .concatenation _ elements, after =>
    .number PatternKind.concatenation.number :: .number elements.length ::
      Pattern.feedAll elements after
  | .repetition _ inner min max, after =>
    .number PatternKind.repetition.number ::
      Pattern.feed inner (.number min :: (hashOptional max ++ after))
  | .latch _ target, after => .number PatternKind.latch.number :: Pattern.feed target after
  | .recursion .., after => .number PatternKind.recursion.number :: after

def Pattern.feedAll : List Pattern → List HashWord → List HashWord
  | [], after => after
  | p :: rest, after => Pattern.feed p (Pattern.feedAll rest after)
end

def Pattern.hashStream (p : Pattern) : List HashWord := p.feed []

mutual
theorem Pattern.feed_eq : ∀ (p : Pattern) (after : List HashWord),
    p.feed after = p.hashStream ++ after
  | .literal .., _ => rfl
  | .characterClass .., _ => by simp [Pattern.hashStream, Pattern.feed]
  | .alternation _ elements, after => by
    simpa [Pattern.hashStream, Pattern.feed] using Pattern.feedAll_eq elements after
  | .concatenation _ elements, after => by
    simpa [Pattern.hashStream, Pattern.feed] using Pattern.feedAll_eq elements after
  | .repetition _ inner min max, after => by
    simp [Pattern.hashStream, Pattern.feed, Pattern.feed_eq inner (.number min :: _)]
  | .latch _ target, after => by
    simpa [Pattern.hashStream, Pattern.feed] using Pattern.feed_eq target after
  | .recursion .., _ => rfl

theorem Pattern.feedAll_eq : ∀ (elements : List Pattern) (after : List HashWord),
    Pattern.feedAll elements after = Pattern.feedAll elements [] ++ after
  | [], _ => rfl
  | p :: rest, after => by
    rw [Pattern.feedAll, Pattern.feedAll, Pattern.feed_eq p, Pattern.feedAll_eq rest after,
      Pattern.feed_eq p (Pattern.feedAll rest [])]
    simp
end

theorem Pattern.feedAll_eq_flatMap (elements : List Pattern) :
    Pattern.feedAll elements [] = elements.flatMap (·.hashStream) := by
  induction elements with
  | nil => rfl
  | cons p rest ih => simp [Pattern.feedAll, Pattern.feed_eq p, ih]

end PatternGraph
