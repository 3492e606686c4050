import PatternGraph.Proofs.EliminatedLanguage
import PatternGraph.Proofs.LeftElimination

/-!
# What is left of a stripped alternative

A reference to the cell leads an alternative from inside any number of concatenations, each the
first part of the next. What is left holds the parts that followed it at each level, innermost
level first, and its language is the cofactor of the cell's under every family of languages. No part
is lost, repeated or moved, but one thing is undone: an anonymous concatenation that is all there is
when an outer level is reached is continued by that level, so its own parts stand in its place. An
empty one leaves no trace.
-/

namespace PatternGraph
set_option autoImplicit false

namespace Pattern
variable {cell : Nat} {p : Pattern}

/-- What stands behind the first part of each nested first part, innermost level first. -/
def followers : Pattern → List (List Pattern)
  | .concatenation _ (first :: rest) => followers first ++ [rest]
  | _ => []

/-- The parts that an outer level is appended to. -/
def unnested : List Pattern → List Pattern
  | [single] => single.parts
  | elements => elements

/-- The levels one after another, innermost first. -/
def joined (levels : List (List Pattern)) : List Pattern :=
  levels.foldl (fun before level => unnested before ++ level) []

/-- Anonymous concatenations at the front have given way to their own parts. -/
inductive Unnests : List Pattern → List Pattern → Prop where
  | refl (elements : List Pattern) : Unnests elements elements
  | front {tag : Tag} {elements rest after : List Pattern} (anonymous : tag.name = none)
      (unnests : Unnests (elements ++ rest) after) :
      Unnests (.concatenation tag elements :: rest) after

theorem parts_concatenation {tag : Tag} (anonymous : tag.name = none) (elements : List Pattern) :
    (Pattern.concatenation tag elements).parts = elements := by
  obtain ⟨serial, name⟩ := tag
  obtain rfl : name = none := anonymous
  rfl

namespace Unnests
variable {before middle after : List Pattern}

theorem trans (h : Unnests before middle) (h' : Unnests middle after) : Unnests before after := by
  induction h with
  | refl _ => exact h'
  | front anonymous _ ih => exact .front anonymous (ih h')

theorem append (h : Unnests before after) (more : List Pattern) :
    Unnests (before ++ more) (after ++ more) := by
  induction h with
  | refl elements => exact .refl _
  | front anonymous _ ih =>
    rw [List.append_assoc] at ih
    exact .front anonymous ih

/-- Where the first part is no anonymous concatenation, nothing gives way. -/
theorem eq_of_kept (h : Unnests before after) (kept : ∀ first ∈ before.head?, first.parts = [first]) :
    after = before := by
  cases h with
  | refl _ => rfl
  | @front tag elements rest _ anonymous _ =>
    have hsame := kept _ rfl
    rw [parts_concatenation anonymous] at hsame
    have hsize := congrArg sizeOf hsame
    simp only [List.cons.sizeOf_spec, List.nil.sizeOf_spec, concatenation.sizeOf_spec] at hsize
    omega

end Unnests

theorem unnests_parts (p : Pattern) : Unnests [p] p.parts := by
  unfold parts
  split
  · rename_i serial elements
    refine .front rfl ?_
    rw [List.append_nil]
    exact .refl elements
  · exact .refl [p]

theorem unnests_unnested (elements : List Pattern) : Unnests elements (unnested elements) := by
  unfold unnested
  split
  · exact unnests_parts _
  · exact .refl _

/-- The induction is over the levels still to come; `before` is what the earlier ones came to. -/
theorem unnests_foldl (levels : List (List Pattern)) : ∀ before : List Pattern,
    Unnests (before ++ levels.flatten)
      (levels.foldl (fun before level => unnested before ++ level) before) := by
  induction levels with
  | nil =>
    intro before
    rw [List.flatten_nil, List.append_nil]
    exact .refl before
  | cons level levels ih =>
    intro before
    have hfront := (unnests_unnested before).append (level ++ levels.flatten)
    rw [← List.append_assoc (unnested before)] at hfront
    exact hfront.trans (ih (unnested before ++ level))

theorem unnests_joined (levels : List (List Pattern)) : Unnests levels.flatten (joined levels) :=
  unnests_foldl levels []

theorem joined_append (levels : List (List Pattern)) (level : List Pattern) :
    joined (levels ++ [level]) = unnested (joined levels) ++ level := by
  simp [joined]

theorem sequence?_eq_none_iff {elements : List Pattern} :
    sequence? elements = none ↔ elements = [] := by
  rw [← Option.isNone_iff_eq_none, ← Option.not_isSome, isSome_sequence?]
  simp

theorem parts_of_sequence? {elements : List Pattern} (h : sequence? elements = some p) :
    p.parts = unnested elements := by
  match elements, h with
  | [single], h =>
    obtain rfl := Option.some.inj h
    rfl
  | first :: second :: rest, h =>
    obtain rfl := Option.some.inj h
    rfl

/-- Stripping a leading reference leaves its followers, joined level by level. -/
theorem LedBy.stripLeading_eq (h : p.LedBy cell) :
    p.stripLeading cell = some (sequence? (joined p.followers)) := by
  induction h with
  | reference tag => exact stripLeading_reference cell tag
  | @concatenation tag first rest _ ih =>
    have hfollowers : (Pattern.concatenation tag (first :: rest)).followers =
        first.followers ++ [rest] := by
      rw [followers]
    rw [hfollowers, joined_append, stripLeading, ih]
    cases hhead : sequence? (joined first.followers) with
    | none =>
      rw [sequence?_eq_none_iff.mp hhead]
      rfl
    | some head =>
      rw [← parts_of_sequence? hhead]

/-- A reference can be stripped exactly when it leads. What is left then has as its parts what
followed the reference, level by level from the innermost, where an anonymous concatenation gives
way to its own parts only if it would be alone in front of a further level. So the parts are exactly
what followed, unless that begins with an anonymous concatenation. Whatever languages the cells
have, what is left is the cofactor of the cell's. -/
theorem stripLeading_keeps_followers (cell : Nat) (p : Pattern) :
    ((p.stripLeading cell).isSome = true ↔ p.LedBy cell) ∧
      (p.stripLeading cell = some none → ∀ ρ, p.languageWith ρ = ρ cell) ∧
      ∀ rest, p.stripLeading cell = some (some rest) →
        sequence? (joined p.followers) = some rest ∧
        Unnests p.followers.flatten (joined p.followers) ∧
        ((∀ first ∈ p.followers.flatten.head?, first.parts = [first]) →
          joined p.followers = p.followers.flatten) ∧
        ∀ ρ, p.languageWith ρ = ρ cell * rest.languageWith ρ := by
  refine ⟨isSome_stripLeading_iff, ?_, ?_⟩
  · intro hstrip ρ
    exact (languageWith_of_stripLeading hstrip ρ).trans (mul_one _)
  · intro rest hstrip
    have hled : p.LedBy cell := isSome_stripLeading_iff.mp (by rw [hstrip]; rfl)
    have hunnests := unnests_joined p.followers
    refine ⟨?_, hunnests, hunnests.eq_of_kept, languageWith_of_stripLeading hstrip⟩
    rw [hled.stripLeading_eq] at hstrip
    exact Option.some.inj hstrip

/-- The reference is followed by an empty concatenation and by one of two parts, each alone when the
next level is reached, and last by a text. -/
def loneFollowers : Pattern :=
  .inOrder [.inOrder [.inOrder [.reference 0, .inOrder []],
    .inOrder [.ofText "a", .ofText "b"]], .ofText "c"]

/-- What is left of it. -/
def loneRest : Pattern := .inOrder [.ofText "a", .ofText "b", .ofText "c"]

/-- A concatenation of two parts with a name, which is therefore kept whole. -/
def namedPair : Pattern := (Pattern.inOrder [.ofText "a", .ofText "b"]).named "pair"

def namedFollower : Pattern := .inOrder [.inOrder [.reference 0, namedPair], .ofText "c"]

theorem stripLeading_keeps_followers_lone :
    (Pattern.inOrder [.inOrder [.reference 0]]).stripLeading 0 = some none ∧
      (∀ ρ, (Pattern.inOrder [.inOrder [.reference 0]]).languageWith ρ = ρ 0) ∧
      loneFollowers.stripLeading 0 = some (some loneRest) ∧
      Unnests loneFollowers.followers.flatten [.ofText "a", .ofText "b", .ofText "c"] ∧
      (∀ ρ, loneFollowers.languageWith ρ = ρ 0 * loneRest.languageWith ρ) ∧
      namedFollower.stripLeading 0 = some (some (.inOrder [namedPair, .ofText "c"])) ∧
      joined namedFollower.followers = namedFollower.followers.flatten := by
  have hlone := (stripLeading_keeps_followers 0 loneFollowers).2.2 loneRest rfl
  have hnamed := (stripLeading_keeps_followers 0 namedFollower).2.2 _ rfl
  refine ⟨rfl, (stripLeading_keeps_followers 0 _).2.1 rfl, rfl, hlone.2.1, hlone.2.2.2, rfl,
    hnamed.2.2.1 ?_⟩
  intro first hfirst
  obtain rfl := Option.some.inj hfirst
  rfl

/-- So the parts need not be what followed: neither of the two concatenations is one. -/
theorem followers_of_lone_not_parts :
    loneFollowers.followers.flatten =
        [.inOrder [], .inOrder [.ofText "a", .ofText "b"], .ofText "c"] ∧
      loneFollowers.stripLeading 0 = some (some loneRest) ∧
      sequence? loneFollowers.followers.flatten ≠ some loneRest :=
  ⟨rfl, rfl, by decide⟩

end Pattern
end PatternGraph
