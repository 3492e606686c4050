import PatternGraph.Proofs.CompiledLanguage
import PatternGraph.Proofs.UnfoldingInvariance

/-!
# Nesting of the generated text

How deeply the text of a pattern is nested is bounded by the height of its unfolding. A node adds at
most two levels to the deepest of its parts: a choice its group and its bars, a repetition its
quantifier and a group, a sequence one level however its parts flow together, and a class its
brackets and its union. So the text is read back within any limit of twice the height, which the
text of two nested choices of classes needs in full.
-/

namespace PatternGraph
set_option autoImplicit false

open Regex

/-! ## Height of a tree -/

mutual
/-- The number of nodes on the longest way from the root to a leaf; latches and recursions are not
counted. -/
def Pattern.height : Pattern → Nat
  | .literal .. => 1
  | .characterClass .. => 1
  | .alternation _ elements => 1 + Pattern.highest elements
  | .concatenation _ elements => 1 + Pattern.highest elements
  | .repetition _ inner _ _ => 1 + Pattern.height inner
  | .latch _ target => Pattern.height target
  | .recursion .. => 0

def Pattern.highest : List Pattern → Nat
  | [] => 0
  | p :: rest => max (Pattern.height p) (Pattern.highest rest)
end

/-! ## Depth of a fragment -/

namespace Regex

theorem levelFor_le (count : Nat) : levelFor count ≤ 1 := by
  unfold levelFor
  split <;> omega

theorem deepest_append (as bs : List Piece) :
    Piece.deepest (as ++ bs) = max (Piece.deepest as) (Piece.deepest bs) := by
  induction as with
  | nil => simp [Piece.deepest]
  | cons a as ih => simp only [List.cons_append, Piece.deepest, ih, Nat.max_assoc]

theorem deepest_ofText (text : List Char) : Piece.deepest (Branch.ofText text) = 0 := by
  induction text with
  | nil => rfl
  | cons c text ih =>
    have hcons : Branch.ofText (c :: text) = (Atom.character c).once :: Branch.ofText text := rfl
    rw [hcons, Piece.deepest, ih]
    rfl

end Regex

namespace Fragment

/-- The depth of the pieces as one branch. -/
def depth (part : Fragment) : Nat := levelFor part.pieces.length + Piece.deepest part.pieces

theorem depth_atom (single : Atom) : (Fragment.atom single).depth = single.depth := by
  show levelFor 1 + max (Piece.depth single.once) 0 = _
  simp [levelFor, Atom.once, Piece.depth]

theorem deepest_le_depth (part : Fragment) : Piece.deepest part.pieces ≤ part.depth :=
  Nat.le_add_left _ _

/-- A fragment alone is a whole expression of its depth. -/
theorem depth_regex (part : Fragment) : ({ first := part.pieces } : Regex).depth = part.depth := by
  show levelFor 1 + max part.depth 0 = _
  simp [levelFor]

theorem depth_toAtom_le (part : Fragment) : part.toAtom.depth ≤ 1 + part.depth := by
  cases part with
  | atom single =>
    rw [depth_atom]
    exact Nat.le_add_left _ _
  | row pieces =>
    show 1 + levelFor 1 + max (Fragment.row pieces).depth 0 ≤ _
    simp [levelFor]

theorem depth_ofText_le (text : List Char) : (ofText text).depth ≤ 1 := by
  unfold ofText
  split
  · rw [depth_atom]
    exact Nat.zero_le _
  · show levelFor _ + Piece.deepest (Branch.ofText text) ≤ 1
    rw [deepest_ofText]
    exact levelFor_le _

theorem depth_nothing : (Fragment.atom Atom.nothing).depth = 1 := rfl

theorem depth_ofClass_le (cls : CharacterClass) : (ofClass cls).depth ≤ 2 := by
  unfold ofClass
  split
  · rw [depth_nothing]
    omega
  · rename_i first rest _
    have hunion := levelFor_le (rest.length + 1)
    rw [depth_atom, Atom.depth]
    omega

theorem deepestBranch_map_le {parts : List Fragment} {most : Nat}
    (each : ∀ part ∈ parts, part.depth ≤ most) :
    Piece.deepestBranch (parts.map pieces) ≤ most := by
  induction parts with
  | nil => exact Nat.zero_le _
  | cons part rest ih =>
    obtain ⟨hpart, hrest⟩ := List.forall_mem_cons.mp each
    exact Nat.max_le.mpr ⟨hpart, ih hrest⟩

theorem deepest_flatMap_le {parts : List Fragment} {most : Nat}
    (each : ∀ part ∈ parts, part.depth ≤ most) :
    Piece.deepest (parts.flatMap pieces) ≤ most := by
  induction parts with
  | nil => exact Nat.zero_le _
  | cons part rest ih =>
    obtain ⟨hpart, hrest⟩ := List.forall_mem_cons.mp each
    rw [List.flatMap_cons, deepest_append]
    exact Nat.max_le.mpr ⟨(deepest_le_depth part).trans hpart, ih hrest⟩

/-- A choice adds its group and its bars. -/
theorem depth_choice_le {parts : List Fragment} {most : Nat}
    (each : ∀ part ∈ parts, part.depth ≤ most) : (choice parts).depth ≤ most + 2 := by
  unfold choice
  split
  · rw [depth_nothing]
    omega
  · exact (each _ (List.mem_singleton.mpr rfl)).trans (by omega)
  · rename_i first rest _
    obtain ⟨hfirst, hrest⟩ := List.forall_mem_cons.mp each
    have hbars := levelFor_le ((rest.map pieces).length + 1)
    have hbranches : max first.depth (Piece.deepestBranch (rest.map pieces)) ≤ most :=
      Nat.max_le.mpr ⟨hfirst, deepestBranch_map_le hrest⟩
    rw [depth_atom]
    show 1 + levelFor ((rest.map pieces).length + 1) +
      max first.depth (Piece.deepestBranch (rest.map pieces)) ≤ most + 2
    omega

/-- A sequence adds one level, wherever the pieces of its parts come from. -/
theorem depth_chain_le {parts : List Fragment} {most : Nat}
    (each : ∀ part ∈ parts, part.depth ≤ most) : (chain parts).depth ≤ most + 1 := by
  unfold chain
  split
  · exact (each _ (List.mem_singleton.mpr rfl)).trans (by omega)
  · have hlevel := levelFor_le (parts.flatMap pieces).length
    have hpieces := deepest_flatMap_le each
    show levelFor (parts.flatMap pieces).length + Piece.deepest (parts.flatMap pieces) ≤ most + 1
    omega

/-- A repetition adds its quantifier and, around a row, a group. -/
theorem depth_repeated_le (part : Fragment) (quantifier : Quantifier) :
    (part.repeated quantifier).depth ≤ part.depth + 2 := by
  unfold repeated
  split
  · omega
  · have hatom := depth_toAtom_le part
    have hpiece : (Fragment.row [part.toAtom.repeated quantifier]).depth =
        1 + part.toAtom.depth := by
      show levelFor 1 + max (1 + part.toAtom.depth) 0 = _
      simp [levelFor]
    omega

end Fragment

/-! ## Height and depth -/

namespace Heap
variable {heap : Heap} {p tree : Pattern}

/-- Every part of a list is no deeper than twice the height of the highest tree. -/
theorem depth_le_highest {atCell : Nat → Except CompileError Fragment}
    {elements trees : List Pattern} {parts : List Fragment}
    (hparts : List.Forall₂ (fun p part => p.fragmentWith atCell = .ok part) elements parts)
    (htrees : List.Forall₂ (fun p tree => ∀ part, p.fragmentWith atCell = .ok part →
      part.depth ≤ 2 * tree.height) elements trees) :
    ∀ part ∈ parts, part.depth ≤ 2 * Pattern.highest trees := by
  induction hparts generalizing trees with
  | nil => exact fun part hpart => absurd hpart List.not_mem_nil
  | cons hpart _ ih =>
    cases htrees with
    | cons hhead htail =>
      rw [Pattern.highest]
      refine List.forall_mem_cons.mpr ⟨?_, ?_⟩
      · have hdepth := hhead _ hpart
        omega
      · intro part hmem
        have hdepth := ih htail part hmem
        omega

/-- The induction is on the unfolding, so latches and recursions add nothing to either side. -/
theorem Unfolds.depth_le (h : heap.Unfolds p tree) :
    ∀ part, heap.fragment p = .ok part → part.depth ≤ 2 * tree.height := by
  induction h with
  | literal tag text =>
    intro part hpart
    obtain rfl := Except.ok.inj hpart
    exact (Fragment.depth_ofText_le _).trans one_le_two
  | characterClass tag cls =>
    intro part hpart
    obtain rfl := Except.ok.inj hpart
    exact Fragment.depth_ofClass_le cls
  | @alternation tag elements trees length _ ih =>
    intro part hpart
    obtain ⟨parts, hparts, hchoice⟩ := bind_eq_ok_iff.mp hpart
    obtain rfl := pure_eq_ok_iff.mp hchoice
    have heach := depth_le_highest (Pattern.forall₂_of_fragments_ok hparts)
      (List.forall₂_iff_zip.mpr ⟨length, fun h => ih _ _ h⟩)
    have hdepth := Fragment.depth_choice_le heach
    rw [Pattern.height]
    omega
  | @concatenation tag elements trees length _ ih =>
    intro part hpart
    obtain ⟨parts, hparts, hchain⟩ := bind_eq_ok_iff.mp hpart
    obtain rfl := pure_eq_ok_iff.mp hchain
    have heach := depth_le_highest (Pattern.forall₂_of_fragments_ok hparts)
      (List.forall₂_iff_zip.mpr ⟨length, fun h => ih _ _ h⟩)
    have hdepth := Fragment.depth_chain_le heach
    rw [Pattern.height]
    omega
  | @repetition tag inner tree min max _ ih =>
    intro part hpart
    obtain ⟨quantifier, _, hrest⟩ := bind_eq_ok_iff.mp hpart
    obtain ⟨single, hsingle, hrepeated⟩ := bind_eq_ok_iff.mp hrest
    obtain rfl := pure_eq_ok_iff.mp hrepeated
    have hdepth := Fragment.depth_repeated_le single quantifier
    have hinner := ih single hsingle
    rw [Pattern.height]
    omega
  | latch _ ih => exact ih
  | recursion bound _ ih =>
    intro part hpart
    -- A run that enters the cell gives the fragment of what the cell is bound to.
    exact ih part ((fragmentWalk_strict.atCell_eq_run bound).symm.trans hpart)

/-- The text is read back as what it was written from, so only its depth can be against it. -/
theorem parseRegex_eq_of_fragment_ok {part : Fragment} (h : heap.fragment p = .ok part)
    (nestLimit : Nat) : heap.parseRegex nestLimit p =
      if nestLimit < part.depth then .error (.rejected (.tooDeep nestLimit))
      else .ok { first := part.pieces } := by
  have hsource : heap.regexSource p = .ok ({ first := part.pieces } : Regex).text :=
    regexSource_eq_ok_iff.mpr ⟨part, h, rfl⟩
  unfold parseRegex
  rw [hsource]
  simp only [Bind.bind, Except.bind, ofText?_text, Fragment.depth_regex]

/-- A pattern that compiles has an unfolding, and its text is parsed within any nesting limit of
twice the height of the unfolding; so the limit that holds unless another is given is enough up to
height 125. -/
theorem parseRegex_of_height_le {source : String} (h : heap.regexSource p = .ok source) :
    (∃ tree, heap.Unfolds p tree) ∧ ∀ tree, heap.Unfolds p tree →
      (∀ nestLimit, 2 * tree.height ≤ nestLimit →
        ∃ regex, heap.parseRegex nestLimit p = .ok regex ∧ regex.text = source) ∧
      (tree.height ≤ 125 →
        ∃ regex, heap.parseRegex defaultNestLimit p = .ok regex ∧ regex.text = source) := by
  obtain ⟨part, hpart, hsource⟩ := regexSource_eq_ok_iff.mp h
  refine ⟨(regular_of_fragment_ok hpart).exists_unfolds, ?_⟩
  intro tree htree
  have hdepth := htree.depth_le part hpart
  have hparsed : ∀ nestLimit, 2 * tree.height ≤ nestLimit →
      ∃ regex, heap.parseRegex nestLimit p = .ok regex ∧ regex.text = source :=
    fun nestLimit hlimit => ⟨_, (parseRegex_eq_of_fragment_ok hpart nestLimit).trans
      (if_neg (Nat.not_lt.mpr (hdepth.trans hlimit))), hsource⟩
  exact ⟨hparsed, fun hheight => hparsed defaultNestLimit (Nat.mul_le_mul_left 2 hheight)⟩

end Heap

/-- A choice of two classes. -/
def Pattern.alphanumeric : Pattern :=
  .anyOf [.ofClass ⟨[.range 'A' 'Z' (by decide), .single '_']⟩,
    .ofClass ⟨[.range '0' '9' (by decide), .single '.']⟩]

/-- A choice between two references to a choice, one of them behind a latch. -/
def Pattern.twice : Pattern := .anyOf [.reference 0, .latched "letter" (.reference 0)]

def Heap.alphanumeric : Heap := { cells := #[{ grammar := some .alphanumeric }] }

theorem Heap.unfolds_twice :
    alphanumeric.Unfolds .twice (.anyOf [.alphanumeric, .alphanumeric]) := by
  have hclasses : alphanumeric.Unfolds .alphanumeric .alphanumeric := by
    refine .alternation rfl ?_
    intro p tree h
    rcases List.mem_pair.mp h with h | h <;> obtain ⟨rfl, rfl⟩ := Prod.mk.inj h <;>
      exact .characterClass _ _
  have hcell : alphanumeric.Unfolds (.reference 0) .alphanumeric := .recursion rfl hclasses
  refine .alternation rfl ?_
  intro p tree h
  rcases List.mem_pair.mp h with h | h <;> obtain ⟨rfl, rfl⟩ := Prod.mk.inj h
  · exact hcell
  · exact .latch hcell

/-- Twice the height is needed here. -/
theorem Heap.parseRegex_of_height_le_twice :
    alphanumeric.regexSource .twice = .ok "(([A-Z_]|[0-9\\.])|([A-Z_]|[0-9\\.]))" ∧
      alphanumeric.Unfolds .twice (.anyOf [.alphanumeric, .alphanumeric]) ∧
      2 * (Pattern.anyOf [.alphanumeric, .alphanumeric]).height ≤ 6 ∧
      (∃ regex, alphanumeric.parseRegex 6 .twice = .ok regex ∧
        regex.text = "(([A-Z_]|[0-9\\.])|([A-Z_]|[0-9\\.]))") ∧
      alphanumeric.parseRegex 5 .twice = .error (.rejected (.tooDeep 5)) := by
  have hsource : alphanumeric.regexSource .twice =
      .ok "(([A-Z_]|[0-9\\.])|([A-Z_]|[0-9\\.]))" := by decide
  have hheight : 2 * (Pattern.anyOf [.alphanumeric, .alphanumeric]).height ≤ 6 := by decide
  have hparsed := ((parseRegex_of_height_le hsource).2 _ unfolds_twice).1 6 hheight
  refine ⟨hsource, unfolds_twice, hheight, hparsed, ?_⟩
  exact (parseRegex_eq_of_fragment_ok rfl 5).trans (if_pos (by decide))

end PatternGraph
