import PatternGraph.RegexLanguage
import PatternGraph.RegexRoundTrip
import PatternGraph.Proofs.FiniteUnfolding

/-!
# The language of a compiled pattern

The text that a pattern is compiled to reads back as an expression which matches exactly the words
of the pattern's finite unfolding. A fragment has a language of its own, and each way of building
one does to languages what the node it is built for does. That the text reads back as the tree it
was written from is a fact about regular expressions alone and is only used here.
-/

namespace PatternGraph
set_option autoImplicit false

open Regex

namespace Fragment

/-- The words that the pieces of a fragment match one after another. -/
def language (part : Fragment) : Language Char := Piece.languageOfAll part.pieces

@[simp] theorem language_atom (single : Atom) :
    (Fragment.atom single).language = single.language :=
  mul_one _

@[simp] theorem language_row (pieces : List Piece) :
    (Fragment.row pieces).language = Piece.languageOfAll pieces := rfl

@[simp] theorem language_toAtom (part : Fragment) : part.toAtom.language = part.language := by
  cases part with
  | atom single => exact (language_atom single).symm
  | row pieces => exact add_zero _

theorem language_ofText (text : List Char) : (ofText text).language = {text} := by
  unfold ofText
  split
  · exact language_atom _
  · exact languageOfAll_ofText text

theorem language_ofClass (cls : CharacterClass) : (ofClass cls).language = cls.language := by
  unfold ofClass
  split
  · rename_i hitems
    rw [language_atom, language_nothing]
    ext word
    simp [CharacterClass.mem_language, CharacterClass.includes, hitems, Language.notMem_zero]
  · rename_i first rest hitems
    rw [language_atom]
    show (CharacterClass.mk (first :: rest)).language = cls.language
    rw [← hitems]

theorem languageOfAny_map_pieces (parts : List Fragment) :
    Piece.languageOfAny (parts.map pieces) = (parts.map language).sum := by
  induction parts with
  | nil => rfl
  | cons part rest ih => simp only [List.map_cons, Piece.languageOfAny, ih, List.sum_cons, language]

theorem language_choice (parts : List Fragment) :
    (choice parts).language = (parts.map language).sum := by
  unfold choice
  split
  · rw [language_atom, language_nothing]
    rfl
  · simp
  · rename_i first rest _
    rw [language_atom, Atom.language, languageOfAny_map_pieces]
    rfl

theorem languageOfAll_flatMap_pieces (parts : List Fragment) :
    Piece.languageOfAll (parts.flatMap pieces) = (parts.map language).prod := by
  induction parts with
  | nil => rfl
  | cons part rest ih =>
    rw [List.flatMap_cons, languageOfAll_append, ih]
    rfl

theorem language_chain (parts : List Fragment) :
    (chain parts).language = (parts.map language).prod := by
  unfold chain
  split
  · simp
  · exact languageOfAll_flatMap_pieces parts

theorem language_repeated (part : Fragment) (quantifier : Quantifier) :
    (part.repeated quantifier).language =
      copies part.language quantifier.min quantifier.max := by
  unfold repeated
  split
  · rename_i honce
    rw [honce.1, honce.2, copies_once]
  · rw [language_row]
    show Piece.languageOfAll [part.toAtom.repeated quantifier] = _
    rw [← language_toAtom part]
    exact mul_one _

end Fragment

namespace Pattern
variable {atCell : Nat → Except CompileError Fragment} {ρ : Nat → Language Char}

theorem map_language_of_fragments_ok {elements : List Pattern} {parts : List Fragment}
    (h : fragments atCell elements = .ok parts)
    (each : ∀ p ∈ elements, ∀ part, p.fragmentWith atCell = .ok part →
      part.language = p.languageWith ρ) :
    parts.map Fragment.language = elements.map (·.languageWith ρ) := by
  have hall := forall₂_of_fragments_ok h
  clear h
  induction hall with
  | nil => rfl
  | cons hpart _ ih =>
    obtain ⟨hhead, htail⟩ := List.forall_mem_cons.mp each
    rw [List.map_cons, List.map_cons, hhead _ hpart, ih htail]

/-- A tree that compiles becomes a fragment with its language if its cells do. -/
theorem language_of_fragmentWith_ok
    (hcells : ∀ cell part, atCell cell = .ok part → part.language = ρ cell)
    (p : Pattern) : ∀ part, p.fragmentWith atCell = .ok part →
      part.language = p.languageWith ρ := by
  induction p with
  | literal tag text =>
    intro part h
    obtain rfl := Except.ok.inj h
    exact Fragment.language_ofText text.toList
  | characterClass tag cls =>
    intro part h
    obtain rfl := Except.ok.inj h
    exact Fragment.language_ofClass cls
  | alternation tag elements ih =>
    intro part h
    simp only [fragmentWith, bind_eq_ok_iff, pure_eq_ok_iff] at h
    obtain ⟨parts, hparts, rfl⟩ := h
    rw [Fragment.language_choice, map_language_of_fragments_ok hparts ih]
    exact (languageOfAny_eq_sum ρ elements).symm
  | concatenation tag elements ih =>
    intro part h
    simp only [fragmentWith, bind_eq_ok_iff, pure_eq_ok_iff] at h
    obtain ⟨parts, hparts, rfl⟩ := h
    rw [Fragment.language_chain, map_language_of_fragments_ok hparts ih]
    exact (languageOfAll_eq_prod ρ elements).symm
  | repetition tag inner min max ih =>
    intro part h
    simp only [fragmentWith, bind_eq_ok_iff, pure_eq_ok_iff] at h
    obtain ⟨quantifier, hbounds, single, hsingle, rfl⟩ := h
    obtain ⟨hmin, hmax⟩ := Quantifier.bounds_of_ofBounds_ok hbounds
    rw [Fragment.language_repeated, ih single hsingle, hmin, hmax]
    rfl
  | latch tag target ih => exact ih
  | recursion tag cell => exact hcells cell

end Pattern

namespace Heap
variable {heap : Heap} {p : Pattern}

theorem language_of_atCell_ok {fuel : Nat} {inside : List Nat} {c : Nat} {part : Fragment}
    (h : fragmentWalk.atCell heap.grammar fuel inside c = .ok part) :
    part.language = heap.cellLanguage c := by
  refine atCell_ok_induction (P := fun c part => part.language = heap.cellLanguage c) ?_ h
  intro c p atCell part hbound hcells hpart
  rw [cellLanguage_of_bound hbound]
  exact Pattern.language_of_fragmentWith_ok hcells p part hpart

theorem language_of_fragment_ok {part : Fragment} (h : heap.fragment p = .ok part) :
    part.language = heap.language p :=
  Pattern.language_of_fragmentWith_ok (fun _ _ hcell => language_of_atCell_ok hcell) p part h

/-- The text reads back as an expression with the words of the finite unfolding, which are also the
words that the pattern has in its heap. -/
theorem language_regexSource {source : String} (h : heap.regexSource p = .ok source) :
    ∃ regex tree, Regex.ofText? source = some regex ∧ heap.Unfolds p tree ∧
      regex.language = tree.languageWith (fun _ => 0) ∧ regex.language = heap.language p := by
  obtain ⟨part, hpart, rfl⟩ := regexSource_eq_ok_iff.mp h
  obtain ⟨tree, htree⟩ := (regular_of_fragment_ok hpart).exists_unfolds
  have hlanguage : ({ first := part.pieces } : Regex).language = heap.language p := by
    rw [← language_of_fragment_ok hpart]
    exact add_zero _
  refine ⟨_, tree, ofText?_text _, htree, ?_, hlanguage⟩
  rw [hlanguage, htree.language_eq]

end Heap

def Heap.hyphenated : Heap :=
  { cells := #[{ grammar := some (.inOrder [.ofText "-", .optional (.ofText "xy")]) }] }

/-- Repetitions of repetitions, a cell that is used twice, an alternation of nothing and an empty
text. -/
def Pattern.nested : Pattern :=
  .inOrder [.ofText "a|b\n", .any (.between (.exactly (.anyOf [.reference 0]) 1) 2 3),
    .anyOf [.latched "part" (.reference 0), .anyOf [], .ofText ""]]

def Regex.nestedText : String :=
  "a\\|b\\n((\\-(xy)?)\x7b2,3\x7d)*(\\-(xy)?|[^\\x\x7b0\x7d-\\x\x7b10FFFF\x7d]|)"

theorem Heap.language_regexSource_nested :
    hyphenated.regexSource .nested = .ok Regex.nestedText ∧
      ∃ regex tree, Regex.ofText? Regex.nestedText = some regex ∧
        hyphenated.Unfolds .nested tree ∧ regex.language = tree.languageWith (fun _ => 0) ∧
        regex.language = hyphenated.language .nested := by
  have h : hyphenated.regexSource .nested = .ok Regex.nestedText := by decide
  exact ⟨h, language_regexSource h⟩

end PatternGraph
