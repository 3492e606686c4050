import PatternGraph.CoherentMatch
import PatternGraph.Proofs.BuiltMatches
import PatternGraph.Proofs.CellLifeCycle
import PatternGraph.Proofs.FixedLength
import PatternGraph.Proofs.LookedThrough
import PatternGraph.Proofs.SharedLanguage

/-!
# Matches are derivations

The text of a coherent match is a word of its pattern, and every word of a pattern is the text of
a coherent match. A value counts as coherent when it is built, and a cell may be bound afterwards;
binding it takes no word away, so the values that a session has built stay what they were, and later
values may be built from them. That a value was built at all means that something stands behind its
pattern, which is why two patterns with nothing behind them are never taken for one another.
-/

namespace PatternGraph
set_option autoImplicit false

theorem CharacterClass.acceptsText_iff {cls : CharacterClass} {word : List Char} :
    cls.acceptsText word = true ↔ word ∈ cls.language := by
  rw [mem_language]
  match word with
  | [] => simp [acceptsText]
  | [_] => simp [acceptsText]
  | _ :: _ :: _ => simp [acceptsText]

/-! ## What a match shows -/

namespace Match

@[simp] theorem pattern_withLocation (span : Span) (m : Match) :
    (m.withLocation span).pattern = m.pattern := by
  cases m <;> rfl

@[simp] theorem display_withLocation (span : Span) (m : Match) :
    (m.withLocation span).display = m.display := by
  cases m <;> rfl

end Match

namespace Heap
variable {heap later : Heap} {p q : Pattern} {m value : Match} {values : List Match}

/-- Something stands behind the pattern of the match, and the text of the match is a word of it. -/
structure Derives (heap : Heap) (m : Match) : Prop where
  matchable : ∃ target, heap.underlying m.pattern = some target
  word : m.display.toList ∈ heap.language m.pattern

theorem Derives.extend (h : heap.Derives m) (hlater : later.Extends heap) : later.Derives m := by
  obtain ⟨target, htarget⟩ := h.matchable
  exact ⟨⟨target, hlater.underlying_eq htarget⟩, hlater.language_le _ h.word⟩

theorem Derives.length_eq (h : heap.Derives m) {n : Nat} (hn : heap.width m.pattern = some n) :
    m.length = n := by
  rw [← m.length_display, ← String.length_toList]
  exact allOfLength_of_width hn _ h.word

theorem Derives.located (h : heap.Derives m) (span : Span) :
    heap.Derives (m.withLocation span) := by
  refine ⟨?_, ?_⟩
  · rw [Match.pattern_withLocation]
    exact h.matchable
  · rw [Match.pattern_withLocation, Match.display_withLocation]
    exact h.word

/-! ## Every text is a word -/

theorem word_of_acceptsText {target : Pattern} {content : String} (ρ : Nat → Language Char)
    (h : target.acceptsText content = true) : content.toList ∈ target.languageWith ρ := by
  cases target with
  | literal tag expected =>
    obtain rfl : expected = content := beq_iff_eq.mp h
    exact rfl
  | characterClass tag cls => exact CharacterClass.acceptsText_iff.mp h
  | _ => exact absurd h nofun

theorem derives_of_matchText {content : String} (h : heap.matchText p content = .ok m) :
    heap.Derives m := by
  obtain ⟨rfl, target, htarget, haccepts⟩ := matchText_eq_ok_iff.mp h
  refine ⟨⟨target, htarget⟩, ?_⟩
  rw [Match.pattern, language_of_underlying htarget]
  exact word_of_acceptsText _ haccepts

/-- A value that an alternative admits is a word of it, because the value has something behind its
pattern. -/
theorem language_of_admits (h : heap.admits p q = true)
    (hmatchable : ∃ target, heap.underlying q = some target) :
    heap.language q = heap.language p := by
  rcases Bool.or_eq_true_iff.mp h with hequal | hbehind
  · exact (language_of_equal hequal).symm
  · obtain ⟨target, htarget⟩ := hmatchable
    rw [htarget] at hbehind
    cases hother : heap.underlying p with
    | none =>
      rw [hother] at hbehind
      exact absurd hbehind nofun
    | some other =>
      rw [hother] at hbehind
      calc heap.language q
        _ = heap.language target := language_of_underlying htarget
        _ = heap.language other := (language_of_equal hbehind).symm
        _ = heap.language p := (language_of_underlying hother).symm

theorem derives_of_matchAlternation (hvalue : heap.Derives value)
    (h : heap.matchAlternation p value = .ok m) : heap.Derives m := by
  obtain ⟨rfl, tag, elements, htarget, element, helement, hadmits⟩ :=
    matchAlternation_eq_ok_iff.mp h
  refine ⟨⟨_, htarget⟩, ?_⟩
  have hword : value.display.toList ∈ heap.language element := by
    rw [← language_of_admits hadmits hvalue.matchable]
    exact hvalue.word
  rw [Match.pattern, language_of_underlying htarget]
  exact Pattern.mem_languageOfAny.mpr ⟨element, helement, hword⟩

theorem word_of_parts {elements : List Pattern} (each : ∀ value ∈ values, heap.Derives value)
    (parts : List.Forall₂ (fun value element => heap.equal value.pattern element = true)
      values elements) :
    (Match.displayAll values).toList ∈ Pattern.languageOfAll heap.cellLanguage elements := by
  induction parts with
  | nil => exact rfl
  | @cons value element rest others hpart _ ih =>
    obtain ⟨hvalue, hrest⟩ := List.forall_mem_cons.mp each
    have hword : value.display.toList ∈ heap.language element := by
      rw [← language_of_equal hpart]
      exact hvalue.word
    rw [Match.displayAll, String.toList_append]
    exact Language.append_mem_mul hword (ih hrest)

theorem derives_of_matchConcatenation {tag : Tag} {elements : List Pattern}
    (each : ∀ value ∈ values, heap.Derives value)
    (behind : heap.underlying p = some (.concatenation tag elements))
    (parts : List.Forall₂ (fun value element => heap.equal value.pattern element = true)
      values elements)
    (h : heap.matchConcatenation p values = .ok m) : heap.Derives m := by
  obtain ⟨rfl, _⟩ := matchConcatenation_eq_ok_iff.mp h
  refine ⟨⟨_, behind⟩, ?_⟩
  rw [Match.pattern, language_of_underlying behind]
  exact word_of_parts each parts

theorem word_of_repeats {inner : Pattern} (each : ∀ value ∈ values, heap.Derives value)
    (repeats : ∀ value ∈ values, heap.equal value.pattern inner = true) :
    (Match.displayAll values).toList ∈ heap.language inner ^ values.length := by
  rw [Match.toList_displayAll, Language.mem_pow]
  refine ⟨values.map (·.display.toList), List.flatMap_def, List.length_map _, ?_⟩
  intro word hword
  obtain ⟨value, hvalue, rfl⟩ := List.mem_map.mp hword
  rw [← language_of_equal (repeats value hvalue)]
  exact (each value hvalue).word

theorem derives_of_matchRepetition {tag : Tag} {inner : Pattern} {min : Nat} {max : Option Nat}
    (each : ∀ value ∈ values, heap.Derives value)
    (behind : heap.underlying p = some (.repetition tag inner min max))
    (repeats : ∀ value ∈ values, heap.equal value.pattern inner = true)
    (h : heap.matchRepetition p values = .ok m) : heap.Derives m := by
  obtain ⟨rfl, _, _, _, _, hbehind, hcount⟩ := matchRepetition_eq_ok_iff.mp h
  rw [behind, Option.some.injEq, Pattern.repetition.injEq] at hbehind
  obtain ⟨_, _, rfl, rfl⟩ := hbehind
  refine ⟨⟨_, behind⟩, ?_⟩
  rw [Match.pattern, language_of_underlying behind]
  exact ⟨values.length, hcount, word_of_repeats each repeats⟩

theorem Coherent.derives (h : heap.Coherent m) : heap.Derives m := by
  induction h with
  | text hbuilt => exact derives_of_matchText hbuilt
  | alternation _ hbuilt ih => exact derives_of_matchAlternation ih hbuilt
  | concatenation _ behind parts hbuilt ih =>
    exact derives_of_matchConcatenation ih behind parts hbuilt
  | repetition _ behind repeats hbuilt ih =>
    exact derives_of_matchRepetition ih behind repeats hbuilt
  | located _ ih => exact ih.located _

/-! ## Every word is a text -/

/-- The word is the text of a coherent match of the pattern. -/
def Derivable (heap : Heap) (p : Pattern) (word : List Char) : Prop :=
  ∃ m, heap.Coherent m ∧ m.pattern = p ∧ m.display.toList = word

theorem equal_refl (heap : Heap) (p : Pattern) : heap.equal p p = true :=
  equal_iff_bisimilar.mpr (.refl p)

/-- A match of one pattern can be built for any other with the same pattern behind it. -/
theorem Coherent.rebuild (h : heap.Coherent m)
    (same : heap.underlying p = heap.underlying m.pattern) :
    heap.Derivable p m.display.toList := by
  induction h with
  | text hbuilt =>
    obtain ⟨rfl, target, htarget, haccepts⟩ := matchText_eq_ok_iff.mp hbuilt
    exact ⟨_, .text (matchText_eq_ok_iff.mpr ⟨rfl, target, same.trans htarget, haccepts⟩), rfl, rfl⟩
  | alternation hvalue hbuilt _ =>
    obtain ⟨rfl, tag, elements, htarget, hadmits⟩ := matchAlternation_eq_ok_iff.mp hbuilt
    exact ⟨_, .alternation hvalue (matchAlternation_eq_ok_iff.mpr
      ⟨rfl, tag, elements, same.trans htarget, hadmits⟩), rfl, rfl⟩
  | concatenation heach behind parts hbuilt _ =>
    obtain ⟨rfl, tag, elements, htarget, hlength⟩ := matchConcatenation_eq_ok_iff.mp hbuilt
    exact ⟨_, .concatenation heach (same.trans behind) parts (matchConcatenation_eq_ok_iff.mpr
      ⟨rfl, tag, elements, same.trans htarget, hlength⟩), rfl, rfl⟩
  | repetition heach behind repeats hbuilt _ =>
    obtain ⟨rfl, tag, inner, min, max, htarget, hcount⟩ := matchRepetition_eq_ok_iff.mp hbuilt
    exact ⟨_, .repetition heach (same.trans behind) repeats (matchRepetition_eq_ok_iff.mpr
      ⟨rfl, tag, inner, min, max, same.trans htarget, hcount⟩), rfl, rfl⟩
  | located _ ih => simpa using ih (by simpa using same)

theorem Derivable.rebuild {word : List Char} (h : heap.Derivable q word)
    (same : heap.underlying p = heap.underlying q) : heap.Derivable p word := by
  obtain ⟨m, hcoherent, rfl, rfl⟩ := h
  exact hcoherent.rebuild same

theorem derivable_alternation {tag : Tag} {elements : List Pattern} {word : List Char}
    (hp : p ∈ elements) (h : heap.Derivable p word) :
    heap.Derivable (.alternation tag elements) word := by
  obtain ⟨value, hvalue, rfl, hword⟩ := h
  have hadmits : heap.admits value.pattern value.pattern = true := by simp [admits, equal_refl]
  exact ⟨_, .alternation hvalue (matchAlternation_eq_ok_iff.mpr
    ⟨rfl, tag, elements, rfl, value.pattern, hp, hadmits⟩), rfl, hword⟩

theorem exists_parts {ρ : Nat → Language Char} {elements : List Pattern}
    (each : ∀ p ∈ elements, ∀ word ∈ p.languageWith ρ, heap.Derivable p word) :
    ∀ word ∈ Pattern.languageOfAll ρ elements, ∃ values, (∀ value ∈ values, heap.Coherent value) ∧
      List.Forall₂ (fun value element => heap.equal value.pattern element = true) values elements ∧
      (Match.displayAll values).toList = word := by
  induction elements with
  | nil =>
    intro word hword
    obtain rfl : word = [] := hword
    exact ⟨[], by simp, .nil, rfl⟩
  | cons p rest ih =>
    obtain ⟨hp, hrest⟩ := List.forall_mem_cons.mp each
    intro word hword
    obtain ⟨front, hfront, back, hback, rfl⟩ := Language.mem_mul.mp hword
    obtain ⟨value, hvalue, rfl, rfl⟩ := hp front hfront
    obtain ⟨values, hvalues, hparts, rfl⟩ := ih hrest back hback
    refine ⟨value :: values, List.forall_mem_cons.mpr ⟨hvalue, hvalues⟩,
      .cons (equal_refl heap _) hparts, ?_⟩
    rw [Match.displayAll, String.toList_append]

theorem exists_repeats {inner : Pattern} {words : List (List Char)}
    (each : ∀ word ∈ words, heap.Derivable inner word) :
    ∃ values, (∀ value ∈ values, heap.Coherent value) ∧
      (∀ value ∈ values, heap.equal value.pattern inner = true) ∧
      values.length = words.length ∧ (Match.displayAll values).toList = words.flatten := by
  induction words with
  | nil => exact ⟨[], by simp, by simp, rfl, rfl⟩
  | cons word rest ih =>
    obtain ⟨hword, hrest⟩ := List.forall_mem_cons.mp each
    obtain ⟨value, hvalue, rfl, rfl⟩ := hword
    obtain ⟨values, hvalues, hrepeats, hlength, hflatten⟩ := ih hrest
    refine ⟨value :: values, List.forall_mem_cons.mpr ⟨hvalue, hvalues⟩,
      List.forall_mem_cons.mpr ⟨equal_refl heap _, hrepeats⟩, congrArg Nat.succ hlength, ?_⟩
    rw [Match.displayAll, String.toList_append, hflatten, List.flatten_cons]

theorem derivable_of_languageWith {ρ : Nat → Language Char}
    (cells : ∀ c, ∀ word ∈ ρ c, ∀ tag, heap.Derivable (.recursion tag c) word) (p : Pattern) :
    ∀ word ∈ p.languageWith ρ, heap.Derivable p word := by
  induction p with
  | literal tag text =>
    intro word hword
    obtain rfl : word = text.toList := hword
    have haccepts : (Pattern.literal tag text).acceptsText text = true :=
      beq_iff_eq.mpr rfl
    exact ⟨_, .text (matchText_eq_ok_iff.mpr ⟨rfl, _, rfl, haccepts⟩), rfl, rfl⟩
  | characterClass tag cls =>
    intro word hword
    obtain ⟨c, hincludes, rfl⟩ := CharacterClass.mem_language.mp hword
    have haccepts : (Pattern.characterClass tag cls).acceptsText (.singleton c) = true := by
      apply CharacterClass.acceptsText_iff.mpr
      exact ⟨c, hincludes, String.toList_singleton c⟩
    exact ⟨_, .text (matchText_eq_ok_iff.mpr ⟨rfl, _, rfl, haccepts⟩), rfl,
      String.toList_singleton c⟩
  | alternation tag elements ih =>
    intro word hword
    obtain ⟨p, hp, hword⟩ := Pattern.mem_languageOfAny.mp hword
    exact derivable_alternation hp (ih p hp word hword)
  | concatenation tag elements ih =>
    intro word hword
    obtain ⟨values, hvalues, hparts, rfl⟩ := exists_parts ih word hword
    exact ⟨_, .concatenation hvalues rfl hparts (matchConcatenation_eq_ok_iff.mpr
      ⟨rfl, tag, elements, rfl, hparts.length_eq.symm⟩), rfl, rfl⟩
  | repetition tag inner min max ih =>
    intro word hword
    obtain ⟨count, hcount, hpower⟩ := mem_copies.mp hword
    obtain ⟨words, rfl, rfl, hwords⟩ := Language.mem_pow.mp hpower
    obtain ⟨values, hvalues, hrepeats, hlength, hflatten⟩ :=
      exists_repeats fun word hword => ih word (hwords word hword)
    rw [← hlength] at hcount
    exact ⟨_, .repetition hvalues rfl hrepeats (matchRepetition_eq_ok_iff.mpr
      ⟨rfl, tag, inner, min, max, rfl, hcount⟩), rfl, hflatten⟩
  | latch tag target ih =>
    intro word hword
    exact (ih word hword).rebuild (underlying_latch heap tag target)
  | recursion tag cell => exact fun word hword => cells cell word hword tag

/-- Every word has a match: the words that have one solve the equations of the heap. -/
theorem derivable_of_mem_language {word : List Char} (h : word ∈ heap.language p) :
    heap.Derivable p word := by
  let derivable : Nat → Language Char := fun c =>
    {word | ∀ tag, heap.Derivable (.recursion tag c) word}
  have htrees : ∀ p, ∀ word ∈ p.languageWith derivable, heap.Derivable p word :=
    derivable_of_languageWith fun _ _ hword => hword
  have hclosed : heap.Closed derivable := by
    intro c q hbound word hword tag
    exact (htrees q word hword).rebuild (underlying_recursion hbound tag)
  exact htrees p word (Pattern.languageWith_mono (cellLanguage_le hclosed) p h)

end Heap

/-! ## Sessions -/

namespace Session
variable {calls : List Call} {m : Match}

/-- Matches that can have been built once the given calls were made. Each was coherent at the time
it was built, and its values may be older than it is. -/
inductive CoherentAfter : List Call → Match → Prop where
  | text {calls : List Call} {p : Pattern} {content : String} {m : Match}
      (built : (run {} calls).heap.matchText p content = .ok m) : CoherentAfter calls m
  | alternation {calls : List Call} {p : Pattern} {value m : Match}
      (earlier : CoherentAfter calls value)
      (built : (run {} calls).heap.matchAlternation p value = .ok m) : CoherentAfter calls m
  | concatenation {calls : List Call} {p : Pattern} {tag : Tag} {elements : List Pattern}
      {values : List Match} {m : Match} (earlier : ∀ value ∈ values, CoherentAfter calls value)
      (behind : (run {} calls).heap.underlying p = some (.concatenation tag elements))
      (parts : List.Forall₂
        (fun value element => (run {} calls).heap.equal value.pattern element = true)
        values elements)
      (built : (run {} calls).heap.matchConcatenation p values = .ok m) : CoherentAfter calls m
  | repetition {calls : List Call} {p : Pattern} {tag : Tag} {inner : Pattern} {min : Nat}
      {max : Option Nat} {values : List Match} {m : Match}
      (earlier : ∀ value ∈ values, CoherentAfter calls value)
      (behind : (run {} calls).heap.underlying p = some (.repetition tag inner min max))
      (repeats : ∀ value ∈ values, (run {} calls).heap.equal value.pattern inner = true)
      (built : (run {} calls).heap.matchRepetition p values = .ok m) : CoherentAfter calls m
  | located {calls : List Call} {m : Match} {span : Span} (earlier : CoherentAfter calls m) :
      CoherentAfter calls (m.withLocation span)
  | later {calls : List Call} {m : Match} (more : List Call) (earlier : CoherentAfter calls m) :
      CoherentAfter (calls ++ more) m

/-- No call unbinds a cell or binds it to something else. -/
theorem extends_run_append (calls more : List Call) :
    (run {} (calls ++ more)).heap.Extends (run {} calls).heap := by
  intro c p hbound
  rw [run, List.foldl_append]
  exact (sound_new.run calls).grammar_run more hbound

theorem CoherentAfter.derives (h : CoherentAfter calls m) : (run {} calls).heap.Derives m := by
  induction h with
  | text built => exact Heap.derives_of_matchText built
  | alternation _ built ih => exact Heap.derives_of_matchAlternation ih built
  | concatenation _ behind parts built ih =>
    exact Heap.derives_of_matchConcatenation ih behind parts built
  | repetition _ behind repeats built ih =>
    exact Heap.derives_of_matchRepetition ih behind repeats built
  | located _ ih => exact ih.located _
  | later more _ ih => exact ih.extend (extends_run_append _ more)

/-- In every heap the words of a pattern are the texts of its coherent matches, and a coherent
match is as long as its pattern is wide. A match that was built coherently in the course of a
session keeps both properties through all further calls. -/
theorem words_are_coherent_texts :
    (∀ (heap : Heap) p word, word ∈ heap.language p ↔
      ∃ m, heap.Coherent m ∧ m.pattern = p ∧ m.display.toList = word) ∧
    (∀ (heap : Heap) m n, heap.Coherent m → heap.width m.pattern = some n → m.length = n) ∧
    ∀ calls m, CoherentAfter calls m → ∀ more,
      let later := (run {} (calls ++ more)).heap
      m.display.toList ∈ later.language m.pattern ∧
        ∀ n, later.width m.pattern = some n → m.length = n := by
  refine ⟨?_, ?_, ?_⟩
  · intro heap p word
    constructor
    · exact Heap.derivable_of_mem_language
    · rintro ⟨m, hcoherent, rfl, rfl⟩
      exact hcoherent.derives.word
  · intro heap m n hcoherent hwidth
    exact hcoherent.derives.length_eq hwidth
  · intro calls m hcoherent more later
    have hderives : later.Derives m := hcoherent.derives.extend (extends_run_append calls more)
    exact ⟨hderives.word, fun n hwidth => hderives.length_eq hwidth⟩

/-- Any number of `b`, then `a`. -/
def nestedBody : Pattern := .anyOf [.ofText "a", .inOrder [.ofText "b", .reference 0]]

/-- The rule has not been resolved yet. -/
def prepared : List Call := [.newPlaceholder]

def nestedRule : List Call := prepared ++ [.resolve 0 nestedBody false]

/-- The text `ba`, of which the leaf `a` is older than the rule. -/
def nestedMatch : Match :=
  let inner := Match.alternative (.reference 0) (.text (.ofText "a") "a" none) none
  let body := Pattern.inOrder [.ofText "b", .reference 0]
  .alternative (.reference 0) (.sequence body [.text (.ofText "b") "b" none, inner] none) none

theorem words_are_coherent_texts_nested :
    CoherentAfter nestedRule nestedMatch ∧
    ['b', 'a'] ∈ (run {} (nestedRule ++ [.newPlaceholder])).heap.language (.reference 0) ∧
    (∃ m, (run {} (nestedRule ++ [.newPlaceholder])).heap.Coherent m ∧
      m.pattern = .reference 0 ∧ m.display.toList = ['b', 'a']) ∧
    ∃ m, ({} : Heap).Coherent m ∧ ({} : Heap).width m.pattern = some 2 ∧ m.length = 2 := by
  have leaf : CoherentAfter prepared (.text (.ofText "a") "a" none) :=
    .text (Heap.matchText_eq_ok_iff.mpr ⟨rfl, _, rfl, rfl⟩)
  have inner : CoherentAfter nestedRule
      (.alternative (.reference 0) (.text (.ofText "a") "a" none) none) :=
    .alternation (leaf.later _) (Heap.matchAlternation_eq_ok_iff.mpr
      ⟨rfl, _, _, rfl, _, List.mem_cons_self, by decide⟩)
  have front : CoherentAfter nestedRule (.text (.ofText "b") "b" none) :=
    .text (Heap.matchText_eq_ok_iff.mpr ⟨rfl, _, rfl, rfl⟩)
  have body : CoherentAfter nestedRule (.sequence (.inOrder [.ofText "b", .reference 0])
      [.text (.ofText "b") "b" none,
        .alternative (.reference 0) (.text (.ofText "a") "a" none) none] none) := by
    refine .concatenation ?_ rfl (.cons (by decide) (.cons (by decide) .nil))
      (Heap.matchConcatenation_eq_ok_iff.mpr ⟨rfl, _, _, rfl, rfl⟩)
    simpa using ⟨front, inner⟩
  have whole : CoherentAfter nestedRule nestedMatch :=
    .alternation body (Heap.matchAlternation_eq_ok_iff.mpr
      ⟨rfl, _, _, rfl, _, List.mem_cons_of_mem _ List.mem_cons_self, by decide⟩)
  obtain ⟨hword, _⟩ := words_are_coherent_texts.2.2 _ _ whole [.newPlaceholder]
  have pair : ({} : Heap).Coherent (.sequence ((Pattern.ofText "x").exactly 2)
      [.text (.ofText "x") "x" none, .text (.ofText "x") "x" none] none) := by
    have single : ({} : Heap).Coherent (.text (.ofText "x") "x" none) :=
      .text (Heap.matchText_eq_ok_iff.mpr ⟨rfl, _, rfl, rfl⟩)
    refine .repetition ?_ rfl ?_ (Heap.matchRepetition_eq_ok_iff.mpr ⟨rfl, _, _, _, _, rfl, rfl⟩)
    · simpa using single
    · simpa [Match.pattern] using Heap.equal_refl {} (.ofText "x")
  exact ⟨whole, hword, (words_are_coherent_texts.1 _ _ _).mp hword, _, pair, rfl,
    words_are_coherent_texts.2.1 _ _ 2 pair rfl⟩

end Session
end PatternGraph
