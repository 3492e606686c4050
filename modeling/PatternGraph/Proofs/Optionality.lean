import PatternGraph.Proofs.CompiledLanguage
import PatternGraph.Proofs.RepetitionCounts

/-!
# Optional patterns and the empty word

Whether a pattern counts as optional is read off its nodes: a repetition from zero to one does, a
latch as its target does, and a recursion does whatever its cell holds. The words of a compiled
pattern look through latches and cells. The two agree except at a recursion: the empty word is
among the words of every optional pattern that is no recursion behind its latches, and making a
pattern optional adds just the empty word, while a recursion is left as it is and has the words of
what its cell is bound to.
-/

namespace PatternGraph
set_option autoImplicit false

open Regex

namespace Pattern

/-- What is left of a pattern when the latches around it are taken off. -/
def withoutLatches : Pattern → Pattern
  | .latch _ target => target.withoutLatches
  | p => p

theorem optional_of_kind_ne {p : Pattern} (hp : p.kind ≠ .recursion) :
    p.optional = p.repeated 0 (some 1) := by
  cases p with
  | recursion => exact absurd rfl hp
  | _ => rfl

theorem optional_of_kind_eq {p : Pattern} (hp : p.kind = .recursion) : p.optional = p := by
  cases p with
  | recursion => rfl
  | _ => exact absurd hp nofun

end Pattern

namespace Heap
variable {heap : Heap} {p : Pattern}

/-- The text reads back as an expression with the words of the pattern. -/
theorem exists_regex_of_regexSource_ok {source : String} (h : heap.regexSource p = .ok source) :
    ∃ regex, ofText? source = some regex ∧ regex.language = heap.language p := by
  obtain ⟨part, hpart, rfl⟩ := regexSource_eq_ok_iff.mp h
  refine ⟨_, ofText?_text _, ?_⟩
  rw [← language_of_fragment_ok hpart]
  exact add_zero _

/-- An optional pattern that is no recursion behind its latches is a repetition from zero. -/
theorem nil_mem_language_of_isOptional (h : p.isOptional = true)
    (hp : p.withoutLatches.kind ≠ .recursion) : [] ∈ heap.language p := by
  induction p with
  | repetition tag inner min max _ =>
    obtain ⟨rfl, rfl⟩ : min = 0 ∧ max = some 1 := by simpa [Pattern.isOptional] using h
    show [] ∈ copies (heap.language inner) 0 (some 1)
    rw [copies_optional]
    exact .inr Language.nil_mem_one
  | latch tag target ih => exact ih h hp
  | recursion tag cell => exact absurd rfl hp
  | _ => exact absurd h nofun

/-- A recursion, which is left as it is, has to match the empty word already. -/
theorem language_optional_iff :
    heap.language p.optional = heap.language p + 1 ↔
      p.kind ≠ .recursion ∨ [] ∈ heap.language p := by
  by_cases hp : p.kind = .recursion
  · rw [Pattern.optional_of_kind_eq hp, eq_comm, add_eq_left_iff_le]
    constructor
    · exact fun hle => .inr (hle Language.nil_mem_one)
    · rintro (hne | hnil)
      · exact absurd hp hne
      · intro word hword
        rwa [(Language.mem_one word).mp hword]
  · refine iff_of_true ?_ (.inl hp)
    rw [Pattern.optional_of_kind_ne hp]
    exact copies_optional _

/-- Making a pattern optional never keeps it from being compiled. -/
theorem exists_regexSource_optional {source : String} (h : heap.regexSource p = .ok source) :
    ∃ emitted, heap.regexSource p.optional = .ok emitted := by
  by_cases hp : p.kind = .recursion
  · rw [Pattern.optional_of_kind_eq hp]
    exact ⟨source, h⟩
  · obtain ⟨part, hpart, -⟩ := regexSource_eq_ok_iff.mp h
    rw [Pattern.optional_of_kind_ne hp]
    exact ⟨_, regexSource_eq_ok_iff.mpr ⟨_, fragment_repeated_ok hpart rfl, rfl⟩⟩

theorem isOptional_of_withoutLatches {tag : Tag} {cell : Nat}
    (hp : p.withoutLatches = .recursion tag cell) : p.isOptional = true := by
  induction p with
  | latch _ target ih => exact ih hp
  | recursion => rfl
  | _ => cases hp

/-- A recursion behind latches has the words of what its cell is bound to. -/
theorem exists_grammar_of_withoutLatches (h : heap.Regular p) {tag : Tag} {cell : Nat}
    (hp : p.withoutLatches = .recursion tag cell) :
    ∃ grammar, heap.grammar cell = some grammar ∧ heap.language p = heap.language grammar := by
  induction p with
  | latch _ target ih =>
    exact ih (h.of_reaches (.of_element (List.mem_singleton.mpr rfl) (.refl target))) hp
  | recursion _ other =>
    obtain ⟨-, rfl⟩ := Pattern.recursion.inj hp
    obtain ⟨grammar, hgrammar⟩ := Option.isSome_iff_exists.mp
      (h.bound (c := other) (by simp [Pattern.isReferenceTo]))
    exact ⟨grammar, hgrammar, cellLanguage_of_bound hgrammar⟩
  | _ => cases hp

/-- A compiled pattern that counts as optional matches the empty word unless it is a recursion
behind its latches, and making it optional adds just the empty word unless it is a recursion itself
that does not match it. A recursion behind latches counts as optional whatever it matches, which is
what its cell is bound to; and a recursion is its own optional form. -/
theorem optional_of_compiled {source : String} (h : heap.regexSource p = .ok source) :
    ∃ regex emitted optional, ofText? source = some regex ∧
      heap.regexSource p.optional = .ok emitted ∧ ofText? emitted = some optional ∧
      (p.isOptional = true → p.withoutLatches.kind ≠ .recursion → [] ∈ regex.language) ∧
      (optional.language = regex.language + 1 ↔ p.kind ≠ .recursion ∨ [] ∈ regex.language) ∧
      (∀ tag cell, p.withoutLatches = .recursion tag cell → p.isOptional = true ∧
        ∃ grammar, heap.grammar cell = some grammar ∧ regex.language = heap.language grammar) ∧
      (p.kind = .recursion → p.optional = p) := by
  obtain ⟨regex, hregex, hlanguage⟩ := exists_regex_of_regexSource_ok h
  obtain ⟨emitted, hemitted⟩ := exists_regexSource_optional h
  obtain ⟨optional, hoptional, hlarger⟩ := exists_regex_of_regexSource_ok hemitted
  obtain ⟨part, hpart, -⟩ := regexSource_eq_ok_iff.mp h
  refine ⟨regex, emitted, optional, hregex, hemitted, hoptional, ?_⟩
  rw [hlanguage, hlarger]
  exact ⟨nil_mem_language_of_isOptional, language_optional_iff,
    fun _ _ hp => ⟨isOptional_of_withoutLatches hp,
      exists_grammar_of_withoutLatches (regular_of_fragment_ok hpart) hp⟩,
    Pattern.optional_of_kind_eq⟩

end Heap

/-- Its only cell holds a text. -/
def Heap.lettered : Heap := { cells := #[{ grammar := some (.ofText "x") }] }

/-- A latch over an optional text, and one over a recursion that requires a text. -/
theorem Heap.optional_of_compiled_latched :
    lettered.regexSource (.latched "maybe" (.optional (.ofText "ab"))) = .ok "(ab)?" ∧
      lettered.regexSource (.latched "letter" (.reference 0)) = .ok "x" ∧
      (∃ regex emitted optional, ofText? "(ab)?" = some regex ∧
        lettered.regexSource (Pattern.latched "maybe" (.optional (.ofText "ab"))).optional =
          .ok emitted ∧
        ofText? emitted = some optional ∧ [] ∈ regex.language ∧
        optional.language = regex.language + 1) ∧
      ∃ regex emitted optional, ofText? "x" = some regex ∧
        lettered.regexSource (Pattern.latched "letter" (.reference 0)).optional = .ok emitted ∧
        ofText? emitted = some optional ∧ optional.language = regex.language + 1 ∧
        (Pattern.latched "letter" (.reference 0)).isOptional = true ∧
        regex.language = lettered.language (.ofText "x") := by
  have hmaybe : lettered.regexSource (.latched "maybe" (.optional (.ofText "ab"))) =
      .ok "(ab)?" := by decide
  have hletter : lettered.regexSource (.latched "letter" (.reference 0)) = .ok "x" := by decide
  refine ⟨hmaybe, hletter, ?_, ?_⟩
  · obtain ⟨regex, emitted, optional, hregex, hemitted, hoptional, hnil, hadds, -⟩ :=
      optional_of_compiled hmaybe
    exact ⟨regex, emitted, optional, hregex, hemitted, hoptional, hnil rfl nofun,
      hadds.mpr (.inl nofun)⟩
  · obtain ⟨regex, emitted, optional, hregex, hemitted, hoptional, -, hadds, hcell, -⟩ :=
      optional_of_compiled hletter
    obtain ⟨hcounts, grammar, hgrammar, hlanguage⟩ := hcell _ 0 rfl
    obtain rfl := Option.some.inj hgrammar
    exact ⟨regex, emitted, optional, hregex, hemitted, hoptional,
      hadds.mpr (.inl nofun), hcounts, hlanguage⟩

/-- The recursion alone counts as optional and is its own optional form, but it matches no empty
word. -/
theorem Heap.not_nil_mem_language_of_bound :
    (Pattern.reference 0).isOptional = true ∧ lettered.regexSource (.reference 0) = .ok "x" ∧
      lettered.regexSource (Pattern.reference 0).optional = .ok "x" ∧
      ∃ regex, ofText? "x" = some regex ∧ [] ∉ regex.language ∧
        regex.language ≠ regex.language + 1 := by
  have hsource : lettered.regexSource (.reference 0) = .ok "x" := by decide
  obtain ⟨regex, hregex, hlanguage⟩ := exists_regex_of_regexSource_ok hsource
  have hwords : regex.language = {['x']} := by
    have hbound : lettered.grammar 0 = some (.ofText "x") := rfl
    rw [hlanguage]
    exact cellLanguage_of_bound hbound
  have hnil : [] ∉ regex.language := by
    rw [hwords]
    exact nofun
  refine ⟨rfl, hsource, hsource, regex, hregex, hnil, ?_⟩
  intro heq
  rw [heq] at hnil
  exact hnil (.inr Language.nil_mem_one)

end PatternGraph
