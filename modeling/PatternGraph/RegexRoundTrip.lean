import Mathlib
import PatternGraph.RegexReader

/-!
# Reading what was written

Every tree is read back from its text, so the text of a tree never joins two neighbouring parts
into something else and different trees have different texts. The proof follows the two passes:
the first turns the text of a part into the signs of that part, and the second turns these signs
into that part on top of what was read before, whatever follows. Nothing is said about texts that
are not the text of a tree.
-/

namespace PatternGraph
set_option autoImplicit false

namespace Regex

/-! ## Signs of a tree -/

/-- The sign of a character that stands for itself. -/
def charSign (c : Char) : Sign :=
  if c = '\n' ∨ c = '\r' ∨ c = '\t' ∨ isMeta c = true then .quoted c else .bare c

def itemSigns (sign : Char → Sign) : ClassItem → List Sign
  | .single c => [sign c]
  | .range first last _ => [sign first, .bare '-', sign last]

def boundsSigns (min : Nat) (max : Option Nat) : List Sign := (boundsText min max).map .bare

def suffixSigns : Option Quantifier → List Sign
  | none => []
  | some quantifier => boundsSigns quantifier.min quantifier.max

mutual
def Atom.signs : Atom → List Sign
  | .character c => [charSign c]
  | .oneOf first rest => .bare '[' :: ((first :: rest).flatMap (itemSigns charSign) ++ [.bare ']'])
  | .noneOf first rest =>
    .bare '[' :: .bare '^' :: ((first :: rest).flatMap (itemSigns .quoted) ++ [.bare ']'])
  | .group first rest => .bare '(' :: (Piece.signsAll first ++ Piece.signsRest rest ++ [.bare ')'])

def Piece.signs : Piece → List Sign
  | .mk atom quantifier => Atom.signs atom ++ suffixSigns quantifier

def Piece.signsAll : List Piece → List Sign
  | [] => []
  | piece :: rest => Piece.signs piece ++ Piece.signsAll rest

def Piece.signsRest : List (List Piece) → List Sign
  | [] => []
  | branch :: rest => .bare '|' :: (Piece.signsAll branch ++ Piece.signsRest rest)
end

/-! ## The first pass -/

/-- Whether a text has these signs, whatever follows it. -/
def Signed (text : List Char) (read : List Sign) : Prop :=
  ∀ rest, signs .outside (text ++ rest) = (signs .outside rest).map (read ++ ·)

theorem Signed.nil : Signed [] [] := by
  intro rest
  simp

theorem Signed.append {s t : List Char} {a b : List Sign} (hs : Signed s a) (ht : Signed t b) :
    Signed (s ++ t) (a ++ b) := by
  intro rest
  rw [List.append_assoc, hs, ht, Option.map_map]
  congr 1
  funext tail
  simp

theorem Signed.flatMap {α : Type} {f : α → List Char} {g : α → List Sign}
    (h : ∀ a, Signed (f a) (g a)) (items : List α) :
    Signed (items.flatMap f) (items.flatMap g) := by
  induction items with
  | nil => exact .nil
  | cons a items ih => simpa using (h a).append ih

theorem signed_bare {c : Char} (h : c ≠ '\\') : Signed [c] [.bare c] := by
  intro rest
  simp [signs, h]

theorem signed_bares {text : List Char} (h : '\\' ∉ text) : Signed text (text.map .bare) := by
  induction text with
  | nil => exact .nil
  | cons c text ih =>
    rw [List.mem_cons, not_or] at h
    simpa using (signed_bare (Ne.symm h.1)).append (ih h.2)

theorem not_isMeta_of_letter : isMeta 'n' = false ∧ isMeta 'r' = false ∧ isMeta 't' = false ∧
    isMeta 'x' = false := by decide

theorem signed_escape (c : Char) : Signed (escape c) [charSign c] := by
  intro rest
  unfold escape charSign
  by_cases hn : c = '\n'
  · subst hn
    cases hr : signs .outside rest <;> simp [signs, escaped?, hr]
  by_cases hr : c = '\r'
  · subst hr
    cases hr : signs .outside rest <;> simp [signs, escaped?, hr]
  by_cases ht : c = '\t'
  · subst ht
    cases hr : signs .outside rest <;> simp [signs, escaped?, hr]
  by_cases hm : isMeta c = true
  · obtain ⟨ln, lr, lt, lx⟩ := not_isMeta_of_letter
    have hcn : c ≠ 'n' := by rintro rfl; simp [hm] at ln
    have hcr : c ≠ 'r' := by rintro rfl; simp [hm] at lr
    have hct : c ≠ 't' := by rintro rfl; simp [hm] at lt
    have hcx : c ≠ 'x' := by rintro rfl; simp [hm] at lx
    cases hs : signs .outside rest <;>
      simp [hn, hr, ht, hm, signs, escaped?, hcn, hcr, hct, hcx, hs]
  · have hc : c ≠ '\\' := by rintro rfl; exact hm (by decide)
    simp [hn, hr, ht, hm, signs, hc]

theorem hexValue?_digit : ∀ d, d < 16 → hexValue? (Nat.digitChar d).toUpper = some d ∧
    (Nat.digitChar d).toUpper ≠ '\x7d' := by decide

theorem signs_digit {d : Nat} (hd : d < 16) (value : Option Nat) (rest : List Char) :
    signs (.digits value) ((Nat.digitChar d).toUpper :: rest) =
      signs (.digits (some (appendDigit 16 value d))) rest := by
  obtain ⟨hv, hb⟩ := hexValue?_digit d hd
  simp [signs, hv, hb]

/-- Reading the digits of a number, highest first, gives the number. -/
theorem signs_hexDigits (n : Nat) : ∀ rest : List Char,
    signs (.digits none) ((Nat.toDigits 16 n).map Char.toUpper ++ rest) =
      signs (.digits (some n)) rest := by
  induction n using Nat.strong_induction_on with
  | _ n ih =>
    intro rest
    rw [Nat.toDigits_eq_if (by decide)]
    split
    · rename_i h
      simpa [appendDigit] using signs_digit h none rest
    · rename_i h
      rw [List.map_append, List.append_assoc, ih (n / 16) (by omega)]
      have hd := signs_digit (Nat.mod_lt n (by decide : 16 > 0)) (some (n / 16)) rest
      have hn : appendDigit 16 (some (n / 16)) (n % 16) = n := by
        simp only [appendDigit, Option.getD_some]
        omega
      rw [hn] at hd
      exact hd

theorem signed_codePoint (c : Char) : Signed (codePoint c) [.quoted c] := by
  intro rest
  have hc : c.toNat.isValidChar := c.valid
  have hv : charOfCode? c.toNat = some c := by simp [charOfCode?, hc]
  have h := signs_hexDigits c.toNat ('\x7d' :: rest)
  simp only [codePoint, List.cons_append, List.append_assoc, List.nil_append]
  cases hs : signs .outside rest <;> simp [signs, h, hv, hs]

theorem signed_item {spell : Char → List Char} {sign : Char → Sign}
    (h : ∀ c, Signed (spell c) [sign c]) (item : ClassItem) :
    Signed (itemText spell item) (itemSigns sign item) := by
  cases item with
  | single c => exact h c
  | range first last ordered =>
    exact (h first).append ((signed_bare (by decide : '-' ≠ '\\')).append (h last))

theorem backslash_not_mem_toDigits (n : Nat) : '\\' ∉ Nat.toDigits 10 n := by
  intro h
  have hd := Nat.isDigit_of_mem_toDigits (by decide) (by decide) h
  simp at hd

theorem signed_bounds (min : Nat) (max : Option Nat) :
    Signed (boundsText min max) (boundsSigns min max) := by
  refine signed_bares ?_
  have hdigits := backslash_not_mem_toDigits
  unfold boundsText
  repeat' split
  all_goals simp [hdigits]

theorem signed_suffix (quantifier : Option Quantifier) :
    Signed (suffixText quantifier) (suffixSigns quantifier) := by
  cases quantifier with
  | none => exact .nil
  | some quantifier => exact signed_bounds quantifier.min quantifier.max

mutual
theorem Atom.signed : ∀ atom : Atom, Signed atom.chars atom.signs
  | .character c => by simpa only [Atom.chars, Atom.signs] using signed_escape c
  | .oneOf first rest => by
    have h := ((signed_bare (by decide : '[' ≠ '\\')).append
      (Signed.flatMap (signed_item signed_escape) (first :: rest))).append
        (signed_bare (by decide : ']' ≠ '\\'))
    simpa [Atom.chars, Atom.signs, bracketText] using h
  | .noneOf first rest => by
    have h := (((signed_bare (by decide : '[' ≠ '\\')).append
      (signed_bare (by decide : '^' ≠ '\\'))).append
        (Signed.flatMap (signed_item signed_codePoint) (first :: rest))).append
          (signed_bare (by decide : ']' ≠ '\\'))
    simpa [Atom.chars, Atom.signs, bracketText] using h
  | .group first rest => by
    have h := (((signed_bare (by decide : '(' ≠ '\\')).append (Piece.signedAll first)).append
      (Piece.signedRest rest)).append (signed_bare (by decide : ')' ≠ '\\'))
    simpa [Atom.chars, Atom.signs] using h

theorem Piece.signed : ∀ piece : Piece, Signed piece.chars piece.signs
  | .mk atom quantifier => by
    simpa only [Piece.chars, Piece.signs] using (Atom.signed atom).append (signed_suffix quantifier)

theorem Piece.signedAll : ∀ pieces : List Piece, Signed (Piece.charsAll pieces) (Piece.signsAll pieces)
  | [] => by simpa only [Piece.charsAll, Piece.signsAll] using Signed.nil
  | piece :: rest => by
    simpa only [Piece.charsAll, Piece.signsAll] using (Piece.signed piece).append (Piece.signedAll rest)

theorem Piece.signedRest : ∀ branches : List (List Piece),
    Signed (Piece.charsRest branches) (Piece.signsRest branches)
  | [] => by simpa only [Piece.charsRest, Piece.signsRest] using Signed.nil
  | branch :: rest => by
    have h := ((signed_bare (by decide : '|' ≠ '\\')).append (Piece.signedAll branch)).append
      (Piece.signedRest rest)
    simpa [Piece.charsRest, Piece.signsRest] using h
end

/-! ## The second pass -/

/-- The state after some more signs. -/
def run (state : ReaderState) (read : List Sign) : Option ReaderState :=
  read.foldlM ReaderState.step state

theorem run_nil (state : ReaderState) : run state [] = some state := rfl

theorem run_cons (state : ReaderState) (sign : Sign) (read : List Sign) :
    run state (sign :: read) = (state.step sign).bind (run · read) := rfl

theorem run_single (state : ReaderState) (sign : Sign) : run state [sign] = state.step sign := by
  rw [run_cons]
  cases state.step sign <;> rfl

theorem run_append {state next : ReaderState} {a : List Sign} (h : run state a = some next)
    (b : List Sign) : run state (a ++ b) = run next b := by
  unfold run at *
  rw [List.foldlM_append, h]
  rfl

theorem literal?_charSign (c : Char) : (charSign c).literal? = some c := by
  unfold charSign
  split
  · rfl
  · rename_i h
    have hm : isMeta c = false := by
      simp only [not_or, Bool.not_eq_true] at h
      exact h.2.2.2
    simp [Sign.literal?, hm]

/-- A sign that stands for a character is no sign with a meaning. -/
theorem ne_bare_of_literal? {sign : Sign} {c d : Char} (h : sign.literal? = some c)
    (hd : isMeta d = true) : sign ≠ .bare d := by
  rintro rfl
  simp [Sign.literal?, hd] at h

theorem step_character {level : Level} {outer : List Level} {sign : Sign} {c : Char}
    (h : sign.literal? = some c) :
    ReaderState.step ⟨.branch, level, outer⟩ sign =
      some ⟨.branch, level.push (Atom.character c).once, outer⟩ := by
  have hne := fun d hd => ne_bare_of_literal? (d := d) h hd
  have h1 := hne '(' (by decide)
  have h2 := hne ')' (by decide)
  have h3 := hne '|' (by decide)
  have h4 := hne '[' (by decide)
  have h5 := hne '\x7b' (by decide)
  have h6 := hne '?' (by decide)
  have h7 := hne '*' (by decide)
  have h8 := hne '+' (by decide)
  simp only [ReaderState.step, ReaderState.stepBranch]
  simp [h, ReaderState.push]

theorem step_items {negated : Bool} {items : List ClassItem} {level : Level} {outer : List Level}
    {sign : Sign} {c : Char} (h : sign.literal? = some c) :
    ReaderState.step ⟨.items negated items, level, outer⟩ sign =
      some ⟨.items negated (.single c :: items), level, outer⟩ := by
  have h1 := ne_bare_of_literal? (d := ']') h (by decide)
  have h2 := ne_bare_of_literal? (d := '-') h (by decide)
  simp only [ReaderState.step, ReaderState.stepItems]
  simp [h]

theorem step_bracket {level : Level} {outer : List Level} {sign : Sign} {c : Char}
    (h : sign.literal? = some c) :
    ReaderState.step ⟨.bracket, level, outer⟩ sign =
      ReaderState.step ⟨.items false [], level, outer⟩ sign := by
  have h0 := ne_bare_of_literal? (d := '^') h (by decide)
  have h1 := ne_bare_of_literal? (d := ']') h (by decide)
  have h2 := ne_bare_of_literal? (d := '-') h (by decide)
  simp only [ReaderState.step, ReaderState.stepItems]
  simp [h0, h]

theorem run_item {sign : Char → Sign} (hsign : ∀ c, (sign c).literal? = some c) (negated : Bool)
    (items : List ClassItem) (level : Level) (outer : List Level) (item : ClassItem) :
    run ⟨.items negated items, level, outer⟩ (itemSigns sign item) =
      some ⟨.items negated (item :: items), level, outer⟩ := by
  cases item with
  | single c => simp [itemSigns, run_cons, run_nil, step_items (hsign c)]
  | range first last ordered =>
    rw [itemSigns, run_cons, step_items (hsign first)]
    simp [run_cons, run_nil, ReaderState.step, ReaderState.stepItems, ReaderState.stepRange,
      hsign, ordered]

theorem run_items {sign : Char → Sign} (hsign : ∀ c, (sign c).literal? = some c) (negated : Bool)
    (level : Level) (outer : List Level) (more : List ClassItem) : ∀ items : List ClassItem,
    run ⟨.items negated items, level, outer⟩ (more.flatMap (itemSigns sign)) =
      some ⟨.items negated (more.reverse ++ items), level, outer⟩ := by
  induction more with
  | nil => intro items; simp [run_nil]
  | cons item more ih =>
    intro items
    rw [List.flatMap_cons, run_append (run_item hsign negated items level outer item), ih]
    simp

theorem step_closeBrackets (negated : Bool) (level : Level) (outer : List Level)
    (first : ClassItem) (rest : List ClassItem) :
    ReaderState.step ⟨.items negated (first :: rest).reverse, level, outer⟩ (.bare ']') =
      some ⟨.branch, level.push
        (if negated then Atom.noneOf first rest else Atom.oneOf first rest).once, outer⟩ := by
  simp [ReaderState.step, ReaderState.stepItems, ReaderState.closeBrackets, ReaderState.push]

theorem run_bracketed {sign : Char → Sign} (hsign : ∀ c, (sign c).literal? = some c)
    (negated : Bool) (level : Level) (outer : List Level) (first : ClassItem)
    (rest : List ClassItem) :
    run ⟨.items negated [], level, outer⟩
        ((first :: rest).flatMap (itemSigns sign) ++ [.bare ']']) =
      some ⟨.branch, level.push
        (if negated then Atom.noneOf first rest else Atom.oneOf first rest).once, outer⟩ := by
  have h := run_items hsign negated level outer (first :: rest) []
  rw [List.append_nil] at h
  rw [run_append h, run_cons, step_closeBrackets]
  rfl

theorem run_bracket (level : Level) (outer : List Level) (first : ClassItem)
    (read : List Sign) :
    run ⟨.bracket, level, outer⟩ (itemSigns charSign first ++ read) =
      run ⟨.items false [], level, outer⟩ (itemSigns charSign first ++ read) := by
  cases first with
  | single c =>
    simp only [itemSigns, List.cons_append, run_cons]
    rw [step_bracket (literal?_charSign c)]
  | range low high ordered =>
    simp only [itemSigns, List.cons_append, run_cons]
    rw [step_bracket (literal?_charSign low)]

theorem quantify_once (place : Place) (level : Level) (outer : List Level) (atom : Atom)
    (quantifier : Quantifier) :
    ReaderState.quantify ⟨place, level.push atom.once, outer⟩ quantifier.min quantifier.max =
      some ⟨.branch, level.push (atom.repeated quantifier), outer⟩ := by
  simp [ReaderState.quantify, quantifier.ordered, Level.quantify, Level.push, Atom.once]

theorem decimalValue?_digit : ∀ d, d < 10 → decimalValue? (Nat.digitChar d) = some d := by decide

/-- Reading decimal digits, highest first, with a step that appends a digit. -/
theorem run_decimal (place : Option Nat → Place) {level : Level} {outer : List Level}
    (hstep : ∀ value d, d < 10 →
      ReaderState.step ⟨place value, level, outer⟩ (.bare (Nat.digitChar d)) =
        some ⟨place (some (appendDigit 10 value d)), level, outer⟩) (n : Nat) :
    run ⟨place none, level, outer⟩ ((Nat.toDigits 10 n).map .bare) =
      some ⟨place (some n), level, outer⟩ := by
  induction n using Nat.strong_induction_on with
  | _ n ih =>
    rw [Nat.toDigits_eq_if (by decide)]
    split
    · rename_i h
      rw [List.map_singleton, run_cons, hstep none n h]
      simp [run_nil, appendDigit]
    · rename_i h
      rw [List.map_append, run_append (ih (n / 10) (by omega)), List.map_singleton, run_cons,
        hstep _ _ (Nat.mod_lt n (by decide))]
      have hn : appendDigit 10 (some (n / 10)) (n % 10) = n := by
        simp only [appendDigit, Option.getD_some]
        omega
      rw [hn]
      rfl

theorem run_lower (level : Level) (outer : List Level) (n : Nat) :
    run ⟨.lower none, level, outer⟩ ((Nat.toDigits 10 n).map .bare) =
      some ⟨.lower (some n), level, outer⟩ := by
  refine run_decimal .lower ?_ n
  intro value d hd
  simp [ReaderState.step, ReaderState.stepLower, decimalValue?_digit d hd]

theorem run_upper (min : Nat) (level : Level) (outer : List Level) (n : Nat) :
    run ⟨.upper min none, level, outer⟩ ((Nat.toDigits 10 n).map .bare) =
      some ⟨.upper min (some n), level, outer⟩ := by
  refine run_decimal (.upper min) ?_ n
  intro value d hd
  simp [ReaderState.step, ReaderState.stepUpper, decimalValue?_digit d hd]

/-- Braces with one number. -/
theorem run_exact (level : Level) (outer : List Level) (n : Nat) (read : List Sign) :
    run ⟨.branch, level, outer⟩
        (.bare '\x7b' :: ((Nat.toDigits 10 n).map .bare ++ .bare '\x7d' :: read)) =
      (ReaderState.quantify ⟨.lower (some n), level, outer⟩ n (some n)).bind (run · read) := by
  rw [run_cons]
  show run ⟨.lower none, level, outer⟩ _ = _
  rw [run_append (run_lower level outer n), run_cons]
  rfl

/-- Braces with a comma, up to what follows it. -/
theorem run_comma (level : Level) (outer : List Level) (n : Nat) (read : List Sign) :
    run ⟨.branch, level, outer⟩
        (.bare '\x7b' :: ((Nat.toDigits 10 n).map .bare ++ .bare ',' :: read)) =
      run ⟨.upper n none, level, outer⟩ read := by
  rw [run_cons]
  show run ⟨.lower none, level, outer⟩ _ = _
  rw [run_append (run_lower level outer n), run_cons]
  rfl

theorem run_upperEnd (min : Nat) (max : Option Nat) (level : Level) (outer : List Level)
    (read : List Sign) :
    run ⟨.upper min max, level, outer⟩ (.bare '\x7d' :: read) =
      (ReaderState.quantify ⟨.upper min max, level, outer⟩ min max).bind (run · read) := rfl

/-- The text of bounds puts them on the piece before it. -/
theorem run_bounds (level : Level) (outer : List Level) (atom : Atom) (quantifier : Quantifier) :
    run ⟨.branch, level.push atom.once, outer⟩ (boundsSigns quantifier.min quantifier.max) =
      some ⟨.branch, level.push (atom.repeated quantifier), outer⟩ := by
  have hq := fun place => quantify_once place level outer atom quantifier
  generalize quantifier.min = min at hq ⊢
  generalize quantifier.max = max at hq ⊢
  generalize level.push atom.once = current at hq ⊢
  unfold boundsSigns boundsText
  split
  · exact (run_single _ _).trans (hq .branch)
  · exact (run_single _ _).trans (hq .branch)
  · exact (run_single _ _).trans (hq .branch)
  · simp only [List.map_cons, List.map_append, List.map_nil]
    rw [run_comma, run_upperEnd, hq]
    rfl
  · rename_i most _
    split
    · rename_i heq
      subst heq
      simp only [List.map_cons, List.map_append, List.map_nil]
      rw [run_exact, hq]
      rfl
    · simp only [List.map_cons, List.map_append, List.map_nil]
      rw [run_comma, run_append (run_upper min current outer most), run_upperEnd, hq]
      rfl

theorem run_suffix (level : Level) (outer : List Level) (atom : Atom) :
    ∀ quantifier : Option Quantifier,
      run ⟨.branch, level.push atom.once, outer⟩ (suffixSigns quantifier) =
        some ⟨.branch, level.push (.mk atom quantifier), outer⟩
  | none => rfl
  | some quantifier => run_bounds level outer atom quantifier

/-- A level after further branches, each begun by a bar. -/
def Level.bars (level : Level) : List Branch → Level
  | [] => level
  | branch :: rest =>
    Level.bars { finished := level.current.reverse :: level.finished, current := branch.reverse } rest

theorem Level.close_eq (level : Level) (first : Branch) (rest : List Branch)
    (h : level.finished.reverse ++ [level.current.reverse] = first :: rest) :
    level.close = ⟨first, rest⟩ := by
  unfold Level.close
  split
  · rename_i hf
    rw [hf] at h
    simp only [List.nil_append, List.cons.injEq] at h
    obtain ⟨rfl, rfl⟩ := h
    rfl
  · rename_i hf
    rw [hf] at h
    simp only [List.cons_append, List.cons.injEq] at h
    obtain ⟨rfl, rfl⟩ := h
    rfl

theorem Level.bars_branches (more : List Branch) : ∀ level : Level,
    (level.bars more).finished.reverse ++ [(level.bars more).current.reverse] =
      level.finished.reverse ++ level.current.reverse :: more := by
  induction more with
  | nil => intro level; rfl
  | cons branch more ih =>
    intro level
    rw [Level.bars, ih]
    simp

theorem Level.close_bars (first : Branch) (rest : List Branch) :
    (Level.bars { current := first.reverse } rest).close = ⟨first, rest⟩ := by
  refine Level.close_eq _ first rest ?_
  rw [Level.bars_branches]
  simp

mutual
theorem Atom.run_signs (level : Level) (outer : List Level) : ∀ atom : Atom,
    run ⟨.branch, level, outer⟩ atom.signs = some ⟨.branch, level.push atom.once, outer⟩
  | .character c => by
    rw [Atom.signs, run_cons, step_character (literal?_charSign c)]
    rfl
  | .oneOf first rest => by
    rw [Atom.signs, run_cons]
    show run ⟨.bracket, level, outer⟩ _ = _
    have h := run_bracketed literal?_charSign false level outer first rest
    rw [List.flatMap_cons, List.append_assoc] at h ⊢
    rw [run_bracket, h]
    rfl
  | .noneOf first rest => by
    rw [Atom.signs, run_cons]
    show run ⟨.bracket, level, outer⟩ _ = _
    rw [run_cons]
    show run ⟨.items true [], level, outer⟩ _ = _
    rw [run_bracketed (fun _ => rfl) true level outer first rest]
    rfl
  | .group first rest => by
    rw [Atom.signs, run_cons]
    show run ⟨.branch, {}, level :: outer⟩ _ = _
    rw [List.append_assoc, run_append (Piece.run_signsAll {} (level :: outer) first),
      run_append (Piece.run_signsRest _ (level :: outer) rest), run_cons]
    have h := Level.close_bars first rest
    simp only [List.append_nil] at h ⊢
    simp only [ReaderState.step, ReaderState.stepBranch]
    rw [h]
    rfl

theorem Piece.run_signs (level : Level) (outer : List Level) : ∀ piece : Piece,
    run ⟨.branch, level, outer⟩ piece.signs = some ⟨.branch, level.push piece, outer⟩
  | .mk atom quantifier => by
    rw [Piece.signs, run_append (Atom.run_signs level outer atom), run_suffix]

theorem Piece.run_signsAll (level : Level) (outer : List Level) : ∀ pieces : List Piece,
    run ⟨.branch, level, outer⟩ (Piece.signsAll pieces) =
      some ⟨.branch, { level with current := pieces.reverse ++ level.current }, outer⟩
  | [] => rfl
  | piece :: rest => by
    rw [Piece.signsAll, run_append (Piece.run_signs level outer piece), Piece.run_signsAll]
    simp [Level.push]

theorem Piece.run_signsRest (level : Level) (outer : List Level) : ∀ branches : List (List Piece),
    run ⟨.branch, level, outer⟩ (Piece.signsRest branches) =
      some ⟨.branch, level.bars branches, outer⟩
  | [] => rfl
  | branch :: rest => by
    rw [Piece.signsRest, run_cons]
    show run ⟨.branch, level.bar, outer⟩ _ = _
    rw [run_append (Piece.run_signsAll _ outer branch), Piece.run_signsRest]
    simp [Level.bar, Level.bars]
end

/-- Reading the text of a tree gives the tree. -/
theorem ofText?_text (regex : Regex) : ofText? regex.text = some regex := by
  have hsigned := (Piece.signedAll regex.first).append (Piece.signedRest regex.rest)
  have hsigns : signs .outside regex.chars =
      some (Piece.signsAll regex.first ++ Piece.signsRest regex.rest) := by
    have h := hsigned []
    rw [List.append_nil] at h
    rw [chars, h]
    simp [signs]
  have hrun : run {} (Piece.signsAll regex.first ++ Piece.signsRest regex.rest) =
      some ⟨.branch, Level.bars { current := regex.first.reverse } regex.rest, []⟩ := by
    have h := Piece.run_signsAll {} [] regex.first
    rw [List.append_nil] at h
    rw [run_append h, Piece.run_signsRest]
  have hclose := Level.close_bars regex.first regex.rest
  rw [ofText?, toList_text, ofChars?, hsigns]
  show (run {} _).bind ReaderState.finish? = _
  rw [hrun]
  simp [ReaderState.finish?, hclose]

theorem text_injective {a b : Regex} (h : a.text = b.text) : a = b := by
  have ha := ofText?_text a
  rw [h, ofText?_text b] at ha
  exact (Option.some.inj ha).symm

end Regex
end PatternGraph
