import PatternGraph.Proofs.FiniteUnfolding
import PatternGraph.Proofs.FixedLength
import PatternGraph.Proofs.UnfoldingInvariance

/-!
# Widths are exact

The width of a pattern as a plain number is a matter of its finite unfolding: lengths, sums and
products with no limit on them. Measuring a pattern answers with that number, and it does so exactly
when there is one and every length, sum and product on the way fits 64 bits. So nothing wraps around,
an overflow anywhere leaves the whole without a width, and a pattern inside itself has no width
because it has no finite unfolding.
-/

namespace PatternGraph
set_option autoImplicit false

/-! ## Sums -/

namespace Pattern
variable {atCell : Nat → Option Nat} {elements : List Pattern} {total width : Nat}

theorem allOfWidth_iff : allOfWidth atCell width elements = true ↔
    ∀ p ∈ elements, p.widthWith atCell = some width := by
  induction elements with
  | nil => simp [allOfWidth]
  | cons p rest ih => simp [allOfWidth, ih]

theorem exists_widths_of_totalWidth (h : totalWidth atCell total elements = some width) :
    ∃ widths, List.Forall₂ (fun p n => p.widthWith atCell = some n) elements widths := by
  induction elements generalizing total with
  | nil => exact ⟨[], .nil⟩
  | cons p rest ih =>
    simp only [totalWidth, Option.bind_eq_bind, Option.bind_eq_some_iff] at h
    obtain ⟨first, hfirst, _, _, hrest⟩ := h
    obtain ⟨widths, hwidths⟩ := ih hrest
    exact ⟨first :: widths, .cons hfirst hwidths⟩

/-- The sums on the way are no larger than the last one, so that one alone decides. -/
theorem totalWidth_eq_checkedWidth {widths : List Nat}
    (each : List.Forall₂ (fun p n => p.widthWith atCell = some n) elements widths)
    (htotal : total < widthLimit) :
    totalWidth atCell total elements = checkedWidth (total + widths.sum) := by
  induction each generalizing total with
  | nil => simp [totalWidth, checkedWidth, htotal]
  | @cons p first rest widths hfirst _ ih =>
    have hstep : totalWidth atCell total (p :: rest) =
        checkedWidth (total + first) >>= fun sum => totalWidth atCell sum rest := by
      simp [totalWidth, hfirst]
    rw [hstep, List.sum_cons, ← Nat.add_assoc]
    by_cases hsum : total + first < widthLimit
    · rw [checkedWidth, if_pos hsum]
      exact ih hsum
    · have hbeyond : ¬ total + first + widths.sum < widthLimit := by omega
      rw [checkedWidth, if_neg hsum, checkedWidth, if_neg hbeyond]
      rfl

end Pattern

namespace Heap

/-- The number of characters of the finite unfolding of a pattern, where every length, sum and
product on the way `fits`. -/
inductive HasWidth (heap : Heap) (fits : Nat → Prop) : Pattern → Nat → Prop where
  | literal (tag : Tag) {text : String} (fitting : fits text.length) :
      HasWidth heap fits (.literal tag text) text.length
  | characterClass (tag : Tag) (cls : CharacterClass) :
      HasWidth heap fits (.characterClass tag cls) 1
  | alternation {tag : Tag} {elements : List Pattern} {width : Nat} (inhabited : elements ≠ [])
      (each : ∀ p ∈ elements, HasWidth heap fits p width) :
      HasWidth heap fits (.alternation tag elements) width
  | concatenation {tag : Tag} {elements : List Pattern} {widths : List Nat}
      (length : elements.length = widths.length)
      (each : ∀ p width, (p, width) ∈ elements.zip widths → HasWidth heap fits p width)
      (fitting : fits widths.sum) : HasWidth heap fits (.concatenation tag elements) widths.sum
  | repetition {tag : Tag} {inner : Pattern} {width count : Nat}
      (once : HasWidth heap fits inner width) (fitting : fits (width * count)) :
      HasWidth heap fits (.repetition tag inner count (some count)) (width * count)
  | latch {tag : Tag} {target : Pattern} {width : Nat} (through : HasWidth heap fits target width) :
      HasWidth heap fits (.latch tag target) width
  | recursion {tag : Tag} {cell width : Nat} {grammar : Pattern}
      (bound : heap.grammar cell = some grammar) (through : HasWidth heap fits grammar width) :
      HasWidth heap fits (.recursion tag cell) width

variable {heap : Heap} {p : Pattern} {n : Nat}

/-! ## Measuring -/

theorem hasWidth_of_widthWith {atCell : Nat → Option Nat}
    (cells : ∀ c n, atCell c = some n → ∀ tag, heap.HasWidth (· < widthLimit) (.recursion tag c) n)
    (p : Pattern) : ∀ n, p.widthWith atCell = some n → heap.HasWidth (· < widthLimit) p n := by
  induction p with
  | literal tag text =>
    intro n h
    obtain ⟨rfl, hfits⟩ := (checkedWidth_eq_some_iff _ _).mp h
    exact .literal tag hfits
  | characterClass tag cls =>
    intro n h
    obtain rfl : 1 = n := Option.some.inj h
    exact .characterClass tag cls
  | alternation tag elements ih =>
    intro n h
    cases elements with
    | nil => exact absurd h.symm (Option.some_ne_none n)
    | cons first rest =>
      simp only [Pattern.widthWith, Option.bind_eq_bind, Option.bind_eq_some_iff] at h
      obtain ⟨width, hfirst, hrest⟩ := h
      split at hrest
      · rename_i hagree
        obtain rfl := Option.some.inj hrest
        have hall : ∀ p ∈ first :: rest, p.widthWith atCell = some width :=
          List.forall_mem_cons.mpr ⟨hfirst, Pattern.allOfWidth_iff.mp hagree⟩
        exact .alternation (List.cons_ne_nil _ _) fun p hp => ih p hp width (hall p hp)
      · exact absurd hrest.symm (Option.some_ne_none n)
  | concatenation tag elements ih =>
    intro n h
    obtain ⟨widths, hwidths⟩ := Pattern.exists_widths_of_totalWidth h
    have hsum := (Pattern.totalWidth_eq_checkedWidth hwidths (by decide)).symm.trans h
    rw [Nat.zero_add] at hsum
    obtain ⟨rfl, hfits⟩ := (checkedWidth_eq_some_iff _ _).mp hsum
    obtain ⟨hlength, heach⟩ := List.forall₂_iff_zip.mp hwidths
    exact .concatenation hlength
      (fun p width hmem => ih p (List.of_mem_zip hmem).1 width (heach hmem)) hfits
  | repetition tag inner min max ih =>
    intro n h
    simp only [Pattern.widthWith] at h
    split at h
    · rename_i hexact
      subst max
      simp only [Option.bind_eq_bind, Option.bind_eq_some_iff] at h
      obtain ⟨width, hinner, hproduct⟩ := h
      obtain ⟨rfl, hfits⟩ := (checkedWidth_eq_some_iff _ _).mp hproduct
      exact .repetition (ih width hinner) hfits
    · exact absurd h.symm (Option.some_ne_none n)
  | latch tag target ih => exact fun n h => .latch (ih n h)
  | recursion tag cell => exact fun n h => cells cell n h tag

theorem hasWidth_of_width (h : heap.width p = some n) : heap.HasWidth (· < widthLimit) p n := by
  refine hasWidth_of_widthWith ?_ p n h
  refine Walk.atCell_induction (P := fun c (answer : Option Nat) => ∀ n, answer = some n →
      ∀ tag, heap.HasWidth (· < widthLimit) (.recursion tag c) n)
    ?onRepeat ?onUnbound ?onTree _ _
  case onRepeat | onUnbound => exact nofun
  case onTree =>
    intro c p atCell hbound hcells n hn tag
    exact .recursion hbound (hasWidth_of_widthWith hcells p n hn)

theorem width_concatenation (tag : Tag) {elements : List Pattern} {widths : List Nat}
    (each : List.Forall₂ (fun p n => heap.width p = some n) elements widths) :
    heap.width (.concatenation tag elements) = checkedWidth widths.sum := by
  have htotal := Pattern.totalWidth_eq_checkedWidth each (show 0 < widthLimit by decide)
  rwa [Nat.zero_add] at htotal

theorem width_repetition (tag : Tag) {inner : Pattern} (count : Nat)
    (h : heap.width inner = some n) :
    heap.width (.repetition tag inner count (some count)) = checkedWidth (n * count) := by
  have hproduct : heap.width (.repetition tag inner count (some count)) =
      heap.width inner >>= fun width => checkedWidth (width * count) := if_pos rfl
  rw [hproduct, h]
  rfl

theorem width_alternation (tag : Tag) {elements : List Pattern} (inhabited : elements ≠ [])
    (each : ∀ p ∈ elements, heap.width p = some n) :
    heap.width (.alternation tag elements) = some n := by
  cases elements with
  | nil => exact absurd rfl inhabited
  | cons first rest =>
    obtain ⟨hfirst, hrest⟩ := List.forall_mem_cons.mp each
    have hagree := Pattern.allOfWidth_iff.mpr hrest
    have hboth : heap.width (.alternation tag (first :: rest)) =
        heap.width first >>= fun width =>
          if Pattern.allOfWidth (widthWalk.atCell heap.grammar (heap.cells.size + 1) []) width rest
          then some width else none := rfl
    rw [hboth, hfirst]
    exact if_pos hagree

theorem HasWidth.width_eq (h : heap.HasWidth (· < widthLimit) p n) : heap.width p = some n := by
  induction h with
  | literal tag fitting => exact (checkedWidth_eq_some_iff _ _).mpr ⟨rfl, fitting⟩
  | characterClass tag cls => rfl
  | alternation inhabited _ ih => exact width_alternation _ inhabited ih
  | concatenation length _ fitting ih =>
    rw [width_concatenation _ (List.forall₂_iff_zip.mpr ⟨length, fun h => ih _ _ h⟩)]
    exact (checkedWidth_eq_some_iff _ _).mpr ⟨rfl, fitting⟩
  | repetition _ fitting ih =>
    rw [width_repetition _ _ ih]
    exact (checkedWidth_eq_some_iff _ _).mpr ⟨rfl, fitting⟩
  | latch _ ih => exact ih
  | recursion bound _ ih => exact (widthWalk_strict.atCell_eq_run bound).trans ih

/-! ## Plain numbers -/

theorem HasWidth.mono {fits fits' : Nat → Prop} (h : heap.HasWidth fits p n)
    (wider : ∀ m, fits m → fits' m) : heap.HasWidth fits' p n := by
  induction h with
  | literal tag fitting => exact .literal tag (wider _ fitting)
  | characterClass tag cls => exact .characterClass tag cls
  | alternation inhabited _ ih => exact .alternation inhabited ih
  | concatenation length _ fitting ih => exact .concatenation length ih (wider _ fitting)
  | repetition _ fitting ih => exact .repetition ih (wider _ fitting)
  | latch _ ih => exact .latch ih
  | recursion bound _ ih => exact .recursion bound ih

theorem HasWidth.unique {fits : Nat → Prop} (h : heap.HasWidth fits p n) :
    ∀ m, heap.HasWidth fits p m → m = n := by
  induction h with
  | literal tag _ =>
    intro m hm
    cases hm
    rfl
  | characterClass tag cls =>
    intro m hm
    cases hm
    rfl
  | alternation inhabited _ ih =>
    intro m hm
    cases hm with
    | alternation _ each =>
      obtain ⟨p, hp⟩ := List.exists_mem_of_ne_nil _ inhabited
      exact ih p hp m (each p hp)
  | concatenation length _ _ ih =>
    intro m hm
    cases hm with
    | concatenation lengthOther eachOther _ =>
      have hwidths := List.forall₂_iff_zip.mpr ⟨length, fun h => ih _ _ h⟩
      have hothers := List.forall₂_iff_zip.mpr ⟨lengthOther, fun h => eachOther _ _ h⟩
      rw [forall₂_unique hwidths hothers]
  | repetition _ _ ih =>
    intro m hm
    cases hm with
    | repetition once _ => rw [ih _ once]
  | latch _ ih =>
    intro m hm
    cases hm with
    | latch through => exact ih _ through
  | recursion bound _ ih =>
    intro m hm
    cases hm with
    | recursion boundOther through =>
      obtain rfl := Option.some.inj (bound.symm.trans boundOther)
      exact ih _ through

theorem HasWidth.lt_widthLimit (h : heap.HasWidth (· < widthLimit) p n) : n < widthLimit := by
  induction h with
  | literal _ fitting | concatenation _ _ fitting _ | repetition _ fitting _ => exact fitting
  | characterClass tag cls => decide
  | alternation inhabited _ ih =>
    obtain ⟨p, hp⟩ := List.exists_mem_of_ne_nil _ inhabited
    exact ih p hp
  | latch _ ih | recursion _ _ ih => exact ih

/-- A width is the one number of characters of the finite unfolding, as a plain number below 2^64,
and every word that the pattern matches has exactly that many. A pattern has a width exactly when
there is such a number and every length, sum and product on the way fits 64 bits; a sum or product
beyond them is no width. -/
theorem width_is_exact (heap : Heap) (p : Pattern) :
    (∀ n, heap.width p = some n →
      (∀ m, heap.HasWidth (fun _ => True) p m ↔ m = n) ∧ n < 2 ^ 64 ∧
        ∀ word ∈ heap.language p, word.length = n) ∧
    (∀ n, heap.width p = some n ↔ heap.HasWidth (· < 2 ^ 64) p n) ∧
    (∀ n, heap.HasWidth (fun _ => True) p n → 2 ^ 64 ≤ n → heap.width p = none) ∧
    (∀ tag elements widths, List.Forall₂ (fun p n => heap.width p = some n) elements widths →
      heap.width (.concatenation tag elements) =
        if widths.sum < 2 ^ 64 then some widths.sum else none) ∧
    ∀ tag count n, heap.width p = some n →
      heap.width (.repetition tag p count (some count)) =
        if n * count < 2 ^ 64 then some (n * count) else none := by
  have hexact : ∀ n, heap.width p = some n → heap.HasWidth (fun _ => True) p n :=
    fun n h => (hasWidth_of_width h).mono fun _ _ => trivial
  refine ⟨?_, ?_, ?_, fun tag _ _ => width_concatenation tag, fun tag count _ =>
    width_repetition tag count⟩
  · intro n h
    refine ⟨?_, (hasWidth_of_width h).lt_widthLimit, allOfLength_of_width h⟩
    intro m
    constructor
    · exact (hexact n h).unique m
    · rintro rfl
      exact hexact m h
  · exact fun n => ⟨hasWidth_of_width, HasWidth.width_eq⟩
  · intro n hn hlarge
    cases h : heap.width p with
    | none => rfl
    | some m =>
      obtain rfl := hn.unique m (hexact m h)
      exact absurd (hasWidth_of_width h).lt_widthLimit (Nat.not_lt.mpr hlarge)

/-- A cell that mentions itself, and one that is used more than once. -/
def selfAndShared : Heap where
  cells := #[{ grammar := some (.inOrder [.reference 0, .ofText "a"]) },
    { grammar := some (.ofText "ab") }]

theorem width_is_exact_shared :
    let p := Pattern.inOrder [.reference 1, .latched "again" ((Pattern.reference 1).exactly 3)]
    let large := (Pattern.reference 1).exactly maxCount
    selfAndShared.width p = some 8 ∧ (∀ word ∈ selfAndShared.language p, word.length = 8) ∧
      selfAndShared.width large = some 8589934590 ∧
      selfAndShared.width (large.exactly maxCount) = none ∧
      selfAndShared.width (.reference 0) = none := by
  intro p large
  have hp : selfAndShared.width p = some 8 := by decide
  have hlarge : selfAndShared.width large = some 8589934590 := by decide
  obtain ⟨_, _, hwords⟩ := (width_is_exact selfAndShared p).1 8 hp
  have hproduct := (width_is_exact selfAndShared large).2.2.2.2 {} maxCount _ hlarge
  exact ⟨hp, hwords, hlarge, hproduct.trans (if_neg (by decide)), by decide⟩

end Heap
end PatternGraph
