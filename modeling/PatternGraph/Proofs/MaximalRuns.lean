import Mathlib.Data.List.Forall2
import Mathlib.Data.List.Pairwise
import Mathlib.Data.List.Sort
import PatternGraph.Proofs.ClassDenotation

/-!
# Maximal runs

What removal leaves of a class depends on the removed characters alone, not on the items that they
are given by. In the place of each range it leaves the maximal runs of the characters that remain.
Items are cut out one after another, and each cut splits what the cuts before it have left; the
pieces of one range always cover what remains of it, and any two of them have a character between
them that does not remain. Such pieces can only be the maximal runs. No character lies in the
surrogate gap, so a run goes from U+D7FF on to U+E000.
-/

namespace PatternGraph
set_option autoImplicit false

/-- All characters from `first` to `last` are in the set, and those of no longer stretch are. -/
structure MaximalRun (characters : Set Char) (first last : Char) : Prop where
  ordered : first ≤ last
  within : ∀ c, first ≤ c → c ≤ last → c ∈ characters
  maximal : ∀ earlier later, earlier ≤ first → last ≤ later →
    (∀ c, earlier ≤ c → c ≤ later → c ∈ characters) → earlier = first ∧ later = last

namespace ClassItem

/-- All characters of the first item come before those of the second. -/
def Before (left right : ClassItem) : Prop := left.highest < right.lowest

theorem Before.lowest_lt {left right : ClassItem} (h : left.Before right) :
    left.lowest < right.lowest :=
  Nat.lt_of_le_of_lt left.lowest_le_highest h

instance : Std.Irrefl Before where
  irrefl _ h := Nat.lt_irrefl _ h.lowest_lt

instance : Std.Antisymm Before where
  antisymm _ _ h k := absurd (Nat.lt_trans h.lowest_lt k.lowest_lt) (Nat.lt_irrefl _)

/-- What stands in the place of an item once a set of characters is removed. -/
inductive Residue (removed : Set Char) : ClassItem → List ClassItem → Prop where
  | kept {c : Char} (outside : c ∉ removed) : Residue removed (.single c) [.single c]
  | dropped {c : Char} (inside : c ∈ removed) : Residue removed (.single c) []
  | runs {first last : Char} {ordered : first ≤ last} {runs : List ClassItem}
      (increasing : runs.Pairwise Before)
      (maximal : ∀ item, item ∈ runs ↔ ∃ (start stop : Char)
        (run : MaximalRun {c | first ≤ c ∧ c ≤ last ∧ c ∉ removed} start stop),
        item = .range start stop run.ordered) :
      Residue removed (.range first last ordered) runs

theorem Residue.unique {removed : Set Char} {item : ClassItem} {left other : List ClassItem}
    (h : Residue removed item left) (k : Residue removed item other) : left = other := by
  cases h with
  | kept outside =>
    cases k with
    | kept _ => rfl
    | dropped inside => exact absurd inside outside
  | dropped inside =>
    cases k with
    | kept outside => exact absurd inside outside
    | dropped _ => rfl
  | runs increasing maximal =>
    cases k with
    | runs increasing' maximal' =>
      apply increasing.eq_of_mem_iff increasing'
      intro run
      rw [maximal, maximal']

theorem includes_lowest (item : ClassItem) : item.includes item.lowest = true :=
  (includes_iff item _).mpr ⟨Nat.le_refl _, item.lowest_le_highest⟩

theorem includes_highest (item : ClassItem) : item.includes item.highest = true :=
  (includes_iff item _).mpr ⟨item.lowest_le_highest, Nat.le_refl _⟩

/-! ## One cut -/

theorem isRange_of_mem_without {cut piece : ClassItem} {first last : Char}
    {ordered : first ≤ last} (h : piece ∈ cut.without (.range first last ordered)) :
    ∃ start stop between, piece = .range start stop between := by
  unfold without upTo beyond at h
  grind

theorem within_of_mem_without {cut item piece : ClassItem} (h : piece ∈ cut.without item) :
    item.lowest ≤ piece.lowest ∧ piece.highest ≤ item.highest := by
  have hincluded : ∀ c, piece.includes c = true → item.includes c = true := by
    intro c hc
    exact ((any_includes_without cut item c).mp (List.any_eq_true.mpr ⟨piece, h, hc⟩)).1
  exact ⟨((includes_iff item _).mp (hincluded _ piece.includes_lowest)).1,
    ((includes_iff item _).mp (hincluded _ piece.includes_highest)).2⟩

theorem highest_lt_of_mem_upTo {first bound : Char} {piece : ClassItem}
    (h : piece ∈ upTo first bound) : piece.highest < bound :=
  ((any_includes_upTo first bound _).mp
    (List.any_eq_true.mpr ⟨piece, h, piece.includes_highest⟩)).2

theorem lt_lowest_of_mem_beyond {bound last : Char} {piece : ClassItem}
    (h : piece ∈ beyond bound last) : bound < piece.lowest :=
  ((any_includes_beyond bound last _).mp
    (List.any_eq_true.mpr ⟨piece, h, piece.includes_lowest⟩)).1

/-- Of the two pieces that a cut leaves of a range, the cut lies between them. -/
theorem pairwise_without (cut item : ClassItem) : (cut.without item).Pairwise fun left right =>
    ∃ c, cut.includes c = true ∧ left.highest < c ∧ c < right.lowest := by
  cases item with
  | single c =>
    simp only [without]
    split <;> simp
  | range first last ordered =>
    simp only [without]
    split
    · simp
    · rw [List.pairwise_append]
      refine ⟨?_, ?_, ?_⟩
      · unfold upTo
        split <;> simp
      · unfold beyond
        split <;> simp
      · intro left hleft right hright
        refine ⟨cut.lowest, cut.includes_lowest, highest_lt_of_mem_upTo hleft, ?_⟩
        exact Nat.lt_of_le_of_lt cut.lowest_le_highest (lt_lowest_of_mem_beyond hright)

/-! ## Cuts in turn -/

/-- The pieces that are left of others once each cut has been taken out. -/
def cutOut (cuts pieces : List ClassItem) : List ClassItem :=
  cuts.foldl (fun pieces cut => pieces.flatMap cut.without) pieces

/-- What is left of several pieces is what is left of each, in the same order. -/
theorem cutOut_eq_flatMap (cuts pieces : List ClassItem) :
    cutOut cuts pieces = pieces.flatMap fun item => cutOut cuts [item] := by
  induction cuts generalizing pieces with
  | nil => simp [cutOut]
  | cons cut rest ih =>
    have hstep : ∀ pieces, cutOut (cut :: rest) pieces =
        (pieces.flatMap cut.without).flatMap fun item => cutOut rest [item] :=
      fun pieces => ih (pieces.flatMap cut.without)
    simp only [hstep, List.flatMap_assoc, List.flatMap_singleton]

end ClassItem

/-- Between the first item and the second one lies a character outside the set. -/
def ClassItem.Apart (characters : Set Char) (left right : ClassItem) : Prop :=
  ∃ c, c ∉ characters ∧ left.highest < c ∧ c < right.lowest

/-- Ranges in order that cover exactly the characters of the set, any two of them apart. -/
structure RunsOver (characters : Set Char) (runs : List ClassItem) : Prop where
  ranges : ∀ item ∈ runs, ∃ first last ordered, item = .range first last ordered
  covers : ∀ c, c ∈ characters ↔ ∃ item ∈ runs, item.includes c = true
  apart : runs.Pairwise (ClassItem.Apart characters)

namespace RunsOver
variable {characters : Set Char} {runs : List ClassItem}

theorem single_range {first last : Char} (ordered : first ≤ last) :
    RunsOver {c | first ≤ c ∧ c ≤ last} [.range first last ordered] where
  ranges item hitem := ⟨first, last, ordered, List.mem_singleton.mp hitem⟩
  covers c := by simp [ClassItem.includes_iff, ClassItem.lowest, ClassItem.highest]
  apart := List.pairwise_singleton _ _

theorem without (h : RunsOver characters runs) (cut : ClassItem) :
    RunsOver {c | c ∈ characters ∧ ¬ cut.includes c = true} (runs.flatMap cut.without) where
  ranges := by
    intro piece hpiece
    obtain ⟨item, hitem, hmem⟩ := List.mem_flatMap.mp hpiece
    obtain ⟨first, last, ordered, rfl⟩ := h.ranges item hitem
    exact ClassItem.isRange_of_mem_without hmem
  covers := by
    intro c
    have hpieces : (∃ piece ∈ runs.flatMap cut.without, piece.includes c = true) ↔
        ∃ item ∈ runs, item.includes c = true ∧ ¬ cut.includes c = true := by
      simp only [← List.any_eq_true, List.any_flatMap, ← ClassItem.any_includes_without]
    rw [hpieces]
    constructor
    · rintro ⟨hc, houtside⟩
      obtain ⟨item, hitem, hincludes⟩ := (h.covers c).mp hc
      exact ⟨item, hitem, hincludes, houtside⟩
    · rintro ⟨item, hitem, hincludes, houtside⟩
      exact ⟨(h.covers c).mpr ⟨item, hitem, hincludes⟩, houtside⟩
  apart := by
    apply List.pairwise_flatMap.mpr
    constructor
    · intro item _
      apply (ClassItem.pairwise_without cut item).imp
      rintro left right ⟨c, hcut, hbetween⟩
      exact ⟨c, fun hc => hc.2 hcut, hbetween⟩
    · apply h.apart.imp
      rintro item other ⟨c, hc, hafter, hbefore⟩ left hleft right hright
      obtain ⟨_, hhighest⟩ := ClassItem.within_of_mem_without hleft
      obtain ⟨hlowest, _⟩ := ClassItem.within_of_mem_without hright
      exact ⟨c, fun hremains => hc hremains.1, Nat.lt_of_le_of_lt hhighest hafter,
        Nat.lt_of_lt_of_le hbefore hlowest⟩

theorem cutOut (h : RunsOver characters runs) (cuts : List ClassItem) :
    RunsOver {c | c ∈ characters ∧ ¬ ∃ cut ∈ cuts, cut.includes c = true}
      (ClassItem.cutOut cuts runs) := by
  induction cuts generalizing characters runs with
  | nil => simpa [ClassItem.cutOut] using h
  | cons cut rest ih =>
    have hrest := ih (h.without cut)
    have hset : {c | c ∈ characters ∧ ¬ ∃ cut' ∈ cut :: rest, cut'.includes c = true} =
        {c | c ∈ {c | c ∈ characters ∧ ¬ cut.includes c = true} ∧
          ¬ ∃ cut' ∈ rest, cut'.includes c = true} := by
      ext c
      simp [and_assoc]
    rw [hset]
    exact hrest

theorem eq_or_apart (h : RunsOver characters runs) {item other : ClassItem} (hitem : item ∈ runs)
    (hother : other ∈ runs) :
    item = other ∨ item.Apart characters other ∨ other.Apart characters item := by
  let either (left right : ClassItem) : Prop :=
    left.Apart characters right ∨ right.Apart characters left
  have symmetric : Std.Symm either := ⟨fun _ _ => Or.symm⟩
  have hboth : runs.Pairwise either := h.apart.imp Or.inl
  by_cases hsame : item = other
  · exact Or.inl hsame
  · exact Or.inr (hboth.forall hitem hother hsame)

/-- A stretch of characters of the set lies within one of the runs. -/
theorem exists_run_of_stretch (h : RunsOver characters runs) {start stop : Char}
    (hordered : start ≤ stop) (hwithin : ∀ c, start ≤ c → c ≤ stop → c ∈ characters) :
    ∃ item ∈ runs, item.lowest ≤ start ∧ stop ≤ item.highest := by
  obtain ⟨item, hitem, hstart⟩ := (h.covers start).mp (hwithin start (Nat.le_refl _) hordered)
  obtain ⟨other, hother, hstop⟩ := (h.covers stop).mp (hwithin stop hordered (Nat.le_refl _))
  rw [ClassItem.includes_iff] at hstart hstop
  rcases h.eq_or_apart hitem hother with rfl | ⟨c, hc, hafter, hbefore⟩ | ⟨c, _, hafter, hbefore⟩
  · exact ⟨item, hitem, hstart.1, hstop.2⟩
  · refine absurd (hwithin c ?_ ?_) hc
    · simp only [char_le_iff, char_lt_iff] at *
      omega
    · simp only [char_le_iff, char_lt_iff] at *
      omega
  · simp only [char_le_iff, char_lt_iff] at *
    omega

theorem maximalRun (h : RunsOver characters runs) {first last : Char} {ordered : first ≤ last}
    (hmem : .range first last ordered ∈ runs) : MaximalRun characters first last where
  ordered := ordered
  within c hfirst hlast :=
    (h.covers c).mpr ⟨_, hmem, (ClassItem.includes_iff _ c).mpr ⟨hfirst, hlast⟩⟩
  maximal := by
    intro earlier later hearlier hlater hwithin
    have hspan : first ≤ last := ordered
    have hstretch : earlier ≤ later := Nat.le_trans (Nat.le_trans hearlier hspan) hlater
    obtain ⟨other, hother, hlowest, hhighest⟩ := h.exists_run_of_stretch hstretch hwithin
    rcases h.eq_or_apart hmem hother with rfl | ⟨c, _, hafter, hbefore⟩ | ⟨c, _, hafter, hbefore⟩
    · exact ⟨Char.le_antisymm hearlier hlowest, Char.le_antisymm hhighest hlater⟩
    · have hlast : last < other.lowest := Nat.lt_trans hafter hbefore
      simp only [char_le_iff, char_lt_iff] at hspan hearlier hlater hlowest hlast
      omega
    · have hfirst : other.highest < first := Nat.lt_trans hafter hbefore
      simp only [char_le_iff, char_lt_iff] at hspan hearlier hlater hhighest hfirst
      omega

theorem range_mem (h : RunsOver characters runs) {first last : Char}
    (run : MaximalRun characters first last) : .range first last run.ordered ∈ runs := by
  obtain ⟨item, hitem, hlowest, hhighest⟩ := h.exists_run_of_stretch run.ordered run.within
  obtain ⟨start, stop, ordered, rfl⟩ := h.ranges item hitem
  obtain ⟨rfl, rfl⟩ := run.maximal start stop hlowest hhighest (h.maximalRun hitem).within
  exact hitem

/-- Such ranges are the maximal runs, in increasing order. -/
theorem residue {removed : Set Char} {first last : Char} {ordered : first ≤ last}
    (h : RunsOver {c | first ≤ c ∧ c ≤ last ∧ c ∉ removed} runs) :
    ClassItem.Residue removed (.range first last ordered) runs := by
  apply ClassItem.Residue.runs
  · apply h.apart.imp
    rintro left right ⟨c, _, hafter, hbefore⟩
    exact Nat.lt_trans hafter hbefore
  · intro item
    constructor
    · intro hitem
      obtain ⟨start, stop, between, rfl⟩ := h.ranges item hitem
      exact ⟨start, stop, h.maximalRun hitem, rfl⟩
    · rintro ⟨start, stop, run, rfl⟩
      exact h.range_mem run

end RunsOver

/-! ## Removal -/

namespace ClassItem

theorem cutOut_nil (cuts : List ClassItem) : cutOut cuts [] = [] :=
  cutOut_eq_flatMap cuts []

theorem residue_cutOut_single (cuts : List ClassItem) (c : Char) :
    Residue {c | ∃ cut ∈ cuts, cut.includes c = true} (.single c) (cutOut cuts [.single c]) := by
  induction cuts with
  | nil => exact .kept (by simp)
  | cons cut rest ih =>
    have hstep : cutOut (cut :: rest) [.single c] = cutOut rest (cut.without (.single c)) := by
      simp [cutOut]
    rw [hstep]
    by_cases hcovered : cut.includes c = true
    · rw [without, if_pos hcovered, cutOut_nil]
      exact .dropped ⟨cut, List.mem_cons_self, hcovered⟩
    · rw [without, if_neg hcovered]
      generalize cutOut rest [.single c] = left at ih
      cases ih with
      | kept outside => exact .kept (by simpa [hcovered] using outside)
      | dropped inside => exact .dropped (by simpa [hcovered] using inside)

/-- Cut after cut leaves what remains when all their characters are removed at once. -/
theorem residue_cutOut (cuts : List ClassItem) (item : ClassItem) :
    Residue {c | ∃ cut ∈ cuts, cut.includes c = true} item (cutOut cuts [item]) := by
  cases item with
  | single c => exact residue_cutOut_single cuts c
  | range first last ordered =>
    apply RunsOver.residue
    have hruns := (RunsOver.single_range ordered).cutOut cuts
    simpa only [Set.mem_ofPred_eq, and_assoc] using hruns

theorem check_toRaw (item : ClassItem) : item.toRaw.check = .ok item := by
  cases item with
  | single c => rfl
  | range first last ordered => exact dif_pos ordered

theorem characters_toRaw (item : ClassItem) :
    item.toRaw.characters = {c | item.includes c = true} := by
  ext c
  cases item with
  | single d => exact includes_single.symm
  | range first last ordered => exact (includes_iff (.range first last ordered) c).symm

end ClassItem

namespace RawItem

theorem exists_toRaw {item : RawItem} (h : item.isInverted = false) :
    ∃ valid : ClassItem, valid.toRaw = item := by
  cases item with
  | single c => exact ⟨.single c, rfl⟩
  | range first last =>
    have hordered : first ≤ last := Nat.not_lt.mp (of_decide_eq_false h)
    exact ⟨.range first last hordered, rfl⟩

theorem exists_map_toRaw {items : List RawItem} (h : ∀ item ∈ items, item.isInverted = false) :
    ∃ valid : List ClassItem, valid.map ClassItem.toRaw = items := by
  induction items with
  | nil => exact ⟨[], rfl⟩
  | cons item rest ih =>
    obtain ⟨hitem, hrest⟩ := List.forall_mem_cons.mp h
    obtain ⟨first, rfl⟩ := exists_toRaw hitem
    obtain ⟨others, rfl⟩ := ih hrest
    exact ⟨first :: others, rfl⟩

theorem charactersOf_map_toRaw (items : List ClassItem) :
    charactersOf (items.map ClassItem.toRaw) = {c | ∃ item ∈ items, item.includes c = true} := by
  ext c
  simp [charactersOf, ClassItem.characters_toRaw]

theorem charactersOf_append (items others : List RawItem) :
    charactersOf (items ++ others) = charactersOf items ∪ charactersOf others := by
  ext c
  simp [charactersOf, or_and_right, exists_or]

end RawItem

namespace CharacterClass

/-- What stands in the places of all items of a class. -/
def Remains (cls : CharacterClass) (removed : Set Char) (result : CharacterClass) : Prop :=
  ∃ residues, List.Forall₂ (ClassItem.Residue removed) cls.items residues ∧
    result.items = residues.flatten

theorem Remains.unique {cls result other : CharacterClass} {removed : Set Char}
    (h : cls.Remains removed result) (k : cls.Remains removed other) : result = other := by
  obtain ⟨residues, hresidues, hitems⟩ := h
  obtain ⟨others, hothers, hitems'⟩ := k
  have hunique : Relator.RightUnique (ClassItem.Residue removed) :=
    fun _ _ _ => ClassItem.Residue.unique
  obtain rfl := hunique.forall₂ hresidues hothers
  exact congrArg CharacterClass.mk (hitems.trans hitems'.symm)

theorem items_foldl_remove (cuts : List ClassItem) (cls : CharacterClass) :
    (cuts.foldl remove cls).items = ClassItem.cutOut cuts cls.items := by
  induction cuts generalizing cls with
  | nil => rfl
  | cons cut rest ih => exact ih (cls.remove cut)

theorem except_toRaw (cls : CharacterClass) (cuts : List ClassItem) :
    cls.except (cuts.map ClassItem.toRaw) = .ok (cuts.foldl remove cls) := by
  induction cuts generalizing cls with
  | nil => rfl
  | cons cut rest ih =>
    have hcons : cls.except ((cut :: rest).map ClassItem.toRaw) =
        cut.toRaw.check >>= fun checked =>
          (cls.remove checked).except (rest.map ClassItem.toRaw) := by
      simp [except]
    rw [hcons, cut.check_toRaw]
    exact ih (cls.remove cut)

/-- Removing valid items leaves what remains once all their characters are removed. -/
theorem exists_remains (cls : CharacterClass) {removed : List RawItem}
    (valid : ∀ item ∈ removed, item.isInverted = false) :
    ∃ result, cls.except removed = .ok result ∧
      cls.Remains (RawItem.charactersOf removed) result := by
  obtain ⟨cuts, rfl⟩ := RawItem.exists_map_toRaw valid
  refine ⟨_, cls.except_toRaw cuts, cls.items.map fun item => ClassItem.cutOut cuts [item], ?_, ?_⟩
  · rw [List.forall₂_map_right_iff, RawItem.charactersOf_map_toRaw]
    exact List.forall₂_same.mpr fun item _ => ClassItem.residue_cutOut cuts item
  · rw [items_foldl_remove, ClassItem.cutOut_eq_flatMap, List.flatMap_def]

theorem except_append (cls : CharacterClass) (removed others : List RawItem) :
    cls.except (removed ++ others) = cls.except removed >>= (·.except others) :=
  List.foldlM_append

theorem except_congr (cls : CharacterClass) {removed others : List RawItem}
    (valid : ∀ item ∈ removed, item.isInverted = false)
    (valid' : ∀ item ∈ others, item.isInverted = false)
    (same : RawItem.charactersOf removed = RawItem.charactersOf others) :
    cls.except removed = cls.except others := by
  obtain ⟨result, hresult, hremains⟩ := cls.exists_remains valid
  obtain ⟨other, hother, hremains'⟩ := cls.exists_remains valid'
  rw [same] at hremains
  rw [hresult, hother, hremains.unique hremains']

/-- Lists of valid items that cover the same characters leave the same list of items: in the place
of each character that character unless it is removed, and in the place of each range the maximal
runs of its remaining characters in increasing order. Removing the same items again changes
nothing, and what two lists leave together does not depend on which of them is removed first. -/
theorem except_determined_by_characters (cls : CharacterClass) {removed : List RawItem}
    (valid : ∀ item ∈ removed, item.isInverted = false) :
    ∃ result, cls.except removed = .ok result ∧
      (∃ residues, List.Forall₂ (ClassItem.Residue (RawItem.charactersOf removed))
        cls.items residues ∧ result.items = residues.flatten) ∧
      (∀ others : List RawItem, (∀ item ∈ others, item.isInverted = false) →
        RawItem.charactersOf others = RawItem.charactersOf removed →
        cls.except others = .ok result) ∧
      result.except removed = .ok result ∧
      ∀ others : List RawItem, (∀ item ∈ others, item.isInverted = false) →
        ∃ without both, cls.except others = .ok without ∧
          result.except others = .ok both ∧ without.except removed = .ok both := by
  obtain ⟨result, hresult, hremains⟩ := cls.exists_remains valid
  have hthen : ∀ more, result.except more = cls.except (removed ++ more) := by
    intro more
    rw [except_append, hresult]
    rfl
  refine ⟨result, hresult, hremains, ?_, ?_, ?_⟩
  · intro others hothers hsame
    rw [cls.except_congr hothers valid hsame, hresult]
  · rw [hthen, ← hresult]
    apply cls.except_congr (List.forall_mem_append.mpr ⟨valid, valid⟩) valid
    rw [RawItem.charactersOf_append, Set.union_self]
  · intro others hothers
    obtain ⟨without, hwithout, _⟩ := cls.exists_remains hothers
    obtain ⟨both, hboth, _⟩ := result.exists_remains hothers
    refine ⟨without, both, hwithout, hboth, ?_⟩
    have hback : without.except removed = cls.except (others ++ removed) := by
      rw [except_append, hwithout]
      rfl
    rw [hback, ← hboth, hthen]
    apply cls.except_congr (List.forall_mem_append.mpr ⟨hothers, valid⟩)
      (List.forall_mem_append.mpr ⟨valid, hothers⟩)
    rw [RawItem.charactersOf_append, RawItem.charactersOf_append, Set.union_comm]

/-- A letter, all small letters, and characters on both sides of the surrogate gap. -/
def scattered : CharacterClass :=
  ⟨[.single 'q', .range 'a' 'z' (by decide), .range '\ud000' '\uf000' (by decide)]⟩

def overlappingCuts : List RawItem :=
  [.range 'd' 'm', .single 'q', .range '\ue001' '\uf000', .range 'k' 'q', .single 'q',
    .range '\ud000' '\ud7fe']

theorem except_determined_by_characters_overlapping :
    let result : CharacterClass := ⟨[.range 'a' 'c' (by decide), .range 'r' 'z' (by decide),
      .range '\ud7ff' '\ue000' (by decide)]⟩
    let others : List RawItem :=
      [.range '\ud000' '\ud7fe', .range '\ue001' '\uf000', .range 'd' 'q']
    (∀ item ∈ overlappingCuts, item.isInverted = false) ∧
      (∀ item ∈ others, item.isInverted = false) ∧
      RawItem.charactersOf others = RawItem.charactersOf overlappingCuts ∧
      scattered.except overlappingCuts = .ok result ∧ scattered.except others = .ok result ∧
      result.except overlappingCuts = .ok result := by
  intro result others
  have hvalid : ∀ item ∈ overlappingCuts, item.isInverted = false := by decide
  have hothers : ∀ item ∈ others, item.isInverted = false := by decide
  have hsame : RawItem.charactersOf others = RawItem.charactersOf overlappingCuts := by
    ext c
    simp only [RawItem.charactersOf, RawItem.characters, overlappingCuts, others,
      List.exists_mem_cons_iff, Set.mem_ofPred_eq, Set.mem_singleton_iff, char_le_iff,
      ← Char.toNat_inj, List.not_mem_nil, false_and, exists_false, or_false]
    have hletters : 'd'.toNat = 100 ∧ 'k'.toNat = 107 ∧ 'm'.toNat = 109 ∧ 'q'.toNat = 113 := by
      decide
    omega
  obtain ⟨after, hafter, _, hagree, hagain, _⟩ := scattered.except_determined_by_characters hvalid
  obtain rfl : after = result := Except.ok.inj (hafter.symm.trans rfl)
  exact ⟨hvalid, hothers, hsame, hafter, hagree others hothers hsame, hagain⟩

end CharacterClass
end PatternGraph
