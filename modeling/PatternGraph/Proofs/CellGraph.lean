import PatternGraph.Proofs.GuardedWalk
import PatternGraph.Proofs.StructuralEquality

/-!
# The graph of cells

A tree mentions the cells that its recursions refer to, and a bound cell leads to the cells that its
grammar mentions. A pattern reaches a cell when a path of such edges from a cell that it mentions
ends there. The last edge into the cell is all that counts, so neither what the cell itself is
bound to nor an edge from another cell to itself makes any difference.
-/

namespace PatternGraph
set_option autoImplicit false

namespace Pattern

/-- The tree refers to the cell; no cell is looked into. -/
inductive Mentions (cell : Nat) : Pattern → Prop where
  | recursion (tag : Tag) : Mentions cell (.recursion tag cell)
  | alternation {tag : Tag} {elements : List Pattern} {p : Pattern} (member : p ∈ elements)
      (mentioned : Mentions cell p) : Mentions cell (.alternation tag elements)
  | concatenation {tag : Tag} {elements : List Pattern} {p : Pattern} (member : p ∈ elements)
      (mentioned : Mentions cell p) : Mentions cell (.concatenation tag elements)
  | repetition {tag : Tag} {inner : Pattern} {min : Nat} {max : Option Nat}
      (mentioned : Mentions cell inner) : Mentions cell (.repetition tag inner min max)
  | latch {tag : Tag} {target : Pattern} (mentioned : Mentions cell target) :
      Mentions cell (.latch tag target)

section
variable {cell : Nat} {tag : Tag}

@[simp] theorem not_mentions_literal (text : String) : ¬ Mentions cell (.literal tag text) :=
  nofun

@[simp] theorem not_mentions_characterClass (cls : CharacterClass) :
    ¬ Mentions cell (.characterClass tag cls) :=
  nofun

@[simp] theorem mentions_alternation {elements : List Pattern} :
    Mentions cell (.alternation tag elements) ↔ ∃ p ∈ elements, Mentions cell p := by
  constructor
  · intro h
    cases h with
    | alternation member mentioned => exact ⟨_, member, mentioned⟩
  · intro h
    obtain ⟨p, hp, hmentioned⟩ := h
    exact .alternation hp hmentioned

@[simp] theorem mentions_concatenation {elements : List Pattern} :
    Mentions cell (.concatenation tag elements) ↔ ∃ p ∈ elements, Mentions cell p := by
  constructor
  · intro h
    cases h with
    | concatenation member mentioned => exact ⟨_, member, mentioned⟩
  · intro h
    obtain ⟨p, hp, hmentioned⟩ := h
    exact .concatenation hp hmentioned

@[simp] theorem mentions_repetition {inner : Pattern} {min : Nat} {max : Option Nat} :
    Mentions cell (.repetition tag inner min max) ↔ Mentions cell inner := by
  constructor
  · intro h
    cases h with
    | repetition mentioned => exact mentioned
  · exact .repetition

@[simp] theorem mentions_latch {target : Pattern} :
    Mentions cell (.latch tag target) ↔ Mentions cell target := by
  constructor
  · intro h
    cases h with
    | latch mentioned => exact mentioned
  · exact .latch

@[simp] theorem mentions_recursion {other : Nat} :
    Mentions cell (.recursion tag other) ↔ other = cell := by
  constructor
  · intro h
    cases h with
    | recursion _ => rfl
  · rintro rfl
    exact .recursion tag

end

theorem mentions_of_isReferenceTo {cell other : Nat} {p : Pattern}
    (h : p.isReferenceTo cell = true) : p.Mentions other ↔ cell = other := by
  obtain ⟨tag, rfl⟩ := (isReferenceTo_iff_exists cell p).mp h
  exact mentions_recursion

theorem mentions_congr {cell : Nat} {p q : Pattern} (h : p.Alike Eq q) :
    p.Mentions cell ↔ q.Mentions cell := by
  have elementwise : ∀ {ps qs : List Pattern},
      List.Forall₂ (fun p q => p.Mentions cell ↔ q.Mentions cell) ps qs →
      ((∃ p ∈ ps, p.Mentions cell) ↔ ∃ q ∈ qs, q.Mentions cell) := by
    intro ps qs hall
    induction hall with
    | nil => simp
    | cons hp _ ih => simp only [List.exists_mem_cons_iff, hp, ih]
  refine Alike.induction (motive := fun p q => p.Mentions cell ↔ q.Mentions cell)
    ?literal ?characterClass ?alternation ?concatenation ?repetition ?latch ?recursion h
  case literal | characterClass =>
    intros
    simp
  case alternation | concatenation =>
    intro _ _ ps qs hall
    simpa using elementwise hall
  case repetition =>
    intro _ _ p q min max hinner
    simpa using hinner
  case latch =>
    intro _ _ p q htarget
    simpa using htarget
  case recursion =>
    intro _ _ c d hcd
    simp [hcd]

@[simp] theorem mentions_enter {cell : Nat} (heap : Heap) (p : Pattern) :
    (heap.enter p).1.Mentions cell ↔ p.Mentions cell :=
  mentions_congr (alike_enter heap p)

@[simp] theorem mentions_named {cell : Nat} (name : String) (p : Pattern) :
    (p.named name).Mentions cell ↔ p.Mentions cell :=
  mentions_congr (alike_withTag _ p)

end Pattern

namespace Heap
variable {heap later : Heap}

/-- The cell is bound to a tree that mentions the other one. -/
def Leads (heap : Heap) (c d : Nat) : Prop := ∃ p, heap.grammar c = some p ∧ p.Mentions d

theorem Reaches.exists_mentions {p q : Pattern} (h : heap.Reaches .all p q) :
    ∀ tag cell, q = .recursion tag cell →
      ∃ c, p.Mentions c ∧ Relation.ReflTransGen heap.Leads c cell := by
  induction h with
  | refl p =>
    rintro tag cell rfl
    exact ⟨cell, .recursion tag, .refl⟩
  | @step p next q hnext _ ih =>
    intro tag cell hq
    obtain ⟨c, hmentions, hpath⟩ := ih tag cell hq
    rw [successors_all] at hnext
    cases p with
    | literal | characterClass => exact absurd hnext List.not_mem_nil
    | alternation tag elements => exact ⟨c, .alternation hnext hmentions, hpath⟩
    | concatenation tag elements => exact ⟨c, .concatenation hnext hmentions, hpath⟩
    | repetition tag inner min max =>
      obtain rfl := List.mem_singleton.mp hnext
      exact ⟨c, .repetition hmentions, hpath⟩
    | latch tag target =>
      obtain rfl := List.mem_singleton.mp hnext
      exact ⟨c, .latch hmentions, hpath⟩
    | recursion tag d =>
      exact ⟨d, .recursion tag, hpath.head ⟨next, by simpa using hnext, hmentions⟩⟩

theorem Reaches.of_mentions (heap : Heap) {p : Pattern} {cell : Nat} (h : p.Mentions cell) :
    ∃ tag, heap.Reaches .all p (.recursion tag cell) := by
  induction h with
  | recursion tag => exact ⟨tag, .refl _⟩
  | alternation member _ ih | concatenation member _ ih =>
    obtain ⟨tag, hpath⟩ := ih
    exact ⟨tag, .of_element member hpath⟩
  | repetition _ ih | latch _ ih =>
    obtain ⟨tag, hpath⟩ := ih
    exact ⟨tag, .of_element (List.mem_singleton.mpr rfl) hpath⟩

theorem Reaches.of_leads {c d : Nat} (h : Relation.ReflTransGen heap.Leads c d) {p : Pattern}
    {tag : Tag} (hp : heap.Reaches .all p (.recursion tag c)) :
    ∃ tag', heap.Reaches .all p (.recursion tag' d) := by
  induction h with
  | refl => exact ⟨tag, hp⟩
  | tail _ hstep ih =>
    obtain ⟨between, hbetween⟩ := ih
    obtain ⟨q, hq, hmentions⟩ := hstep
    obtain ⟨last, hlast⟩ := Reaches.of_mentions heap hmentions
    exact ⟨last, hbetween.trans (.of_element (by simp [hq]) hlast)⟩

/-- A pattern reaches a cell along the cells that lead there from one that it mentions. -/
theorem reaches_cell_iff {p : Pattern} {cell : Nat} :
    heap.reaches .all p (.cell cell) = true ↔
      ∃ c, p.Mentions c ∧ Relation.ReflTransGen heap.Leads c cell := by
  rw [reaches_iff]
  constructor
  · intro h
    obtain ⟨q, hpq, hq⟩ := h
    rw [← Pattern.isReferenceTo_iff, Pattern.isReferenceTo_iff_exists] at hq
    obtain ⟨tag, hq⟩ := hq
    exact hpq.exists_mentions tag cell hq
  · intro h
    obtain ⟨c, hmentions, hpath⟩ := h
    obtain ⟨tag, hc⟩ := Reaches.of_mentions heap hmentions
    obtain ⟨last, hlast⟩ := Reaches.of_leads hpath hc
    exact ⟨_, hlast, rfl⟩

theorem reaches_cell_tail {p : Pattern} {c d : Nat}
    (h : heap.reaches .all p (.cell c) = true) (hstep : heap.Leads c d) :
    heap.reaches .all p (.cell d) = true := by
  rw [reaches_cell_iff] at h ⊢
  obtain ⟨first, hmentions, hpath⟩ := h
  exact ⟨first, hmentions, hpath.tail hstep⟩

/-- A path that ends at a cell needs neither a step from that cell nor a step that stays. -/
theorem leads_path_of_steps {cell : Nat}
    (steps : ∀ c d, c ≠ d → c ≠ cell → heap.Leads c d → later.Leads c d) {c : Nat}
    (h : Relation.ReflTransGen heap.Leads c cell) : Relation.ReflTransGen later.Leads c cell := by
  induction h using Relation.ReflTransGen.head_induction_on with
  | refl => exact .refl
  | @head c d hstep _ ih =>
    by_cases hstay : c = d
    · exact hstay ▸ ih
    · by_cases hend : c = cell
      · exact hend ▸ .refl
      · exact ih.head (steps c d hstay hend hstep)

theorem reaches_eq_of_leads {cell : Nat}
    (h : ∀ c d, c ≠ d → c ≠ cell → (heap.Leads c d ↔ later.Leads c d)) (p : Pattern) :
    heap.reaches .all p (.cell cell) = later.reaches .all p (.cell cell) := by
  apply Bool.eq_iff_iff.mpr
  rw [reaches_cell_iff, reaches_cell_iff]
  apply exists_congr
  intro c
  apply and_congr_right
  intro _
  exact ⟨leads_path_of_steps fun a b hab hend => (h a b hab hend).mp,
    leads_path_of_steps fun a b hab hend => (h a b hab hend).mpr⟩

theorem reaches_congr (h : ∀ c, later.grammar c = heap.grammar c) (p : Pattern) (cell : Nat) :
    heap.reaches .all p (.cell cell) = later.reaches .all p (.cell cell) := by
  apply reaches_eq_of_leads
  intro c d _ _
  simp only [Leads, h]

theorem reaches_of_alike {p q : Pattern} (h : p.Alike Eq q) (cell : Nat) :
    heap.reaches .all p (.cell cell) = heap.reaches .all q (.cell cell) := by
  apply Bool.eq_iff_iff.mpr
  rw [reaches_cell_iff, reaches_cell_iff]
  apply exists_congr
  intro c
  rw [Pattern.mentions_congr h]

/-- Another cell is reached from a bound cell exactly when what it is bound to reaches it. -/
theorem reaches_recursion_of_bound {cell other : Nat} {p : Pattern}
    (h : heap.grammar cell = some p) (hne : cell ≠ other) (tag : Tag) :
    heap.reaches .all (.recursion tag cell) (.cell other) = heap.reaches .all p (.cell other) := by
  apply Bool.eq_iff_iff.mpr
  have hleads : ∀ c, heap.Leads cell c ↔ p.Mentions c := by simp [Leads, h]
  rw [reaches_cell_iff, reaches_cell_iff]
  simp only [Pattern.mentions_recursion, exists_eq_left']
  rw [Relation.ReflTransGen.cases_head_iff]
  simp only [hne, false_or, hleads]

/-- A bound cell reaches itself exactly when what it is bound to reaches it. -/
theorem isRecursive_of_bound {cell : Nat} {p : Pattern} (h : heap.grammar cell = some p)
    (tag : Tag) :
    heap.isRecursive (.recursion tag cell) = heap.reaches .all p (.cell cell) := by
  simp [isRecursive, returns, reaches, h, Pattern.identity]

end Heap
end PatternGraph
