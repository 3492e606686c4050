import PatternGraph.Proofs.CellGraph
import PatternGraph.Proofs.EliminatedLanguage
import PatternGraph.Proofs.SharedLanguage
import PatternGraph.RuleSet

/-!
# Renumbering

Two runs that make the same rules in another order give them other cells and other serial numbers.
What they build is the same up to these numbers: it becomes equal once serial numbers are dropped
and the cells are renumbered, in each run by a numbering that keeps different cells apart. Nothing
that classifies or rewrites a body looks at the numbers themselves, so all of it commutes with
renumbering, and whatever is asked about reachability has the same answer in both runs.
-/

namespace PatternGraph
set_option autoImplicit false

theorem map_eq_map_iff_forall₂ {α β γ : Type} {f : α → γ} {g : β → γ} {as : List α}
    {bs : List β} : as.map f = bs.map g ↔ List.Forall₂ (fun a b => f a = g b) as bs := by
  have hall : as.map f = bs.map g ↔ List.Forall₂ Eq (as.map f) (bs.map g) := by
    rw [List.forall₂_eq_eq_eq]
  rw [hall, List.forall₂_map_left_iff, List.forall₂_map_right_iff]

/-- The tag without its serial number. -/
def Tag.unnumbered (tag : Tag) : Tag := { name := tag.name }

namespace Pattern

mutual
/-- The tree with other numbers for its cells and no serial numbers. -/
def renumber (number : Nat → Nat) : Pattern → Pattern
  | .literal tag text => .literal tag.unnumbered text
  | .characterClass tag cls => .characterClass tag.unnumbered cls
  | .alternation tag elements => .alternation tag.unnumbered (renumberAll number elements)
  | .concatenation tag elements => .concatenation tag.unnumbered (renumberAll number elements)
  | .repetition tag inner min max => .repetition tag.unnumbered (renumber number inner) min max
  | .latch tag target => .latch tag.unnumbered (renumber number target)
  | .recursion tag cell => .recursion tag.unnumbered (number cell)

def renumberAll (number : Nat → Nat) : List Pattern → List Pattern
  | [] => []
  | p :: rest => renumber number p :: renumberAll number rest
end

variable {number : Nat → Nat}

@[simp] theorem renumberAll_eq_map (elements : List Pattern) :
    renumberAll number elements = elements.map (renumber number) := by
  induction elements with
  | nil => rfl
  | cons p rest ih => rw [renumberAll, List.map_cons, ih]

section
variable (tag : Tag) (elements : List Pattern)

@[simp] theorem renumber_alternation : (Pattern.alternation tag elements).renumber number =
    .alternation tag.unnumbered (elements.map (renumber number)) := by
  rw [renumber, renumberAll_eq_map]

@[simp] theorem renumber_concatenation : (Pattern.concatenation tag elements).renumber number =
    .concatenation tag.unnumbered (elements.map (renumber number)) := by
  rw [renumber, renumberAll_eq_map]

@[simp] theorem renumber_anyOf :
    (anyOf elements).renumber number = anyOf (elements.map (renumber number)) :=
  renumber_alternation _ elements

@[simp] theorem renumber_inOrder :
    (inOrder elements).renumber number = inOrder (elements.map (renumber number)) :=
  renumber_concatenation _ elements

end

@[simp] theorem renumber_any (p : Pattern) : p.any.renumber number = (p.renumber number).any := rfl

@[simp] theorem renumber_oneOrMore (p : Pattern) :
    p.oneOrMore.renumber number = (p.renumber number).oneOrMore := rfl

@[simp] theorem name_renumber (p : Pattern) : (p.renumber number).name = p.name := by
  cases p <;> rfl

@[simp] theorem renumber_named (name : String) (p : Pattern) :
    (p.named name).renumber number = (p.renumber number).named name := by
  cases p <;> rfl

@[simp] theorem renumber_namedLike (model p : Pattern) :
    (model.namedLike p).renumber number =
      (model.renumber number).namedLike (p.renumber number) := by
  unfold namedLike
  rw [name_renumber]
  split
  · exact renumber_named _ p
  · rfl

mutual
theorem renumber_stamp : ∀ (p : Pattern) (next : Nat),
    (p.stamp next).1.renumber number = p.renumber number
  | .literal ⟨serial, _⟩ _, _ => by cases serial <;> rfl
  | .characterClass ⟨serial, _⟩ _, _ => by cases serial <;> rfl
  | .alternation ⟨serial, _⟩ elements, next => by
    cases serial with
    | none => simpa [stamp, Tag.unnumbered] using renumber_stampAll elements (next + 1)
    | some _ => rfl
  | .concatenation ⟨serial, _⟩ elements, next => by
    cases serial with
    | none => simpa [stamp, Tag.unnumbered] using renumber_stampAll elements (next + 1)
    | some _ => rfl
  | .repetition ⟨serial, _⟩ inner _ _, next => by
    cases serial with
    | none => simpa [stamp, renumber, Tag.unnumbered] using renumber_stamp inner (next + 1)
    | some _ => rfl
  | .latch ⟨serial, _⟩ target, next => by
    cases serial with
    | none => simpa [stamp, renumber, Tag.unnumbered] using renumber_stamp target (next + 1)
    | some _ => rfl
  | .recursion ⟨serial, _⟩ _, _ => by cases serial <;> rfl

theorem renumber_stampAll : ∀ (elements : List Pattern) (next : Nat),
    (stampAll elements next).1.map (renumber number) = elements.map (renumber number)
  | [], _ => rfl
  | p :: rest, next => by
    simpa [stampAll] using ⟨renumber_stamp p next, renumber_stampAll rest _⟩
end

@[simp] theorem renumber_enter (heap : Heap) (p : Pattern) :
    (heap.enter p).1.renumber number = p.renumber number :=
  renumber_stamp p heap.nextSerial

theorem name_enter (heap : Heap) (p : Pattern) : (heap.enter p).1.name = p.name := by
  have hsame : ((heap.enter p).1.renumber id).name = (p.renumber id).name := by
    rw [renumber_enter]
  rwa [name_renumber, name_renumber] at hsame

/-! ## What classification and rewriting look at -/

@[simp] theorem parts_renumber (p : Pattern) :
    (p.renumber number).parts = p.parts.map (renumber number) := by
  cases p with
  | concatenation tag elements =>
    obtain ⟨serial, name⟩ := tag
    cases name with
    | none => simp [parts, Tag.unnumbered]
    | some _ => simp [parts, Tag.unnumbered]
  | _ => simp [parts, renumber]

@[simp] theorem sequence?_map_renumber (elements : List Pattern) :
    sequence? (elements.map (renumber number)) = (sequence? elements).map (renumber number) := by
  match elements with
  | [] => rfl
  | [_] => rfl
  | p :: q :: rest => simp [sequence?]

@[simp] theorem choice_map_renumber (elements : List Pattern) :
    choice (elements.map (renumber number)) = (choice elements).renumber number := by
  match elements with
  | [] => simp [choice]
  | [_] => rfl
  | p :: q :: rest => simp [choice]

section
variable (apart : Function.Injective number) (cell : Nat)
include apart

theorem isReferenceTo_renumber (p : Pattern) :
    (p.renumber number).isReferenceTo (number cell) = p.isReferenceTo cell := by
  cases p with
  | recursion tag other =>
    simp only [renumber, isReferenceTo]
    rw [Bool.eq_iff_iff, beq_iff_eq, beq_iff_eq, apart.eq_iff]
  | _ => rfl

theorem stripLeading_renumber (p : Pattern) :
    (p.renumber number).stripLeading (number cell) =
      (p.stripLeading cell).map (Option.map (renumber number)) := by
  fun_induction stripLeading cell p with
  | case1 tag => simp [renumber]
  | case2 tag other hother => simp [renumber, stripLeading, apart.eq_iff, hother]
  | case3 tag first rest hfirst ih => simp [stripLeading, ih, hfirst]
  | case4 tag first rest hfirst ih => simp [stripLeading, ih, hfirst]
  | case5 tag first rest head hfirst ih =>
    simp only [hfirst, Option.map_some] at ih
    simp only [renumber_concatenation, List.map_cons, stripLeading, ih, parts_renumber,
      ← List.map_append, sequence?_map_renumber, Option.map_some]
  | case6 p hrecursion hconcatenation =>
    cases p with
    | recursion tag other => exact absurd rfl (hrecursion tag other)
    | concatenation tag elements =>
      cases elements with
      | nil => rfl
      | cons first rest => exact absurd rfl (hconcatenation tag first rest)
    | _ => simp [renumber, stripLeading]

variable (elements : List Pattern)

theorem any_isReferenceTo_map_renumber :
    (elements.map (renumber number)).any (·.isReferenceTo (number cell)) =
      elements.any (·.isReferenceTo cell) := by
  simp [List.any_map, Function.comp_def, isReferenceTo_renumber apart]

theorem seeds_map_renumber : seeds (number cell) (elements.map (renumber number)) =
    (seeds cell elements).map (renumber number) := by
  simp [seeds, List.filter_map, Function.comp_def, stripLeading_renumber apart]

theorem tails_map_renumber : tails (number cell) (elements.map (renumber number)) =
    (tails cell elements).map (renumber number) := by
  simp only [tails, List.filterMap_map, List.map_filterMap, Function.comp_def,
    stripLeading_renumber apart]
  congr 1
  funext p
  cases p.stripLeading cell <;> rfl

theorem withoutReference_map_renumber :
    withoutReference (number cell) (elements.map (renumber number)) =
      (withoutReference cell elements).map (renumber number) := by
  simp [withoutReference, List.filter_map, Function.comp_def, isReferenceTo_renumber apart]

theorem startsWith_map_renumber :
    startsWith (number cell) (elements.map (renumber number)) = startsWith cell elements := by
  simp [startsWith, Option.any_map, isReferenceTo_renumber apart]

theorem endsWith_map_renumber :
    endsWith (number cell) (elements.map (renumber number)) = endsWith cell elements := by
  simp [endsWith, Option.any_map, isReferenceTo_renumber apart]

theorem concatenationShape_map_renumber :
    concatenationShape (number cell) (elements.map (renumber number)) =
      concatenationShape cell elements := by
  simp only [concatenationShape, startsWith_map_renumber apart, endsWith_map_renumber apart,
    any_isReferenceTo_map_renumber apart]

theorem eliminated?_renumber (shape : RecursionShape) (body : Pattern) :
    (body.renumber number).eliminated? (number cell) shape =
      (body.eliminated? cell shape).map (renumber number) := by
  cases shape with
  | direct =>
    cases body with
    | alternation tag elements => simp [eliminated?, withoutReference_map_renumber apart]
    | _ => rfl
  | left =>
    cases body with
    | alternation tag elements =>
      simp [eliminated?, seeds_map_renumber apart, tails_map_renumber apart]
    | concatenation tag elements =>
      simp only [renumber_concatenation, eliminated?, ← List.map_tail, sequence?_map_renumber]
      cases sequence? elements.tail <;> rfl
    | _ => rfl
  | right =>
    cases body with
    | concatenation tag elements =>
      simp only [renumber_concatenation, eliminated?, ← List.map_dropLast, sequence?_map_renumber]
      cases sequence? elements.dropLast <;> rfl
    | _ => rfl
  | _ => cases body <;> rfl

theorem eliminate_renumber (shape : RecursionShape) (body : Pattern) :
    (body.renumber number).eliminate (number cell) shape =
      (body.eliminate cell shape).renumber number := by
  unfold eliminate
  rw [eliminated?_renumber apart]
  cases eliminated? cell shape body with
  | none => rfl
  | some p => simp

end

theorem forall₂_of_map_renumber {f g : Nat → Nat} {related : Pattern → Pattern → Prop}
    {ps qs : List Pattern} (h : ps.map (renumber f) = qs.map (renumber g))
    (each : ∀ p ∈ ps, ∀ q, p.renumber f = q.renumber g → related p q) :
    List.Forall₂ related ps qs :=
  forall₂_imp_of_mem (map_eq_map_iff_forall₂.mp h) each

/-- Trees that are the same up to their numbers agree, with the mentioned cells paired by the
numbers they get. -/
theorem alike_of_renumber {f g : Nat → Nat} {cells : Nat → Nat → Prop} {p q : Pattern}
    (h : p.renumber f = q.renumber g) (paired : ∀ c d, p.Mentions c → f c = g d → cells c d) :
    p.Alike cells q := by
  induction p generalizing q with
  | literal tag text =>
    cases q with
    | literal tag' text' => exact (Pattern.literal.inj h).2
    | _ => exact absurd h nofun
  | characterClass tag cls =>
    cases q with
    | characterClass tag' cls' => exact (Pattern.characterClass.inj h).2
    | _ => exact absurd h nofun
  | alternation tag ps ih =>
    cases q with
    | alternation tag' qs =>
      simp only [renumber_alternation, Pattern.alternation.injEq] at h
      refine allAlike_iff.mpr (forall₂_of_map_renumber h.2 fun p hp q hpq => ih p hp hpq ?_)
      exact fun c d hc => paired c d (.alternation hp hc)
    | _ => exact absurd h nofun
  | concatenation tag ps ih =>
    cases q with
    | concatenation tag' qs =>
      simp only [renumber_concatenation, Pattern.concatenation.injEq] at h
      refine allAlike_iff.mpr (forall₂_of_map_renumber h.2 fun p hp q hpq => ih p hp hpq ?_)
      exact fun c d hc => paired c d (.concatenation hp hc)
    | _ => exact absurd h nofun
  | repetition tag inner min max ih =>
    cases q with
    | repetition tag' inner' min' max' =>
      obtain ⟨_, hinner, hmin, hmax⟩ := Pattern.repetition.inj h
      exact ⟨hmin, hmax, ih hinner fun c d hc => paired c d (.repetition hc)⟩
    | _ => exact absurd h nofun
  | latch tag target ih =>
    cases q with
    | latch tag' target' =>
      exact ih (Pattern.latch.inj h).2 fun c d hc => paired c d (.latch hc)
    | _ => exact absurd h nofun
  | recursion tag cell =>
    cases q with
    | recursion tag' cell' =>
      exact paired cell cell' (.recursion tag) (Pattern.recursion.inj h).2
    | _ => exact absurd h nofun

end Pattern

namespace Rule

/-- The rule with other numbers for all cells. -/
def renumber (number : Nat → Nat) (rule : Rule) : Rule where
  name := rule.name
  placeholder := ⟨number rule.placeholder.cell⟩
  body := rule.body.renumber number

theorem renumber_eq_iff {f g : Nat → Nat} {rule partner : Rule} :
    rule.renumber f = partner.renumber g ↔ rule.name = partner.name ∧
      f rule.placeholder.cell = g partner.placeholder.cell ∧
      rule.body.renumber f = partner.body.renumber g := by
  simp [renumber]

end Rule

/-- What a body is resolved to, up to the numbers. -/
theorem Heap.Resolved.renumber_grammar {heap later : Heap} {cell : Nat}
    {body grammar result : Pattern} (h : heap.Resolved cell body grammar result later)
    (number : Nat → Nat) : grammar.renumber number =
      (body.eliminate cell (heap.shape cell body)).renumber number := by
  rcases h.form with ⟨habsent, rfl⟩ | rfl
  · rw [habsent]
    rfl
  · exact Pattern.renumber_enter _ _

/-! ## Two runs -/

namespace Heap
variable {f g : Nat → Nat} {heap other : Heap} {p q : Pattern} {c d : Nat}

/-- Cells that get the same number are bound to the same pattern, or both unbound. -/
structure SameUnder (f g : Nat → Nat) (heap other : Heap) : Prop where
  left : Function.Injective f
  right : Function.Injective g
  cells : ∀ c d, f c = g d →
    (heap.grammar c).map (Pattern.renumber f) = (other.grammar d).map (Pattern.renumber g)

theorem SameUnder.symm (h : SameUnder f g heap other) : SameUnder g f other heap :=
  ⟨h.right, h.left, fun d c hdc => (h.cells c d hdc.symm).symm⟩

theorem SameUnder.map_successors (h : SameUnder f g heap other)
    (hpq : p.renumber f = q.renumber g) (edges : Edges) :
    (heap.successors edges p).map (Pattern.renumber f) =
      (other.successors edges q).map (Pattern.renumber g) := by
  cases p with
  | literal | characterClass =>
    cases q with
    | literal | characterClass => cases edges <;> rfl
    | _ => exact absurd hpq nofun
  | alternation tag ps =>
    cases q with
    | alternation tag' qs =>
      simp only [Pattern.renumber_alternation, Pattern.alternation.injEq] at hpq
      cases edges <;> exact hpq.2
    | _ => exact absurd hpq nofun
  | concatenation tag ps =>
    cases q with
    | concatenation tag' qs =>
      simp only [Pattern.renumber_concatenation, Pattern.concatenation.injEq] at hpq
      cases edges with
      | all => exact hpq.2
      | leading => simp only [successors, List.map_take, hpq.2]
    | _ => exact absurd hpq nofun
  | repetition tag inner min max =>
    cases q with
    | repetition tag' inner' min' max' =>
      have hinner := (Pattern.repetition.inj hpq).2.1
      cases edges <;> exact congrArg (fun p => [p]) hinner
    | _ => exact absurd hpq nofun
  | latch tag target =>
    cases q with
    | latch tag' target' =>
      have htarget := (Pattern.latch.inj hpq).2
      cases edges <;> exact congrArg (fun p => [p]) htarget
    | _ => exact absurd hpq nofun
  | recursion tag cell =>
    cases q with
    | recursion tag' cell' =>
      have hcells := congrArg Option.toList (h.cells cell cell' (Pattern.recursion.inj hpq).2)
      cases edges <;> simpa [successors, elements, Option.toList_map] using hcells
    | _ => exact absurd hpq nofun

theorem SameUnder.exists_reaches (h : SameUnder f g heap other) {edges : Edges} {r : Pattern}
    (hpr : heap.Reaches edges p r) (hpq : p.renumber f = q.renumber g) :
    ∃ s, other.Reaches edges q s ∧ r.renumber f = s.renumber g := by
  induction hpr generalizing q with
  | refl p => exact ⟨q, .refl q, hpq⟩
  | @step p next r hnext _ ih =>
    have hmember := List.mem_map_of_mem (f := Pattern.renumber f) hnext
    rw [h.map_successors hpq] at hmember
    obtain ⟨other', hother, hsame⟩ := List.mem_map.mp hmember
    obtain ⟨s, hs, hrs⟩ := ih hsame.symm
    exact ⟨s, .step hother hs, hrs⟩

theorem SameUnder.reaches_of_reaches (h : SameUnder f g heap other)
    (hpq : p.renumber f = q.renumber g) (hcd : f c = g d) {edges : Edges}
    (hp : heap.reaches edges p (.cell c) = true) : other.reaches edges q (.cell d) = true := by
  rw [reaches_iff] at hp ⊢
  obtain ⟨r, hpr, hr⟩ := hp
  obtain ⟨s, hqs, hrs⟩ := h.exists_reaches hpr hpq
  refine ⟨s, hqs, ?_⟩
  rw [← Pattern.isReferenceTo_iff] at hr ⊢
  rw [← Pattern.isReferenceTo_renumber h.right, ← hrs, ← hcd,
    Pattern.isReferenceTo_renumber h.left, hr]

theorem SameUnder.reaches_eq (h : SameUnder f g heap other) (hpq : p.renumber f = q.renumber g)
    (hcd : f c = g d) (edges : Edges) :
    heap.reaches edges p (.cell c) = other.reaches edges q (.cell d) :=
  Bool.eq_iff_iff.mpr ⟨h.reaches_of_reaches hpq hcd,
    h.symm.reaches_of_reaches hpq.symm hcd.symm⟩

theorem any_eq_of_map_eq {ps qs : List Pattern} {P Q : Pattern → Bool}
    (hall : ps.map (Pattern.renumber f) = qs.map (Pattern.renumber g))
    (each : ∀ p q, p.renumber f = q.renumber g → P p = Q q) : ps.any P = qs.any Q := by
  induction ps generalizing qs with
  | nil =>
    obtain rfl := List.map_eq_nil_iff.mp hall.symm
    rfl
  | cons p rest ih =>
    cases qs with
    | nil => exact absurd hall nofun
    | cons q others =>
      obtain ⟨hp, hrest⟩ := List.cons.inj hall
      simp only [List.any_cons, each p q hp, ih hrest]

section
variable (h : SameUnder f g heap other) {ps qs : List Pattern}
  (hall : ps.map (Pattern.renumber f) = qs.map (Pattern.renumber g)) (hcd : f c = g d)
include h hall hcd

theorem SameUnder.any_isReferenceTo_eq :
    ps.any (·.isReferenceTo c) = qs.any (·.isReferenceTo d) := by
  rw [← Pattern.any_isReferenceTo_map_renumber h.left, hall, hcd,
    Pattern.any_isReferenceTo_map_renumber h.right]

theorem SameUnder.any_leads_eq :
    (Pattern.withoutReference c ps).any (heap.reaches .leading · (.cell c)) =
      (Pattern.withoutReference d qs).any (other.reaches .leading · (.cell d)) := by
  have hothers : (Pattern.withoutReference c ps).map (Pattern.renumber f) =
      (Pattern.withoutReference d qs).map (Pattern.renumber g) := by
    rw [← Pattern.withoutReference_map_renumber h.left, hall, hcd,
      Pattern.withoutReference_map_renumber h.right]
  exact any_eq_of_map_eq hothers fun p q hpq => h.reaches_eq hpq hcd .leading

theorem SameUnder.alternationShape_eq :
    heap.alternationShape c ps = other.alternationShape d qs := by
  have htails : (Pattern.tails c ps).isEmpty = (Pattern.tails d qs).isEmpty := by
    rw [← List.isEmpty_map, ← Pattern.tails_map_renumber h.left, hall, hcd,
      Pattern.tails_map_renumber h.right, List.isEmpty_map]
  simp only [alternationShape, h.any_isReferenceTo_eq hall hcd, htails, h.any_leads_eq hall hcd]

end

theorem SameUnder.shape_eq (h : SameUnder f g heap other) (hpq : p.renumber f = q.renumber g)
    (hcd : f c = g d) : heap.shape c p = other.shape d q := by
  have hself : p.isReferenceTo c = q.isReferenceTo d := by
    rw [← Pattern.isReferenceTo_renumber h.left, hpq, hcd, Pattern.isReferenceTo_renumber h.right]
  unfold shape
  rw [hself, h.reaches_eq hpq hcd .all]
  cases p with
  | alternation tag ps =>
    cases q with
    | alternation tag' qs =>
      simp only [Pattern.renumber_alternation, Pattern.alternation.injEq] at hpq
      simp only [h.alternationShape_eq hpq.2 hcd]
    | _ => exact absurd hpq nofun
  | concatenation tag ps =>
    cases q with
    | concatenation tag' qs =>
      simp only [Pattern.renumber_concatenation, Pattern.concatenation.injEq] at hpq
      have hparts : Pattern.concatenationShape c ps = Pattern.concatenationShape d qs := by
        rw [← Pattern.concatenationShape_map_renumber h.left, hpq.2, hcd,
          Pattern.concatenationShape_map_renumber h.right]
      simp only [hparts]
    | _ => exact absurd hpq nofun
  | _ =>
    cases q with
    | alternation | concatenation => exact absurd hpq nofun
    | _ => rfl

end Heap
end PatternGraph
