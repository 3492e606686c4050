import PatternGraph.Proofs.CellLifeCycle
import PatternGraph.Proofs.SettledRules

/-!
# A cell during its own resolution

What a cell is bound to while it is resolved makes no difference: not to the shape of the body, not
to the error or the result, and not to the heap afterwards. Every search for the cell stops where it
finds a reference to it and so never looks inside, and what the cell held is overwritten at the end.
A rule whose cell is bound to its body beforehand is therefore resolved as one whose cell is empty.
Nothing is said about other cells; what they hold does matter.
-/

namespace PatternGraph
set_option autoImplicit false

namespace Heap
variable {heap other : Heap} {cell : Nat}

/-- The heap with other content, or none, in one cell. -/
def holding (heap : Heap) (cell : Nat) (content : Option Pattern) : Heap :=
  { heap with cells := heap.cells.modify cell fun held => { held with grammar := content } }

/-- The heaps are the same but for what one cell is bound to, if it is bound at all. -/
structure DifferAt (cell : Nat) (heap other : Heap) : Prop where
  nextSerial : other.nextSerial = heap.nextSerial
  size : other.cells.size = heap.cells.size
  elsewhere : ∀ d, d ≠ cell → other.cell d = heap.cell d
  frozen : other.isFrozen cell = heap.isFrozen cell
  rebound : (other.cell cell).rebound = (heap.cell cell).rebound

theorem differAt_holding (heap : Heap) (cell : Nat) (content : Option Pattern) :
    DifferAt cell heap (heap.holding cell content) where
  nextSerial := rfl
  size := Array.size_modify
  elsewhere d hd := by simp [holding, cell_modify, hd.symm]
  frozen := by
    simp only [isFrozen, holding, cell_modify]
    split <;> rfl
  rebound := by
    simp only [holding, cell_modify]
    split <;> rfl

theorem eq_of_cells (nextSerial : other.nextSerial = heap.nextSerial)
    (size : other.cells.size = heap.cells.size) (cells : ∀ d, other.cell d = heap.cell d) :
    other = heap := by
  obtain ⟨cells', _⟩ := other
  obtain ⟨cells'', _⟩ := heap
  obtain rfl := nextSerial
  congr
  apply Array.ext size
  intro d hd hd'
  simpa [cell, hd, hd'] using cells d

theorem cell_settle_self (h : cell < heap.cells.size) (p : Pattern) :
    (heap.settle cell p).cell cell =
      ⟨some p, true, (heap.cell cell).rebound || heap.isFrozen cell⟩ := by
  have hbound : (heap.bind cell p).cell cell =
      ⟨some p, heap.isFrozen cell, (heap.cell cell).rebound || heap.isFrozen cell⟩ := by
    rw [bind, cell_modify, if_pos ⟨rfl, h⟩]
    rfl
  rw [settle, freeze, cell_modify, if_pos ⟨rfl, by rwa [size_bind]⟩, hbound]

namespace DifferAt

theorem reaches_eq (h : DifferAt cell heap other) (edges : Edges) (p : Pattern) :
    other.reaches edges p (.cell cell) = heap.reaches edges p (.cell cell) := by
  apply reaches_of_elsewhere
  intro d hd
  simp only [grammar, h.elsewhere d hd]

theorem shape_eq (h : DifferAt cell heap other) (body : Pattern) :
    other.shape cell body = heap.shape cell body := by
  simp only [shape, alternationShape, h.reaches_eq]

theorem enter (h : DifferAt cell heap other) (p : Pattern) :
    (other.enter p).1 = (heap.enter p).1 ∧
      DifferAt cell (heap.enter p).2 (other.enter p).2 := by
  have hstamp : p.stamp other.nextSerial = p.stamp heap.nextSerial := by rw [h.nextSerial]
  refine ⟨congrArg (·.1) hstamp, ?_⟩
  exact ⟨congrArg (·.2) hstamp, h.size, h.elsewhere, h.frozen, h.rebound⟩

/-- Once the cell is settled there is no difference left. -/
theorem settle_eq (h : DifferAt cell heap other) (p : Pattern) :
    other.settle cell p = heap.settle cell p := by
  have hsize : (other.settle cell p).cells.size = (heap.settle cell p).cells.size := by
    rw [size_settle, size_settle, h.size]
  refine eq_of_cells h.nextSerial hsize ?_
  intro d
  by_cases hd : d = cell
  · subst d
    by_cases hlive : cell < heap.cells.size
    · rw [cell_settle_self hlive, cell_settle_self (h.size ▸ hlive), h.rebound, h.frozen]
    · have hdead : (heap.settle cell p).cells.size ≤ cell := by
        rw [size_settle]
        exact Nat.not_lt.mp hlive
      rw [cell_of_size_le hdead, cell_of_size_le (hsize ▸ hdead)]
  · rw [cell_settle_ne (Ne.symm hd), cell_settle_ne (Ne.symm hd), h.elsewhere d hd]

theorem resolveRecursive_eq {placeholder : Placeholder}
    (h : DifferAt placeholder.cell heap other) (body : Pattern) (shape : RecursionShape) :
    other.resolveRecursive body placeholder shape = heap.resolveRecursive body placeholder shape := by
  obtain ⟨hgrammar, hentered⟩ := h.enter (body.eliminate placeholder.cell shape)
  simp only [resolveRecursive, hgrammar, hentered.settle_eq]

theorem resolve_eq {placeholder : Placeholder} (h : DifferAt placeholder.cell heap other)
    (body : Pattern) (requireRecursion : Bool) :
    other.resolve body placeholder requireRecursion =
      heap.resolve body placeholder requireRecursion := by
  simp only [resolve, h.shape_eq, h.settle_eq, h.resolveRecursive_eq]

end DifferAt

/-! ## Resolving in turn -/

/-- Resolves rules in turn, each of them with its own cell emptied first. -/
def resolveRulesAlone (heap : Heap) :
    List Rule → Except ResolveError (List (String × Pattern)) × Heap
  | [] => (.ok [], heap)
  | rule :: rest =>
    match (heap.holding rule.placeholder.cell none).resolve rule.body rule.placeholder false with
    | .error error => (.error error, heap)
    | .ok (p, heap) =>
      let (p, heap) := heap.enter (p.named rule.name)
      let (others, heap) := heap.resolveRulesAlone rest
      (others.map ((rule.name, p) :: ·), heap)

theorem resolveRulesAlone_eq (heap : Heap) (rules : List Rule) :
    heap.resolveRulesAlone rules = heap.resolveRules rules := by
  induction rules generalizing heap with
  | nil => rfl
  | cons rule rest ih =>
    have hturn := (heap.differAt_holding rule.placeholder.cell none).resolve_eq rule.body false
    rw [resolveRulesAlone, resolveRules, hturn]
    cases heap.resolve rule.body rule.placeholder false with
    | error error => rfl
    | ok pair => simp only [ih]

/-- Heaps that differ only in what one cell holds, which may be nothing, its own body or anything
else, find the same shape for a body of that cell and resolve it alike: with the same error, or with
the same result and the same heap. So a rule whose turn comes while a rule set is finished, and whose
cell is bound to its body by then, is resolved as if its cell were empty, and a whole run comes to
the same when every cell is emptied before its turn. -/
theorem resolve_ignores_own_cell (heap : Heap) :
    (∀ other placeholder body, DifferAt placeholder.cell heap other →
      other.shape placeholder.cell body = heap.shape placeholder.cell body ∧
      ∀ requireRecursion, other.resolve body placeholder requireRecursion =
        heap.resolve body placeholder requireRecursion) ∧
    (∀ (rules : RuleSet) (handles : List (String × Pattern)), rules.Assembled heap handles →
      ∀ before rule rest, rules.defined = before ++ rule :: rest →
      ∀ first midway, (heap.bindBodies rules.defined).resolveRules before = (.ok first, midway) →
        midway.grammar rule.placeholder.cell = some rule.body ∧
        (midway.holding rule.placeholder.cell none).grammar rule.placeholder.cell = none ∧
        (midway.holding rule.placeholder.cell none).resolve rule.body rule.placeholder false =
          midway.resolve rule.body rule.placeholder false) ∧
    ∀ rules, heap.resolveRulesAlone rules = heap.resolveRules rules := by
  refine ⟨?_, ?_, heap.resolveRulesAlone_eq⟩
  · intro other placeholder body h
    exact ⟨h.shape_eq body, h.resolve_eq body⟩
  · intro rules handles built before rule rest hsplit first midway hrun
    have hwell := built.wellFormed
    have hprovisional := provisional_bindBodies heap hwell.cells_nodup
      fun rule hrule => hwell.live_of_mem hrule
    rw [hsplit] at hprovisional hrun
    have hbound := (hprovisional.after hrun).bound rule List.mem_cons_self
    refine ⟨hbound, ?_, (midway.differAt_holding _ none).resolve_eq rule.body false⟩
    have hlive := lt_size_of_grammar hbound
    rw [grammar, holding, cell_modify, if_pos ⟨rfl, hlive⟩]

/-- The second cell leads back to the first. -/
def circling : Heap where
  cells := #[{}, { grammar := some (.inOrder [.reference 0, .ofText "y"]) }]

def circlingBody : Pattern :=
  .anyOf [.inOrder [.reference 0, .ofText "x"], .reference 1, .ofText "n"]

theorem resolve_ignores_own_cell_circling :
    circling.shape 0 circlingBody = .left ∧
      ∃ result later, circling.resolve circlingBody ⟨0⟩ true = .ok (result, later) ∧
        (circling.holding 0 (some circlingBody)).resolve circlingBody ⟨0⟩ true =
          .ok (result, later) ∧
        (circling.holding 0 (some (.reference 1))).resolve circlingBody ⟨0⟩ true =
          .ok (result, later) := by
  have hignores := (resolve_ignores_own_cell circling).1
  have hbody := hignores _ ⟨0⟩ circlingBody (circling.differAt_holding 0 (some circlingBody))
  have hcircle := hignores _ ⟨0⟩ circlingBody (circling.differAt_holding 0 (some (.reference 1)))
  exact ⟨by decide, _, _, rfl, hbody.2 true, hcircle.2 true⟩

end Heap
end PatternGraph
