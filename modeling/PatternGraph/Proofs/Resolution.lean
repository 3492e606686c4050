import PatternGraph.RecursionElimination
import PatternGraph.Proofs.CellGraph

/-!
# What a resolution leaves behind

A successful resolution binds one cell, to the body itself when the body does not reach the cell
and to its eliminated form otherwise, and freezes it. It returns a reference to the cell when the
cell still reaches itself, and what the cell is bound to otherwise. Everything that later modules
need to know about a resolution is in `Resolved`; they never look at how it was carried out.
Nothing is said about resolutions that fail, because they return no heap.
-/

namespace PatternGraph
set_option autoImplicit false

namespace Pattern

@[simp] theorem isReferenceTo_withTag (cell : Nat) (tag : Tag) (p : Pattern) :
    (p.withTag tag).isReferenceTo cell = p.isReferenceTo cell := by
  cases p <;> rfl

@[simp] theorem isReferenceTo_named (cell : Nat) (name : String) (p : Pattern) :
    (p.named name).isReferenceTo cell = p.isReferenceTo cell :=
  isReferenceTo_withTag cell _ p

@[simp] theorem isReferenceTo_namedLike (cell : Nat) (model p : Pattern) :
    (model.namedLike p).isReferenceTo cell = p.isReferenceTo cell := by
  unfold namedLike
  split
  · exact isReferenceTo_named cell _ p
  · rfl

@[simp] theorem isReferenceTo_enter (cell : Nat) (heap : Heap) (p : Pattern) :
    (heap.enter p).1.isReferenceTo cell = p.isReferenceTo cell := by
  show (p.stamp heap.nextSerial).1.isReferenceTo cell = _
  obtain ⟨⟨serial, _⟩, htag⟩ : ∃ tag, p.tag = tag := ⟨_, rfl⟩
  cases p <;> cases htag <;> cases serial <;> rfl

@[simp] theorem isReferenceTo_pattern (placeholder : Placeholder) :
    placeholder.pattern.isReferenceTo placeholder.cell = true := by
  simp [Placeholder.pattern, reference, isReferenceTo]

end Pattern

namespace Heap

@[simp] theorem grammar_settle (heap : Heap) (cell : Nat) (p : Pattern) (d : Nat) :
    (heap.settle cell p).grammar d = (heap.bind cell p).grammar d :=
  grammar_freeze _ cell d

@[simp] theorem size_settle (heap : Heap) (cell : Nat) (p : Pattern) :
    (heap.settle cell p).cells.size = heap.cells.size := by
  simp [settle]

theorem cell_of_cells_eq {heap later : Heap} (h : later.cells = heap.cells) (c : Nat) :
    later.cell c = heap.cell c := by
  simp only [cell, h]

theorem grammar_of_cells_eq {heap later : Heap} (h : later.cells = heap.cells) (c : Nat) :
    later.grammar c = heap.grammar c := by
  simp only [grammar, cell_of_cells_eq h]

theorem Reaches.elsewhere {heap later : Heap} {edges : Edges} {cell : Nat}
    (h : ∀ d, d ≠ cell → later.grammar d = heap.grammar d) {p q : Pattern}
    (hpq : heap.Reaches edges p q) (hq : q.identity = .cell cell) :
    ∃ r, later.Reaches edges p r ∧ r.identity = .cell cell := by
  induction hpq with
  | refl p => exact ⟨p, .refl p, hq⟩
  | @step p next q hnext _ ih =>
    by_cases hend : p.identity = .cell cell
    · exact ⟨p, .refl p, hend⟩
    · have hsame : later.successors edges p = heap.successors edges p := by
        cases p with
        | recursion tag d =>
          have hne : d ≠ cell := fun hd => hend (congrArg Identity.cell hd)
          cases edges <;> simp [successors, elements, h d hne]
        | _ => cases edges <;> rfl
      obtain ⟨r, hr, hcell⟩ := ih hq
      exact ⟨r, .step (hsame ▸ hnext) hr, hcell⟩

/-- Whether a cell is reached does not depend on what it is bound to. -/
theorem reaches_of_elsewhere {heap later : Heap} {edges : Edges} {cell : Nat}
    (h : ∀ d, d ≠ cell → later.grammar d = heap.grammar d) (p : Pattern) :
    heap.reaches edges p (.cell cell) = later.reaches edges p (.cell cell) := by
  apply Bool.eq_iff_iff.mpr
  rw [reaches_iff, reaches_iff]
  constructor
  · rintro ⟨q, hpq, hq⟩
    exact hpq.elsewhere h hq
  · rintro ⟨q, hpq, hq⟩
    exact hpq.elsewhere (fun d hd => (h d hd).symm) hq

/-- `later` is `heap` with one cell settled, and `result` is returned for that cell. -/
structure Resolved (heap : Heap) (cell : Nat) (body grammar result : Pattern) (later : Heap) :
    Prop where
  form : (heap.shape cell body = .absent ∧ grammar = body) ∨
    grammar = (heap.enter (body.eliminate cell (heap.shape cell body))).1
  cells : later.cells = (heap.settle cell grammar).cells
  result : (later.reaches .all grammar (.cell cell) = true ∧ result.isReferenceTo cell = true) ∨
    (later.reaches .all grammar (.cell cell) = false ∧ result = grammar)

theorem not_reaches_of_absent {heap : Heap} {cell : Nat} {body : Pattern}
    (h : heap.shape cell body = .absent) : heap.reaches .all body (.cell cell) = false := by
  unfold shape alternationShape Pattern.concatenationShape at h
  grind

theorem resolved_of_absent {heap : Heap} {cell : Nat} {body : Pattern}
    (h : heap.shape cell body = .absent) :
    heap.Resolved cell body body body (heap.settle cell body) := by
  refine ⟨Or.inl ⟨h, rfl⟩, rfl, Or.inr ⟨?_, rfl⟩⟩
  rw [← not_reaches_of_absent h]
  symm
  apply reaches_of_elsewhere
  intro d hd
  rw [grammar_settle, grammar_bind_ne hd.symm]

theorem resolved_resolveRecursive (heap : Heap) (body : Pattern) (placeholder : Placeholder) :
    ∃ grammar, heap.Resolved placeholder.cell body grammar
      (heap.resolveRecursive body placeholder (heap.shape placeholder.cell body)).1
      (heap.resolveRecursive body placeholder (heap.shape placeholder.cell body)).2 := by
  refine ⟨_, Or.inr rfl, ?_, ?_⟩
  · unfold resolveRecursive
    dsimp only
    split
    · rfl
    · rfl
  · unfold resolveRecursive
    dsimp only
    split
    · rename_i hreaches
      apply Or.inl
      refine ⟨?_, by simp [referenceLike]⟩
      rw [← hreaches]
      symm
      exact reaches_congr (fun c => grammar_enter _ _ c) _ _
    · rename_i hreaches
      exact Or.inr ⟨Bool.eq_false_iff.mpr hreaches, rfl⟩

theorem exists_resolved {heap later : Heap} {body result : Pattern} {placeholder : Placeholder}
    {requireRecursion : Bool}
    (h : heap.resolve body placeholder requireRecursion = .ok (result, later)) :
    ∃ grammar, heap.Resolved placeholder.cell body grammar result later := by
  unfold resolve at h
  split at h
  · exact absurd h (by simp)
  · rename_i habsent
    split at h
    · exact absurd h (by simp)
    · obtain ⟨rfl, rfl⟩ := Prod.mk.inj (Except.ok.inj h)
      exact ⟨body, resolved_of_absent habsent⟩
  · have hpair := Except.ok.inj h
    have hresolved := heap.resolved_resolveRecursive body placeholder
    rwa [hpair] at hresolved

namespace Resolved
variable {heap later : Heap} {cell : Nat} {body grammar result : Pattern}

theorem grammar_eq (h : heap.Resolved cell body grammar result later) (d : Nat) :
    later.grammar d = (heap.bind cell grammar).grammar d := by
  rw [grammar_of_cells_eq h.cells, grammar_settle]

theorem grammar_self (h : heap.Resolved cell body grammar result later)
    (hcell : cell < heap.cells.size) : later.grammar cell = some grammar := by
  rw [h.grammar_eq, grammar_bind_self hcell]

theorem grammar_ne (h : heap.Resolved cell body grammar result later) {d : Nat} (hd : d ≠ cell) :
    later.grammar d = heap.grammar d := by
  rw [h.grammar_eq, grammar_bind_ne hd.symm]

theorem size_eq (h : heap.Resolved cell body grammar result later) :
    later.cells.size = heap.cells.size := by
  rw [h.cells, size_settle]

end Resolved
end Heap
end PatternGraph
