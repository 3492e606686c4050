import PatternGraph.GuardedSearch
import PatternGraph.ReachedSet

/-!
# The search is exact

The guarded search finds a node exactly when a path leads to one with the identity it looks for,
and so do the predicates, which gather whatever is reached. A hit lies on a path. A miss leaves no
edge open: whatever has been marked on the way, also below a sibling that missed, has successors
that are marked and not the root. Hence no path leads out of what was marked, though nodes that
share an identity are entered only once. The search comes to an end because every node that it
enters takes one more mark out of those that can be reached.
-/

namespace PatternGraph
set_option autoImplicit false

/-! ## Marks -/

namespace Pattern

theorem mark_eq_iff {p q : Pattern} : p.mark = q.mark ↔
    p = q ∨ ∃ tag tag' cell, p = .recursion tag cell ∧ q = .recursion tag' cell := by
  cases p <;> cases q <;> simp [mark, reference]

theorem identity_eq_of_mark {p q : Pattern} (h : p.mark = q.mark) : p.identity = q.identity := by
  rcases mark_eq_iff.mp h with rfl | ⟨tag, tag', cell, rfl, rfl⟩ <;> rfl

end Pattern

namespace Heap
variable {heap : Heap} {edges : Edges} {root : Identity} {allowed : List Pattern → Prop}
variable {guard pending later supply : List Pattern} {found : Bool} {p q : Pattern}

theorem successors_eq_of_mark (h : p.mark = q.mark) :
    heap.successors edges p = heap.successors edges q := by
  rcases Pattern.mark_eq_iff.mp h with rfl | ⟨tag, tag', cell, rfl, rfl⟩
  · rfl
  · cases edges <;> rfl

/-! ## What a search leaves behind -/

namespace Searches

theorem isSuffix (h : heap.Searches edges root allowed guard pending found later) :
    guard <:+ later := by
  induction h with
  | exhausted | hit _ => exact List.suffix_refl _
  | metBefore _ _ _ ih => exact ih
  | hitBelow _ _ _ _ ih => exact (List.suffix_cons _ _).trans ih
  | missedBelow _ _ _ _ _ hbelow hbeside =>
    exact (List.suffix_cons _ _).trans (hbelow.trans hbeside)

theorem allowed_later (h : heap.Searches edges root allowed guard pending found later)
    (hguard : allowed guard) : allowed later := by
  induction h with
  | exhausted | hit _ => exact hguard
  | metBefore _ _ _ ih => exact ih hguard
  | hitBelow _ _ admitted _ ih => exact ih admitted
  | missedBelow _ _ admitted _ _ hbelow hbeside => exact hbeside (hbelow admitted)

theorem exists_path (h : heap.Searches edges root allowed guard pending found later)
    (hfound : found = true) :
    ∃ p ∈ pending, ∃ q, heap.Reaches edges p q ∧ q.identity = root := by
  induction h with
  | exhausted => exact absurd hfound nofun
  | @hit _ _ p isRoot => exact ⟨p, List.mem_cons_self, p, .refl p, isRoot⟩
  | metBefore _ _ _ ih | missedBelow _ _ _ _ _ _ ih =>
    obtain ⟨q, hq, hpath⟩ := ih hfound
    exact ⟨q, List.mem_cons_of_mem _ hq, hpath⟩
  | @hitBelow _ _ _ p _ _ _ _ ih =>
    obtain ⟨q, hq, r, hpath, hr⟩ := ih hfound
    exact ⟨p, List.mem_cons_self, r, .step hq hpath, hr⟩

end Searches

/-- The siblings, and the successors of everything newly marked, are marked and not the root. -/
structure Explored (heap : Heap) (edges : Edges) (root : Identity)
    (guard pending later : List Pattern) : Prop where
  visited : ∀ p ∈ pending, p.identity ≠ root ∧ p.mark ∈ later
  closed : ∀ p, p.mark ∈ later → p.mark ∉ guard →
    ∀ q ∈ heap.successors edges p, q.identity ≠ root ∧ q.mark ∈ later

theorem Searches.explored (h : heap.Searches edges root allowed guard pending found later)
    (hfound : found = false) : heap.Explored edges root guard pending later := by
  induction h with
  | exhausted => exact ⟨nofun, fun p hlater hguard => absurd hlater hguard⟩
  | hit _ | hitBelow _ _ _ _ _ => exact absurd hfound nofun
  | metBefore other met beside ih =>
    obtain ⟨hvisited, hclosed⟩ := ih hfound
    exact ⟨List.forall_mem_cons.mpr ⟨⟨other, beside.isSuffix.subset met⟩, hvisited⟩, hclosed⟩
  | @missedBelow guard rest between later p found other new admitted below beside hbelow hbeside =>
    obtain ⟨hsuccessors, hclosedBelow⟩ := hbelow rfl
    obtain ⟨hvisited, hclosedBeside⟩ := hbeside hfound
    have hkept := beside.isSuffix.subset
    have hp : p.mark ∈ between := below.isSuffix.subset List.mem_cons_self
    refine ⟨List.forall_mem_cons.mpr ⟨⟨other, hkept hp⟩, hvisited⟩, ?_⟩
    intro q hlater hguard r hr
    by_cases hbetween : q.mark ∈ between
    · -- It was marked when `p` was entered: as `p` itself or below it.
      by_cases hself : q.mark = p.mark
      · obtain ⟨hroot, hmarked⟩ := hsuccessors r (successors_eq_of_mark hself ▸ hr)
        exact ⟨hroot, hkept hmarked⟩
      · have hnew : q.mark ∉ p.mark :: guard := by
          simpa using ⟨hself, hguard⟩
        obtain ⟨hroot, hmarked⟩ := hclosedBelow q hbetween hnew r hr
        exact ⟨hroot, hkept hmarked⟩
    · exact hclosedBeside q hlater hbetween r hr

/-- Nothing that was explored leads to the root, when the guard held no mark but the root's. -/
theorem Explored.not_reaches (h : heap.Explored edges root guard pending later)
    (hguard : ∀ p : Pattern, p.mark ∈ guard → p.identity = root) (hp : p ∈ pending)
    (hpath : heap.Reaches edges p q) : q.identity ≠ root := by
  obtain ⟨hother, hmarked⟩ := h.visited p hp
  clear hp
  induction hpath with
  | refl _ => exact hother
  | @step p next _ hnext _ ih =>
    have hnew : p.mark ∉ guard := fun hmet => hother (hguard p hmet)
    obtain ⟨hroot, hlater⟩ := h.closed p hmarked hnew next hnext
    exact ih hroot hlater

/-- A search whose guard holds no mark but the root's finds what paths lead to. -/
theorem Searches.found_iff (h : heap.Searches edges root allowed guard pending found later)
    (hguard : ∀ p : Pattern, p.mark ∈ guard → p.identity = root) :
    found = true ↔ ∃ p ∈ pending, ∃ q, heap.Reaches edges p q ∧ q.identity = root := by
  constructor
  · exact h.exists_path
  · rintro ⟨p, hp, q, hpath, hroot⟩
    by_contra hmissed
    exact (h.explored (eq_false_of_ne_true hmissed)).not_reaches hguard hp hpath hroot

theorem Searches.found_eq (h : heap.Searches edges root allowed guard pending found later)
    (hguard : ∀ p : Pattern, p.mark ∈ guard → p.identity = root) :
    found = heap.anyReaches edges pending root := by
  apply Bool.eq_iff_iff.mpr
  rw [h.found_iff hguard, anyReaches_iff]

/-! ## The search ends -/

/-- Every node among `nodes` that is entered takes one more mark, so the search comes to an end. -/
theorem exists_searches {nodes : Pattern → Prop} (marked : ∀ p, nodes p → p.mark ∈ supply)
    (closed : ∀ p, nodes p → ∀ q ∈ heap.successors edges p, nodes q) (room : Nat) :
    ∀ guard pending, GuardWithin supply guard → supply.length < room + guard.length →
      (∀ p ∈ pending, nodes p) →
      ∃ found later, heap.Searches edges root (GuardWithin supply) guard pending found later := by
  induction room with
  | zero =>
    intro guard _ hguard hroom _
    have hlength := hguard.length_le
    omega
  | succ room below =>
    intro guard pending
    induction pending generalizing guard with
    | nil =>
      intro _ _ _
      exact ⟨false, guard, .exhausted⟩
    | cons p rest beside =>
      intro hguard hroom hnodes
      obtain ⟨hp, hrest⟩ := List.forall_mem_cons.mp hnodes
      by_cases hroot : p.identity = root
      · exact ⟨true, guard, .hit hroot⟩
      · by_cases hmet : p.mark ∈ guard
        · obtain ⟨found, later, hsearch⟩ := beside guard hguard hroom hrest
          exact ⟨found, later, .metBefore hroot hmet hsearch⟩
        · have hentered := hguard.cons hmet (marked p hp)
          obtain ⟨found, between, hbelow⟩ := below (p.mark :: guard)
            (heap.successors edges p) hentered (by rw [List.length_cons]; omega) (closed p hp)
          cases found with
          | true => exact ⟨true, between, .hitBelow hroot hmet hentered hbelow⟩
          | false =>
            have hlonger := hbelow.isSuffix.length_le
            rw [List.length_cons] at hlonger
            obtain ⟨found, later, hbeside⟩ :=
              beside between (hbelow.allowed_later hentered) (by omega) hrest
            exact ⟨found, later, .missedBelow hroot hmet hentered hbelow hbeside⟩

/-- The marks of the nodes that a pattern leads to. -/
def reachedMarks (heap : Heap) (edges : Edges) (p : Pattern) : List Pattern :=
  (heap.reached edges [p]).toList.map Pattern.mark

theorem mark_mem_reachedMarks (h : heap.Reaches edges p q) :
    q.mark ∈ heap.reachedMarks edges p :=
  List.mem_map_of_mem (mem_reached_iff.mpr ⟨p, List.mem_singleton.mpr rfl, h⟩)

/-- The search has an end, at which `found` is its answer and up to which every guard holds
different marks of nodes that `start` leads to; and it has no other answer. -/
def SearchEnds (heap : Heap) (edges : Edges) (root : Identity) (start : Pattern)
    (guard pending : List Pattern) (found : Bool) : Prop :=
  (∃ later, heap.Searches edges root (GuardWithin (heap.reachedMarks edges start))
    guard pending found later) ∧
  ∀ answer later, heap.Searches edges root (fun _ => True) guard pending answer later →
    answer = found

theorem searchEnds_of_reached (edges : Edges) (start : Pattern)
    (hstarts : GuardWithin (heap.reachedMarks edges start) guard)
    (hguard : ∀ p : Pattern, p.mark ∈ guard → p.identity = root)
    (hpending : ∀ p ∈ pending, heap.Reaches edges start p) :
    heap.SearchEnds edges root start guard pending (heap.anyReaches edges pending root) := by
  have hmarked : ∀ p, heap.Reaches edges start p → p.mark ∈ heap.reachedMarks edges start :=
    fun p hp => mark_mem_reachedMarks hp
  have hclosed : ∀ p, heap.Reaches edges start p → ∀ q ∈ heap.successors edges p,
      heap.Reaches edges start q := fun p hp q hq => hp.trans (.step hq (.refl q))
  obtain ⟨found, later, hsearch⟩ : ∃ found later, heap.Searches edges root
      (GuardWithin (heap.reachedMarks edges start)) guard pending found later :=
    exists_searches hmarked hclosed _ guard pending hstarts
      (Nat.lt_add_right _ (Nat.lt_succ_self _)) hpending
  refine ⟨⟨later, hsearch.found_eq hguard ▸ hsearch⟩, ?_⟩
  intro answer later hother
  exact hother.found_eq hguard

theorem searchEnds_reaches (edges : Edges) (p : Pattern) (root : Identity) :
    heap.SearchEnds edges root p [] [p] (heap.reaches edges p root) := by
  apply searchEnds_of_reached edges p (.nil _) nofun
  intro q hq
  rw [List.mem_singleton.mp hq]
  exact .refl p

theorem searchEnds_returns (edges : Edges) (p : Pattern) :
    heap.SearchEnds edges p.identity p [p.mark] (heap.successors edges p)
      (heap.returns edges p) := by
  apply searchEnds_of_reached edges p
  · exact (GuardWithin.nil _).cons List.not_mem_nil (mark_mem_reachedMarks (.refl p))
  · intro q hq
    exact Pattern.identity_eq_of_mark (List.mem_singleton.mp hq)
  · intro q hq
    exact .step hq (.refl q)

/-! ## The predicates -/

theorem returns_iff {edges : Edges} {p : Pattern} :
    heap.returns edges p = true ↔
      ∃ q ∈ heap.successors edges p, ∃ r, heap.Reaches edges q r ∧ r.identity = p.identity :=
  anyReaches_iff

/-- The predicates hold exactly when a path of child edges leads to a node with the identity of
the root, where a path back to the pattern itself is not empty; and a search that marks each node
once and stops at the first hit gives the same answers, whatever was marked below other siblings. -/
theorem predicates_iff_path (heap : Heap) (p root : Pattern) :
    (heap.recursesInto p root = true ↔
      ∃ q, heap.Reaches .all p q ∧ q.identity = root.identity) ∧
    (heap.leftRecursesInto p root = true ↔
      ∃ q, heap.Reaches .leading p q ∧ q.identity = root.identity) ∧
    (heap.isRecursive p = true ↔ ∃ q ∈ heap.successors .all p,
      ∃ r, heap.Reaches .all q r ∧ r.identity = p.identity) ∧
    (heap.isLeftRecursive p = true ↔ ∃ q ∈ heap.successors .leading p,
      ∃ r, heap.Reaches .leading q r ∧ r.identity = p.identity) ∧
    heap.SearchEnds .all root.identity p [] [p] (heap.recursesInto p root) ∧
    heap.SearchEnds .leading root.identity p [] [p] (heap.leftRecursesInto p root) ∧
    heap.SearchEnds .all p.identity p [p.mark] (heap.successors .all p) (heap.isRecursive p) ∧
    heap.SearchEnds .leading p.identity p [p.mark] (heap.successors .leading p)
      (heap.isLeftRecursive p) :=
  ⟨reaches_iff, reaches_iff, returns_iff, returns_iff, searchEnds_reaches .all p root.identity,
    searchEnds_reaches .leading p root.identity, searchEnds_returns .all p,
    searchEnds_returns .leading p⟩

end Heap
end PatternGraph
