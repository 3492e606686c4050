import PatternGraph.GuardedRecursion
import PatternGraph.Inspection
import PatternGraph.Proofs.CellGraph
import PatternGraph.Proofs.LookedThrough
import PatternGraph.Proofs.SearchExactness
import PatternGraph.Proofs.UnfoldingInvariance

/-!
# Every walk over a heap ends

The walks guard themselves by different things. Measuring, compiling and inspecting keep the cells
that they stand inside, a comparison the pairs of cells, looking through keeps the nodes that it
has followed, and a search all that it has met. Each of them is a guarded recursion, or a guarded
search, that ends: a bound cell is one of the heap's, so that the keys that open are finitely many,
however the cells lead to one another. The functions that carry a fuel give the results.
-/

namespace PatternGraph
set_option autoImplicit false

/-! ## Answers that a tree depends on -/

namespace Pattern

theorem Alike.of_mentions {cells : Nat → Nat → Prop} {p : Pattern}
    (h : ∀ c, p.Mentions c → cells c c) : p.Alike cells p := by
  induction p with
  | literal tag text => exact rfl
  | characterClass tag cls => exact rfl
  | alternation tag elements ih =>
    refine allAlike_iff.mpr (List.forall₂_same.mpr fun p hp => ih p hp fun c hc => ?_)
    exact h c (.alternation hp hc)
  | concatenation tag elements ih =>
    refine allAlike_iff.mpr (List.forall₂_same.mpr fun p hp => ih p hp fun c hc => ?_)
    exact h c (.concatenation hp hc)
  | repetition tag inner min max ih => exact ⟨rfl, rfl, ih fun c hc => h c (.repetition hc)⟩
  | latch tag target ih => exact ih fun c hc => h c (.latch hc)
  | recursion tag cell => exact h cell (.recursion tag)

theorem inspectWith_congr {atCell atCell' : Nat → String} {p : Pattern}
    (h : ∀ c, p.Mentions c → atCell c = atCell' c) :
    p.inspectWith atCell = p.inspectWith atCell' := by
  have part : ∀ q : Pattern, q.inspectWith atCell = q.inspectWith atCell' →
      q.inspectPart atCell = q.inspectPart atCell' := by
    intro q hq
    simp only [inspectPart, hq]
  induction p with
  | literal tag text => rfl
  | characterClass tag cls => rfl
  | alternation tag elements ih =>
    have hparts : ∀ q ∈ elements, q.inspectPart atCell = q.inspectPart atCell' :=
      fun q hq => part q (ih q hq fun c hc => h c (.alternation hq hc))
    simp only [inspectWith, inspectParts_eq_map, List.map_congr_left hparts]
  | concatenation tag elements ih =>
    have hparts : ∀ q ∈ elements, q.inspectPart atCell = q.inspectPart atCell' :=
      fun q hq => part q (ih q hq fun c hc => h c (.concatenation hq hc))
    simp only [inspectWith, inspectParts_eq_map, List.map_congr_left hparts]
  | repetition tag inner min max ih =>
    simp only [inspectWith, ih fun c hc => h c (.repetition hc)]
  | latch tag target ih => simp only [inspectWith, ih fun c hc => h c (.latch hc)]
  | recursion tag cell => exact h cell (.recursion tag)

theorem agreesAll_congr {atCells atCells' : Nat → Nat → Bool} {ps qs : List Pattern}
    (each : ∀ p ∈ ps, ∀ q ∈ qs, p.agrees atCells q = p.agrees atCells' q) :
    agreesAll atCells ps qs = agreesAll atCells' ps qs := by
  induction ps generalizing qs with
  | nil => cases qs <;> rfl
  | cons p ps ih =>
    cases qs with
    | nil => rfl
    | cons q qs =>
      have hrest := ih fun p hp q hq => each p (.tail _ hp) q (.tail _ hq)
      simp only [agreesAll, each p List.mem_cons_self q List.mem_cons_self, hrest]

theorem agrees_congr {atCells atCells' : Nat → Nat → Bool} {p q : Pattern}
    (h : ∀ c d, p.Mentions c → q.Mentions d → atCells c d = atCells' c d) :
    p.agrees atCells q = p.agrees atCells' q := by
  induction p generalizing q with
  | literal tag text => cases q <;> simp only [agrees]
  | characterClass tag cls => cases q <;> simp only [agrees]
  | alternation tag elements ih =>
    cases q with
    | alternation tag' elements' =>
      have each : ∀ p ∈ elements, ∀ q ∈ elements', p.agrees atCells q = p.agrees atCells' q :=
        fun p hp q hq => ih p hp fun c d hc hd =>
          h c d (.alternation hp hc) (.alternation hq hd)
      simp only [agrees, agreesAll_congr each]
    | _ => simp only [agrees]
  | concatenation tag elements ih =>
    cases q with
    | concatenation tag' elements' =>
      have each : ∀ p ∈ elements, ∀ q ∈ elements', p.agrees atCells q = p.agrees atCells' q :=
        fun p hp q hq => ih p hp fun c d hc hd =>
          h c d (.concatenation hp hc) (.concatenation hq hd)
      simp only [agrees, agreesAll_congr each]
    | _ => simp only [agrees]
  | repetition tag inner min max ih =>
    cases q with
    | repetition tag' inner' min' max' =>
      simp only [agrees, ih fun c d hc hd => h c d (.repetition hc) (.repetition hd)]
    | _ => simp only [agrees]
  | latch tag target ih =>
    cases q with
    | latch tag' target' =>
      simp only [agrees, ih fun c d hc hd => h c d (.latch hc) (.latch hd)]
    | _ => simp only [agrees]
  | recursion tag cell =>
    cases q with
    | recursion tag' cell' => simp only [agrees, h cell cell' (.recursion tag) (.recursion tag')]
    | _ => simp only [agrees]

end Pattern

/-! ## Walks that stand inside cells -/

namespace Walk
variable {β : Type} {walk : Walk β} {heap : Heap}

/-- The walk over a tree asks for no answers but those at cells that the tree mentions. -/
def Local (walk : Walk β) : Prop :=
  ∀ atCell atCell' p, (∀ c, p.Mentions c → atCell c = atCell' c) →
    walk.onTree atCell p = walk.onTree atCell' p

/-- The walk as it goes from cell to cell. -/
def recursion (walk : Walk β) (hlocal : walk.Local) (heap : Heap) :
    GuardedRecursion Nat Pattern β where
  opens := heap.grammar
  onRepeat := walk.onRepeat
  onShut _ := walk.onUnbound
  asks p c := p.Mentions c
  onNode := walk.onTree
  onNode_congr := hlocal _ _ _

theorem atCell_eq_run (hlocal : walk.Local) (fuel : Nat) : ∀ inside c,
    walk.atCell heap.grammar fuel inside c = (walk.recursion hlocal heap).run fuel inside c := by
  induction fuel with
  | zero =>
    intro _ _
    rfl
  | succ fuel ih =>
    intro inside c
    by_cases hmet : c ∈ inside
    · rw [walk.atCell_of_mem _ _ hmet, GuardedRecursion.run_of_mem _ _ hmet]
      rfl
    · cases hbound : heap.grammar c with
      | none =>
        rw [walk.atCell_unbound fuel hmet hbound, GuardedRecursion.run_shut _ fuel hmet hbound]
        rfl
      | some p =>
        rw [walk.atCell_bound fuel hmet hbound, GuardedRecursion.run_opened _ fuel hmet hbound,
          funext (ih _)]
        rfl

/-- What is worked out from the answers at the cells a pattern mentions. -/
theorem ends {p : Pattern} (hlocal : walk.Local) (onStart : (Nat → β) → β)
    (onStart_congr : ∀ {atCell atCell' : Nat → β}, (∀ c, p.Mentions c → atCell c = atCell' c) →
      onStart atCell = onStart atCell') :
    (walk.recursion hlocal heap).Ends (List.range heap.cells.size) (fun c => p.Mentions c) onStart
      (onStart (walk.atCell heap.grammar (heap.cells.size + 1) [])) := by
  have hsupply : (walk.recursion hlocal heap).Supplies (fun _ => True)
      (List.range heap.cells.size) := by
    refine ⟨?_, fun _ _ _ _ _ _ => trivial⟩
    intro c p _ hbound
    exact List.mem_range.mpr (Heap.lt_size_of_grammar hbound)
  have hends := hsupply.ends_run (fun _ _ => trivial) onStart_congr
  rw [List.length_range] at hends
  rwa [funext (atCell_eq_run hlocal _ _)]

end Walk

theorem widthWalk_local : widthWalk.Local :=
  fun _ _ _ h => Pattern.widthWith_alike (.of_mentions h)

theorem fragmentWalk_local : fragmentWalk.Local :=
  fun _ _ _ h => Pattern.fragmentWith_alike (.of_mentions h)

theorem inspectionWalk_local : inspectionWalk.Local := by
  intro atCell atCell' p h
  simp only [inspectionWalk, Pattern.inspectPart, Pattern.inspectWith_congr h]

namespace Heap
variable {heap : Heap} {p q : Pattern}

/-! ## Comparisons that stand inside pairs of cells -/

/-- The comparison as it goes from pair to pair. Two different cells that are both bound open; any
other pair is decided where it is met. -/
def comparison (heap : Heap) : GuardedRecursion (Nat × Nat) (Pattern × Pattern) Bool where
  opens pair :=
    if pair.1 = pair.2 then none
    else match heap.grammar pair.1, heap.grammar pair.2 with
      | some p, some q => some (p, q)
      | _, _ => none
  onRepeat := true
  onShut pair := pair.1 = pair.2 ∨ heap.grammar pair.1 = none ∧ heap.grammar pair.2 = none
  asks node pair := node.1.Mentions pair.1 ∧ node.2.Mentions pair.2
  onNode atPair node := node.1.agrees (fun c d => atPair (c, d)) node.2
  onNode_congr h := Pattern.agrees_congr fun c d hc hd => h (c, d) ⟨hc, hd⟩

theorem comparison_opens_eq_some_iff {c d : Nat} : heap.comparison.opens (c, d) = some (p, q) ↔
    c ≠ d ∧ heap.grammar c = some p ∧ heap.grammar d = some q := by
  by_cases hcd : c = d
  · simp [comparison, hcd]
  · cases hc : heap.grammar c <;> cases hd : heap.grammar d <;> simp [comparison, hcd, hc, hd]

theorem cellsAgree_eq_run (fuel : Nat) : ∀ underWay c d,
    cellsAgree heap.grammar fuel underWay c d = heap.comparison.run fuel underWay (c, d) := by
  induction fuel with
  | zero =>
    intro _ _ _
    rfl
  | succ fuel ih =>
    intro underWay c d
    have hbelow : ∀ pairs, cellsAgree heap.grammar fuel pairs =
        fun c d => heap.comparison.run fuel pairs (c, d) :=
      fun pairs => funext fun c => funext fun d => ih pairs c d
    by_cases hmet : (c, d) ∈ underWay
    · rw [GuardedRecursion.run_of_mem _ _ hmet]
      simp [cellsAgree, hmet, comparison]
    · cases hopens : heap.comparison.opens (c, d) with
      | some node =>
        obtain ⟨hcd, hc, hd⟩ := comparison_opens_eq_some_iff.mp hopens
        rw [GuardedRecursion.run_opened _ fuel hmet hopens]
        simp [cellsAgree, hmet, hcd, hc, hd, hbelow, comparison]
      | none =>
        rw [GuardedRecursion.run_shut _ fuel hmet hopens]
        by_cases hcd : c = d
        · simp [cellsAgree, hcd, comparison]
        · cases hc : heap.grammar c with
          | none => cases hd : heap.grammar d <;> simp [cellsAgree, hmet, hcd, hc, hd, comparison]
          | some p =>
            cases hd : heap.grammar d with
            | none => simp [cellsAgree, hmet, hcd, hc, hd, comparison]
            | some q =>
              have hboth := comparison_opens_eq_some_iff.mpr ⟨hcd, hc, hd⟩
              exact absurd (hboth.symm.trans hopens) (Option.some_ne_none _)

/-- All pairs of cells of the heap. -/
def cellPairs (heap : Heap) : List (Nat × Nat) :=
  List.range heap.cells.size ×ˢ List.range heap.cells.size

theorem comparison_ends (heap : Heap) (p q : Pattern) :
    heap.comparison.Ends heap.cellPairs (fun pair => p.Mentions pair.1 ∧ q.Mentions pair.2)
      (fun atPair => p.agrees (fun c d => atPair (c, d)) q) (heap.equal p q) := by
  have hsupply : heap.comparison.Supplies (fun _ => True) heap.cellPairs := by
    refine ⟨?_, fun _ _ _ _ _ _ => trivial⟩
    rintro ⟨c, d⟩ ⟨p, q⟩ _ hopens
    obtain ⟨_, hc, hd⟩ := comparison_opens_eq_some_iff.mp hopens
    simpa [cellPairs] using ⟨lt_size_of_grammar hc, lt_size_of_grammar hd⟩
  have hsize : heap.cellPairs.length = heap.cells.size * heap.cells.size := by
    rw [cellPairs, List.length_product, List.length_range]
  have hresult : heap.equal p q =
      p.agrees (fun c d => heap.comparison.run (heap.cellPairs.length + 1) [] (c, d)) q := by
    simp only [equal, hsize, ← cellsAgree_eq_run]
  rw [hresult]
  refine hsupply.ends_run (fun _ _ => trivial) ?_
  intro atPair atPair' h
  exact Pattern.agrees_congr fun c d hc hd => h (c, d) ⟨hc, hd⟩

/-! ## Looking through stands inside nodes -/

instance (p : Pattern) : Decidable p.IsPlain := inferInstanceAs (Decidable (_ ∧ _))

/-- Latches and recursions as they are followed from node to node, by what is remembered of them. -/
def lookingThrough (heap : Heap) : GuardedRecursion Pattern Pattern (Option Pattern) where
  opens := heap.target
  onRepeat := none
  onShut _ := none
  asks p mark := ¬ p.IsPlain ∧ mark = p.mark
  onNode atMark p := if p.IsPlain then some p else atMark p.mark
  onNode_congr h := by
    split
    · rfl
    · exact h _ ⟨‹_›, rfl⟩

/-- The second pattern is what the first one, a latch or a bound recursion, stands for. -/
def Follows (heap : Heap) (p q : Pattern) : Prop := heap.target p = some q

theorem target_of_isPlain (h : p.IsPlain) : heap.target p = none := by
  cases p with
  | latch => exact absurd rfl h.1
  | recursion => exact absurd rfl h.2
  | _ => rfl

theorem target_mark (heap : Heap) (p : Pattern) : heap.target p.mark = heap.target p := by
  cases p <;> rfl

namespace Follows
variable {r : Pattern}

theorem of_mark (hmark : p.mark = q.mark) (h : heap.Follows p r) : heap.Follows q r := by
  unfold Follows
  rw [← target_mark, ← hmark, target_mark]
  exact h

theorem unique (hq : heap.Follows p q) (hr : heap.Follows p r) : q = r :=
  Option.some.inj (hq.symm.trans hr)

theorem reaches (h : heap.Follows p q) : heap.Reaches .all p q := by
  refine .of_element ?_ (.refl q)
  cases p with
  | latch tag inner =>
    obtain rfl : inner = q := Option.some.inj h
    exact List.mem_singleton.mpr rfl
  | recursion tag cell => exact Option.mem_toList.mpr h
  | _ => exact absurd h nofun

theorem underlying_eq (h : heap.Follows p q) : heap.underlying p = heap.underlying q := by
  cases p with
  | latch tag inner =>
    obtain rfl : inner = q := Option.some.inj h
    exact underlying_latch heap tag inner
  | recursion tag cell => exact underlying_recursion h tag
  | _ => exact absurd h nofun

/-- What comes round to itself still does so one step on. -/
theorem circular (h : heap.Follows p q) (hcircle : Relation.TransGen heap.Follows p p) :
    Relation.TransGen heap.Follows q q := by
  obtain ⟨r, hr, hback⟩ := Relation.TransGen.head'_iff.mp hcircle
  obtain rfl := h.unique hr
  exact .tail' hback h

end Follows

theorem LooksThrough.not_circular (h : heap.LooksThrough p q) :
    ¬ Relation.TransGen heap.Follows p p := by
  induction h with
  | @here p plain =>
    intro hcircle
    obtain ⟨r, hr, _⟩ := Relation.TransGen.head'_iff.mp hcircle
    exact absurd ((target_of_isPlain plain).symm.trans hr) nofun
  | @latch tag p _ _ ih =>
    intro hcircle
    have hnext : heap.Follows (.latch tag p) p := rfl
    exact ih (hnext.circular hcircle)
  | @recursion tag cell p _ bound _ ih =>
    intro hcircle
    have hnext : heap.Follows (.recursion tag cell) p := bound
    exact ih (hnext.circular hcircle)

theorem underlying_of_circular (h : Relation.TransGen heap.Follows p p) :
    heap.underlying p = none := by
  cases hunder : heap.underlying p with
  | none => rfl
  | some target => exact absurd h (looksThrough_of_underlying hunder).not_circular

theorem underlying_of_unbound (hplain : ¬ p.IsPlain) (h : heap.target p = none) :
    heap.underlying p = none := by
  cases hunder : heap.underlying p with
  | none => rfl
  | some target =>
    cases looksThrough_of_underlying hunder with
    | here plain => exact absurd plain hplain
    | latch _ => exact absurd h nofun
    | recursion bound _ => exact absurd (bound.symm.trans h) nofun

/-- Inside nodes that all lead to `q`, the answer is what stands behind `q`. -/
theorem answers_lookingThrough {allowed : List Pattern → Prop} {inside : List Pattern}
    {mark : Pattern} {answer : Option Pattern}
    (h : heap.lookingThrough.Answers allowed inside mark answer) :
    ∀ q : Pattern, mark = q.mark → ¬ q.IsPlain →
      (∀ other ∈ inside, ∃ r : Pattern, r.mark = other ∧ Relation.TransGen heap.Follows r q) →
      answer = heap.underlying q := by
  induction h with
  | repeated met =>
    rintro q rfl _ hinside
    obtain ⟨r, hmark, hleads⟩ := hinside _ met
    obtain ⟨next, hnext, hback⟩ := Relation.TransGen.head'_iff.mp hleads
    exact (underlying_of_circular (.head' (hnext.of_mark hmark) hback)).symm
  | shut _ closed =>
    rintro q rfl hplain _
    exact (underlying_of_unbound hplain ((target_mark heap q).symm.trans closed)).symm
  | @opened inside mark node answers _ opened _ _ ih =>
    rintro q rfl hplain hinside
    have hnext : heap.Follows q node := (target_mark heap q).symm.trans opened
    rw [hnext.underlying_eq]
    by_cases hnode : node.IsPlain
    · rw [underlying_of_isPlain hnode]
      exact if_pos hnode
    · refine (if_neg hnode).trans (ih node.mark ⟨hnode, rfl⟩ node rfl hnode ?_)
      refine List.forall_mem_cons.mpr ⟨⟨q, rfl, .single hnext⟩, ?_⟩
      intro other hother
      obtain ⟨r, hmark, hleads⟩ := hinside other hother
      exact ⟨r, hmark, hleads.tail hnext⟩

theorem computes_lookingThrough {allowed : List Pattern → Prop} {result : Option Pattern}
    (h : heap.lookingThrough.Computes allowed (heap.lookingThrough.asks p)
      (fun atMark => heap.lookingThrough.onNode atMark p) result) :
    result = heap.underlying p := by
  obtain ⟨answers, hanswers, rfl⟩ := h
  by_cases hp : p.IsPlain
  · rw [underlying_of_isPlain hp]
    exact if_pos hp
  · have hbelow := answers_lookingThrough (hanswers p.mark ⟨hp, rfl⟩) p rfl hp nofun
    exact (if_neg hp).trans hbelow

theorem lookingThrough_ends (heap : Heap) (p : Pattern) :
    heap.lookingThrough.Ends (heap.reachedMarks .all p) (heap.lookingThrough.asks p)
      (fun atMark => heap.lookingThrough.onNode atMark p) (heap.underlying p) := by
  have hsupply : heap.lookingThrough.Supplies
      (fun mark => ∃ q, heap.Reaches .all p q ∧ mark = q.mark) (heap.reachedMarks .all p) := by
    refine ⟨?_, ?_⟩
    · rintro _ node ⟨q, hq, rfl⟩ _
      exact mark_mem_reachedMarks hq
    · rintro _ node ⟨q, hq, rfl⟩ hopens other hother
      have hnext : heap.Follows q node := (target_mark heap q).symm.trans hopens
      exact ⟨node, hq.trans hnext.reaches, hother.2⟩
  have hasked : ∀ mark, heap.lookingThrough.asks p mark →
      ∃ q, heap.Reaches .all p q ∧ mark = q.mark := fun mark hmark => ⟨p, .refl p, hmark.2⟩
  have hcomputes := (hsupply.ends_run hasked heap.lookingThrough.onNode_congr).1
  rw [computes_lookingThrough hcomputes] at hcomputes
  exact ⟨hcomputes, fun _ hother => computes_lookingThrough hother⟩

/-! ## All walks -/

/-- On every heap, whichever way its cells lead round, each walk comes to an end and its result is
the function's: the searches, from a pattern and from its successors, measuring, compiling,
inspecting, comparing and looking through. On the way a search marks different nodes that can be
reached, a walk stands inside different cells of the heap, a comparison inside different pairs of
them, and looking through inside different nodes that can be reached. -/
theorem walks_end (heap : Heap) (p q : Pattern) :
    (∀ edges, heap.SearchEnds edges q.identity p [] [p] (heap.reaches edges p q.identity)) ∧
    (∀ edges, heap.SearchEnds edges p.identity p [p.mark] (heap.successors edges p)
      (heap.returns edges p)) ∧
    (widthWalk.recursion widthWalk_local heap).Ends (List.range heap.cells.size)
      (fun c => p.Mentions c) (fun widths => p.widthWith widths) (heap.width p) ∧
    (fragmentWalk.recursion fragmentWalk_local heap).Ends (List.range heap.cells.size)
      (fun c => p.Mentions c) (fun fragments => p.fragmentWith fragments) (heap.fragment p) ∧
    (inspectionWalk.recursion inspectionWalk_local heap).Ends (List.range heap.cells.size)
      (fun c => p.Mentions c) (fun texts => p.inspectWith texts) (heap.inspectBody p) ∧
    heap.comparison.Ends heap.cellPairs (fun pair => p.Mentions pair.1 ∧ q.Mentions pair.2)
      (fun verdicts => p.agrees (fun c d => verdicts (c, d)) q) (heap.equal p q) ∧
    heap.lookingThrough.Ends (heap.reachedMarks .all p) (heap.lookingThrough.asks p)
      (fun found => heap.lookingThrough.onNode found p) (heap.underlying p) :=
  ⟨fun edges => searchEnds_reaches edges p q.identity, fun edges => searchEnds_returns edges p,
    Walk.ends widthWalk_local _ (widthWalk_local _ _ _),
    Walk.ends fragmentWalk_local _ (fragmentWalk_local _ _ _),
    Walk.ends inspectionWalk_local _ Pattern.inspectWith_congr,
    comparison_ends heap p q, lookingThrough_ends heap p⟩

end Heap
end PatternGraph
