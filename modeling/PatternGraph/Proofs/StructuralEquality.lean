import Mathlib.Data.List.ProdSigma
import Mathlib.Logic.Relation
import PatternGraph.Bisimilarity
import PatternGraph.ReachedSet
import PatternGraph.Equality

/-!
# Equality is bisimilarity

Two patterns compare equal exactly when they are bisimilar, so equality is an equivalence relation
on every heap. A comparison that succeeds has only shown that two cells agree if the pairs whose
comparison is under way do. `OwedAlike` keeps those pairs apart as a debt: a pair that is compared
against itself pays for itself once its comparison is over, and nothing is owed at the outermost
pair.
-/

namespace PatternGraph
set_option autoImplicit false

namespace Pattern

/-- A node without its children; a recursion is known by nothing but what it is bound to. -/
inductive Node where
  | literal (text : String)
  | characterClass (cls : CharacterClass)
  | alternation
  | concatenation
  | repetition (min : Nat) (max : Option Nat)
  | latch
  | recursion

def node : Pattern → Node
  | .literal _ text => .literal text
  | .characterClass _ cls => .characterClass cls
  | .alternation .. => .alternation
  | .concatenation .. => .concatenation
  | .repetition _ _ min max => .repetition min max
  | .latch .. => .latch
  | .recursion .. => .recursion

mutual
/-- The trees agree, names and serial numbers aside, where `cells` compares two recursions. -/
def Alike (cells : Nat → Nat → Prop) : Pattern → Pattern → Prop
  | .literal _ a, .literal _ b => a = b
  | .characterClass _ a, .characterClass _ b => a = b
  | .alternation _ as, .alternation _ bs => AllAlike cells as bs
  | .concatenation _ as, .concatenation _ bs => AllAlike cells as bs
  | .repetition _ a min max, .repetition _ b min' max' => min = min' ∧ max = max' ∧ Alike cells a b
  | .latch _ a, .latch _ b => Alike cells a b
  | .recursion _ c, .recursion _ d => cells c d
  | _, _ => False

def AllAlike (cells : Nat → Nat → Prop) : List Pattern → List Pattern → Prop
  | [], [] => True
  | a :: as, b :: bs => Alike cells a b ∧ AllAlike cells as bs
  | _, _ => False
end

variable {cells others : Nat → Nat → Prop}

theorem allAlike_iff {ps qs : List Pattern} :
    AllAlike cells ps qs ↔ List.Forall₂ (Alike cells) ps qs := by
  induction ps generalizing qs with
  | nil => cases qs <;> simp [AllAlike]
  | cons p ps ih => cases qs <;> simp [AllAlike, ih]

theorem forall₂_imp_of_mem {α β : Type} {related others : α → β → Prop} {ps : List α}
    {qs : List β} (h : List.Forall₂ related ps qs)
    (each : ∀ p ∈ ps, ∀ q, related p q → others p q) :
    List.Forall₂ others ps qs :=
  ((List.forall₂_and_left _ _).mpr ⟨each, h⟩).imp fun _ q hboth => hboth.1 q hboth.2

/-- Induction on two trees that agree, with one case for each form that both can have. -/
theorem Alike.induction {motive : Pattern → Pattern → Prop}
    (literal : ∀ tag tag' text, motive (.literal tag text) (.literal tag' text))
    (characterClass : ∀ tag tag' cls, motive (.characterClass tag cls) (.characterClass tag' cls))
    (alternation : ∀ tag tag' ps qs, List.Forall₂ motive ps qs →
      motive (.alternation tag ps) (.alternation tag' qs))
    (concatenation : ∀ tag tag' ps qs, List.Forall₂ motive ps qs →
      motive (.concatenation tag ps) (.concatenation tag' qs))
    (repetition : ∀ tag tag' p q min max, motive p q →
      motive (.repetition tag p min max) (.repetition tag' q min max))
    (latch : ∀ tag tag' p q, motive p q → motive (.latch tag p) (.latch tag' q))
    (recursion : ∀ tag tag' c d, cells c d → motive (.recursion tag c) (.recursion tag' d))
    {p q : Pattern} (h : p.Alike cells q) : motive p q := by
  induction p generalizing q with
  | literal tag text =>
    cases q with
    | literal tag' text' =>
      obtain rfl : text = text' := h
      exact literal tag tag' text
    | _ => exact h.elim
  | characterClass tag cls =>
    cases q with
    | characterClass tag' cls' =>
      obtain rfl : cls = cls' := h
      exact characterClass tag tag' cls
    | _ => exact h.elim
  | alternation tag ps ih =>
    cases q with
    | alternation tag' qs =>
      exact alternation tag tag' ps qs
        (forall₂_imp_of_mem (allAlike_iff.mp h) fun p hp q hq => ih p hp hq)
    | _ => exact h.elim
  | concatenation tag ps ih =>
    cases q with
    | concatenation tag' qs =>
      exact concatenation tag tag' ps qs
        (forall₂_imp_of_mem (allAlike_iff.mp h) fun p hp q hq => ih p hp hq)
    | _ => exact h.elim
  | repetition tag inner min max ih =>
    cases q with
    | repetition tag' inner' min' max' =>
      obtain ⟨rfl, rfl, hinner⟩ := h
      exact repetition tag tag' inner inner' min max (ih hinner)
    | _ => exact h.elim
  | latch tag target ih =>
    cases q with
    | latch tag' target' => exact latch tag tag' target target' (ih h)
    | _ => exact h.elim
  | recursion tag c =>
    cases q with
    | recursion tag' d => exact recursion tag tag' c d h
    | _ => exact h.elim

theorem Alike.mono (weaker : ∀ c d, cells c d → others c d) {p q : Pattern}
    (h : p.Alike cells q) : p.Alike others q := by
  refine Alike.induction (motive := Alike others)
    ?literal ?characterClass ?alternation ?concatenation ?repetition ?latch ?recursion h
  case literal | characterClass => exact fun _ _ _ => rfl
  case alternation | concatenation => exact fun _ _ _ _ hall => allAlike_iff.mpr hall
  case repetition => exact fun _ _ _ _ _ _ hinner => ⟨rfl, rfl, hinner⟩
  case latch => exact fun _ _ _ _ htarget => htarget
  case recursion => exact fun _ _ c d hcd => weaker c d hcd

theorem Alike.of_refl (hrefl : ∀ c, cells c c) (p : Pattern) : p.Alike cells p := by
  induction p with
  | literal tag text => exact rfl
  | characterClass tag cls => exact rfl
  | alternation tag elements ih => exact allAlike_iff.mpr (List.forall₂_same.mpr ih)
  | concatenation tag elements ih => exact allAlike_iff.mpr (List.forall₂_same.mpr ih)
  | repetition tag inner min max ih => exact ⟨rfl, rfl, ih⟩
  | latch tag target ih => exact ih
  | recursion tag cell => exact hrefl cell

mutual
/-- Where every cell agrees with itself, comparing sameness first makes no difference. -/
theorem agrees_iff {atCells : Nat → Nat → Bool} (hrefl : ∀ c, atCells c c = true) :
    ∀ p q : Pattern, p.agrees atCells q = true ↔ p.Alike (fun c d => atCells c d = true) q
  | p, q => by
    by_cases hsame : p = q
    · subst q
      simp only [agrees_self, true_iff]
      exact .of_refl hrefl p
    · unfold agrees
      simp only [beq_eq_false_iff_ne.mpr hsame, Bool.false_or]
      cases p with
      | literal => cases q <;> simp [Alike]
      | characterClass => cases q <;> simp [Alike]
      | alternation tag elements => cases q <;> simp [Alike, agreesAll_iff hrefl elements]
      | concatenation tag elements => cases q <;> simp [Alike, agreesAll_iff hrefl elements]
      | repetition tag inner => cases q <;> simp [Alike, agrees_iff hrefl inner, and_assoc]
      | latch tag target => cases q <;> simp [Alike, agrees_iff hrefl target]
      | recursion => cases q <;> simp [Alike]

theorem agreesAll_iff {atCells : Nat → Nat → Bool} (hrefl : ∀ c, atCells c c = true) :
    ∀ ps qs : List Pattern,
      agreesAll atCells ps qs = true ↔ AllAlike (fun c d => atCells c d = true) ps qs
  | [], qs => by cases qs <;> simp [agreesAll, AllAlike]
  | p :: ps, qs => by
    cases qs <;> simp [agreesAll, AllAlike, agrees_iff hrefl p, agreesAll_iff hrefl ps]
end

/-! ## Copies -/

theorem alike_withTag (tag : Tag) (p : Pattern) : (p.withTag tag).Alike Eq p := by
  have hself := Alike.of_refl (fun _ => rfl) p
  cases p <;> exact hself

mutual
theorem alike_stamp : ∀ (p : Pattern) (next : Nat), (p.stamp next).1.Alike Eq p
  | .literal ⟨serial, _⟩ _, _ => by cases serial <;> exact rfl
  | .characterClass ⟨serial, _⟩ _, _ => by cases serial <;> exact rfl
  | .alternation ⟨serial, _⟩ elements, next => by
    cases serial with
    | none => simpa only [stamp, Alike] using alike_stampAll elements (next + 1)
    | some _ => exact .of_refl (fun _ => rfl) _
  | .concatenation ⟨serial, _⟩ elements, next => by
    cases serial with
    | none => simpa only [stamp, Alike] using alike_stampAll elements (next + 1)
    | some _ => exact .of_refl (fun _ => rfl) _
  | .repetition ⟨serial, _⟩ inner _ _, next => by
    cases serial with
    | none => simpa only [stamp, Alike, true_and] using alike_stamp inner (next + 1)
    | some _ => exact .of_refl (fun _ => rfl) _
  | .latch ⟨serial, _⟩ target, next => by
    cases serial with
    | none => simpa only [stamp, Alike] using alike_stamp target (next + 1)
    | some _ => exact .of_refl (fun _ => rfl) _
  | .recursion ⟨serial, _⟩ _, _ => by cases serial <;> exact rfl

theorem alike_stampAll : ∀ (elements : List Pattern) (next : Nat),
    AllAlike Eq (stampAll elements next).1 elements
  | [], _ => trivial
  | p :: rest, next => by
    simp only [stampAll, AllAlike]
    exact ⟨alike_stamp p next, alike_stampAll rest _⟩
end

theorem alike_enter (heap : Heap) (p : Pattern) : (heap.enter p).1.Alike Eq p :=
  alike_stamp p heap.nextSerial

theorem alike_enter_named (heap : Heap) (name : String) (p : Pattern) :
    (heap.enter (p.named name)).1.Alike Eq p := by
  have h := alike_enter heap (p.named name)
  generalize (heap.enter (p.named name)).1 = copy at h ⊢
  cases copy <;> cases p <;> exact h

end Pattern

/-! ## Bisimulations between cells -/

namespace Heap
variable {heap : Heap} {cells others : Nat → Nat → Prop}

/-- Both cells are unbound, or both are bound to trees that agree. -/
def BoundAlike (heap : Heap) (cells : Nat → Nat → Prop) (c d : Nat) : Prop :=
  match heap.grammar c, heap.grammar d with
  | some p, some q => p.Alike cells q
  | none, none => True
  | _, _ => False

theorem BoundAlike.mono (weaker : ∀ c d, cells c d → others c d) {c d : Nat}
    (h : heap.BoundAlike cells c d) : heap.BoundAlike others c d := by
  unfold BoundAlike at h ⊢
  cases hc : heap.grammar c <;> cases hd : heap.grammar d <;> simp only [hc, hd] at h ⊢
  exact h.mono weaker

theorem BoundAlike.of_refl (hrefl : ∀ c, cells c c) (c : Nat) : heap.BoundAlike cells c c := by
  unfold BoundAlike
  cases heap.grammar c with
  | none => trivial
  | some p => exact .of_refl hrefl p

/-- A relation between cells that one step of unfolding preserves. -/
def IsCellBisimulation (heap : Heap) (cells : Nat → Nat → Prop) : Prop :=
  ∀ c d, cells c d → heap.BoundAlike cells c d

theorem IsBisimulation.alike {related : Pattern → Pattern → Prop} (h : heap.IsBisimulation related)
    {p q : Pattern} (hpq : related p q) :
    p.Alike (fun c d => ∃ tag tag', related (.recursion tag c) (.recursion tag' d)) q := by
  have hstep := h p q hpq
  induction p generalizing q with
  | literal tag text => cases q <;> exact hstep
  | characterClass tag cls => cases q <;> exact hstep
  | alternation tag elements ih =>
    cases q with
    | alternation tag' elements' =>
      apply Pattern.allAlike_iff.mpr
      exact Pattern.forall₂_imp_of_mem hstep fun p hp q hq => ih p hp hq (h p q hq)
    | _ => exact hstep
  | concatenation tag elements ih =>
    cases q with
    | concatenation tag' elements' =>
      apply Pattern.allAlike_iff.mpr
      exact Pattern.forall₂_imp_of_mem hstep fun p hp q hq => ih p hp hq (h p q hq)
    | _ => exact hstep
  | repetition tag inner min max ih =>
    cases q with
    | repetition tag' inner' min' max' =>
      obtain ⟨hmin, hmax, hinner⟩ := hstep
      exact ⟨hmin, hmax, ih hinner (h _ _ hinner)⟩
    | _ => exact hstep
  | latch tag target ih =>
    cases q with
    | latch tag' target' => exact ih hstep (h _ _ hstep)
    | _ => exact hstep
  | recursion tag cell =>
    cases q with
    | recursion tag' cell' => exact ⟨tag, tag', hpq⟩
    | _ => exact hstep

theorem IsCellBisimulation.isBisimulation (h : heap.IsCellBisimulation cells) :
    heap.IsBisimulation (Pattern.Alike cells) := by
  intro p q hpq
  cases p with
  | literal tag text => cases q <;> exact hpq
  | characterClass tag cls => cases q <;> exact hpq
  | alternation tag elements =>
    cases q with
    | alternation tag' elements' => exact Pattern.allAlike_iff.mp hpq
    | _ => exact hpq
  | concatenation tag elements =>
    cases q with
    | concatenation tag' elements' => exact Pattern.allAlike_iff.mp hpq
    | _ => exact hpq
  | repetition tag inner min max => cases q <;> exact hpq
  | latch tag target => cases q <;> exact hpq
  | recursion tag cell =>
    cases q with
    | recursion tag' cell' => exact h cell cell' hpq
    | _ => exact hpq

/-- Bisimilarity asks for a relation between cells only. -/
theorem bisimilar_iff {p q : Pattern} :
    heap.Bisimilar p q ↔ ∃ cells, heap.IsCellBisimulation cells ∧ p.Alike cells q := by
  constructor
  · intro h
    obtain ⟨related, hbisimulation, hpq⟩ := h
    refine ⟨_, ?_, hbisimulation.alike hpq⟩
    intro c d hcd
    obtain ⟨tag, tag', hrelated⟩ := hcd
    have hstep : heap.SameStep related (.recursion tag c) (.recursion tag' d) :=
      hbisimulation _ _ hrelated
    unfold BoundAlike
    unfold SameStep at hstep
    cases hc : heap.grammar c <;> cases hd : heap.grammar d <;> simp only [hc, hd] at hstep ⊢
    exact hbisimulation.alike hstep
  · intro h
    obtain ⟨cells, hcells, hpq⟩ := h
    exact ⟨_, hcells.isBisimulation, hpq⟩

/-! ## An equivalence relation -/

theorem sameStep_iff {related : Pattern → Pattern → Prop} {p q : Pattern} :
    heap.SameStep related p q ↔
      p.node = q.node ∧ List.Forall₂ related (heap.elements p) (heap.elements q) := by
  cases p with
  | recursion tag c =>
    cases q with
    | recursion tag' d =>
      unfold SameStep
      cases hc : heap.grammar c <;> cases hd : heap.grammar d <;> simp [Pattern.node, elements, hc, hd]
    | _ => simp [SameStep, Pattern.node]
  | repetition => cases q <;> simp [SameStep, Pattern.node, elements, and_assoc]
  | _ => cases q <;> simp [SameStep, Pattern.node, elements]

theorem Bisimilar.refl (p : Pattern) : heap.Bisimilar p p := by
  refine ⟨Eq, ?_, rfl⟩
  rintro p _ rfl
  exact sameStep_iff.mpr ⟨rfl, List.forall₂_same.mpr fun _ _ => rfl⟩

theorem Bisimilar.symm {p q : Pattern} (h : heap.Bisimilar p q) : heap.Bisimilar q p := by
  obtain ⟨related, hbisimulation, hpq⟩ := h
  refine ⟨flip related, ?_, hpq⟩
  intro p q hqp
  obtain ⟨hnode, helements⟩ := sameStep_iff.mp (hbisimulation q p hqp)
  exact sameStep_iff.mpr ⟨hnode.symm, helements.flip⟩

theorem forall₂_comp {left right : Pattern → Pattern → Prop} {ps qs rs : List Pattern}
    (h : List.Forall₂ left ps qs) (k : List.Forall₂ right qs rs) :
    List.Forall₂ (Relation.Comp left right) ps rs := by
  induction h generalizing rs with
  | nil =>
    cases k
    exact .nil
  | cons hp _ ih =>
    cases k with
    | cons hq hrest => exact .cons ⟨_, hp, hq⟩ (ih hrest)

theorem Bisimilar.trans {p q r : Pattern} (h : heap.Bisimilar p q) (k : heap.Bisimilar q r) :
    heap.Bisimilar p r := by
  obtain ⟨left, hleft, hpq⟩ := h
  obtain ⟨right, hright, hqr⟩ := k
  refine ⟨Relation.Comp left right, ?_, ⟨q, hpq, hqr⟩⟩
  intro p r hpr
  obtain ⟨q, hpq, hqr⟩ := hpr
  obtain ⟨hnode, helements⟩ := sameStep_iff.mp (hleft p q hpq)
  obtain ⟨hnode', helements'⟩ := sameStep_iff.mp (hright q r hqr)
  exact sameStep_iff.mpr ⟨hnode.trans hnode', forall₂_comp helements helements'⟩

/-! ## Pairs of cells under way -/

/-- The two cells agree as soon as the pairs that are owed do. -/
def OwedAlike (heap : Heap) (owed : List (Nat × Nat)) (c d : Nat) : Prop :=
  ∃ cells : Nat → Nat → Prop, cells c d ∧
    ∀ a b, cells a b → heap.BoundAlike (fun a b => a = b ∨ (a, b) ∈ owed ∨ cells a b) a b

/-- A pair pays for itself: what its own comparison took for granted is no debt afterwards. -/
theorem OwedAlike.of_boundAlike {owed : List (Nat × Nat)} {c d : Nat}
    (h : heap.BoundAlike
      (fun a b => a = b ∨ (a, b) ∈ (c, d) :: owed ∨ heap.OwedAlike ((c, d) :: owed) a b) c d) :
    heap.OwedAlike owed c d := by
  refine ⟨fun a b => (a, b) = (c, d) ∨ heap.OwedAlike ((c, d) :: owed) a b, Or.inl rfl, ?_⟩
  have settle : ∀ a b, a = b ∨ (a, b) ∈ (c, d) :: owed ∨ heap.OwedAlike ((c, d) :: owed) a b →
      a = b ∨ (a, b) ∈ owed ∨ (a, b) = (c, d) ∨ heap.OwedAlike ((c, d) :: owed) a b := by
    intro a b hab
    rcases hab with hsame | howed | hrest
    · exact Or.inl hsame
    · rcases List.mem_cons.mp howed with hself | howed
      · exact Or.inr (Or.inr (Or.inl hself))
      · exact Or.inr (Or.inl howed)
    · exact Or.inr (Or.inr (Or.inr hrest))
  intro a b hab
  rcases hab with hself | hab
  · obtain ⟨rfl, rfl⟩ := Prod.mk.inj hself
    exact h.mono settle
  · obtain ⟨cells, hcells, hclosed⟩ := hab
    apply (hclosed a b hcells).mono
    intro x y hxy
    exact settle x y (hxy.imp_right (·.imp_right fun hrest => ⟨cells, hrest, hclosed⟩))

/-- The pairs whose comparison is under way are different pairs of bound cells. -/
structure UnderWay (heap : Heap) (pairs : List (Nat × Nat)) : Prop where
  nodup : pairs.Nodup
  live : ∀ pair ∈ pairs, pair.1 < heap.cells.size ∧ pair.2 < heap.cells.size

namespace UnderWay
variable {pairs : List (Nat × Nat)}

theorem nil (heap : Heap) : heap.UnderWay [] := ⟨List.nodup_nil, by simp⟩

theorem cons {c d : Nat} {p q : Pattern} (h : heap.UnderWay pairs) (hnew : (c, d) ∉ pairs)
    (hc : heap.grammar c = some p) (hd : heap.grammar d = some q) :
    heap.UnderWay ((c, d) :: pairs) := by
  refine ⟨List.nodup_cons.mpr ⟨hnew, h.nodup⟩, ?_⟩
  intro pair hpair
  rcases List.mem_cons.mp hpair with rfl | hpair
  · exact ⟨lt_size_of_grammar hc, lt_size_of_grammar hd⟩
  · exact h.live pair hpair

theorem length_le (h : heap.UnderWay pairs) :
    pairs.length ≤ heap.cells.size * heap.cells.size := by
  have hsubset : pairs ⊆ List.range heap.cells.size ×ˢ List.range heap.cells.size := by
    intro pair hpair
    obtain ⟨hfirst, hsecond⟩ := h.live pair hpair
    exact List.pair_mem_product.mpr ⟨List.mem_range.mpr hfirst, List.mem_range.mpr hsecond⟩
  have hlength := List.Nodup.length_le_of_subset h.nodup hsubset
  rwa [List.length_product, List.length_range] at hlength

end UnderWay

@[simp] theorem cellsAgree_self (grammar : Nat → Option Pattern) (fuel : Nat)
    (pairs : List (Nat × Nat)) (c : Nat) : cellsAgree grammar fuel pairs c c = true := by
  cases fuel <;> simp [cellsAgree]

/-- A comparison of cells that succeeds has shown them alike, up to what is under way. The fuel
does not run out, because no pair is entered twice. -/
theorem alike_of_cellsAgree (fuel : Nat) : ∀ (pairs : List (Nat × Nat)) (c d : Nat),
    heap.UnderWay pairs → heap.cells.size * heap.cells.size < fuel + pairs.length →
    cellsAgree heap.grammar fuel pairs c d = true →
    c = d ∨ (c, d) ∈ pairs ∨ heap.OwedAlike pairs c d := by
  induction fuel with
  | zero =>
    intro pairs c d hpairs hfuel _
    have hlength := hpairs.length_le
    omega
  | succ fuel ih =>
    intro pairs c d hpairs hfuel hagree
    by_cases hmet : c = d ∨ (c, d) ∈ pairs
    · exact hmet.imp_right Or.inl
    · apply Or.inr
      apply Or.inr
      apply OwedAlike.of_boundAlike
      simp only [cellsAgree, if_neg hmet] at hagree
      unfold BoundAlike
      cases hc : heap.grammar c with
      | none => cases hd : heap.grammar d <;> simp [hc, hd] at hagree ⊢
      | some p =>
        cases hd : heap.grammar d with
        | none => simp [hc, hd] at hagree
        | some q =>
          simp only [hc, hd] at hagree
          apply ((Pattern.agrees_iff (cellsAgree_self _ _ _) p q).mp hagree).mono
          intro a b hab
          apply ih ((c, d) :: pairs) a b (hpairs.cons (not_or.mp hmet).2 hc hd) ?_ hab
          rw [List.length_cons]
          omega

/-- Cells that a bisimulation relates are found to agree, whatever is under way. -/
theorem cellsAgree_of_bisimulation (h : heap.IsCellBisimulation cells) (fuel : Nat) :
    ∀ (pairs : List (Nat × Nat)) (c d : Nat), cells c d →
      cellsAgree heap.grammar fuel pairs c d = true := by
  induction fuel with
  | zero =>
    intro _ _ _ _
    rfl
  | succ fuel ih =>
    intro pairs c d hcd
    unfold cellsAgree
    split
    · rfl
    · have hbound := h c d hcd
      unfold BoundAlike at hbound
      cases hc : heap.grammar c <;> cases hd : heap.grammar d <;> simp only [hc, hd] at hbound ⊢
      exact (Pattern.agrees_iff (cellsAgree_self _ _ _) _ _).mpr (hbound.mono (ih _))

theorem equal_iff_bisimilar {p q : Pattern} : heap.equal p q = true ↔ heap.Bisimilar p q := by
  unfold equal
  rw [bisimilar_iff, Pattern.agrees_iff (cellsAgree_self _ _ _)]
  constructor
  · intro h
    -- Nothing is under way, so the cells that were found to agree are a bisimulation.
    refine ⟨fun a b => a = b ∨ heap.OwedAlike [] a b, ?_, ?_⟩
    · intro a b hab
      rcases hab with rfl | ⟨cells, hcells, hclosed⟩
      · exact .of_refl (fun _ => Or.inl rfl) a
      · apply (hclosed a b hcells).mono
        intro x y hxy
        rcases hxy with hsame | hnone | hrest
        · exact Or.inl hsame
        · exact absurd hnone List.not_mem_nil
        · exact Or.inr ⟨cells, hrest, hclosed⟩
    · apply h.mono
      intro a b hab
      rcases alike_of_cellsAgree _ [] a b (.nil heap) (by simp) hab with hsame | hnone | howed
      · exact Or.inl hsame
      · exact absurd hnone List.not_mem_nil
      · exact Or.inr howed
  · intro h
    obtain ⟨cells, hcells, hpq⟩ := h
    exact hpq.mono (cellsAgree_of_bisimulation hcells _ [])

/-- Equality holds exactly between patterns with the same unfolding, on every heap, and is
therefore an equivalence relation. -/
theorem equal_iff_bisimilar_and_equivalence (heap : Heap) :
    (∀ p q, heap.equal p q = true ↔ heap.Bisimilar p q) ∧
      Equivalence fun p q => heap.equal p q = true := by
  refine ⟨fun p q => equal_iff_bisimilar, ?_, ?_, ?_⟩
  · intro p
    exact equal_iff_bisimilar.mpr (.refl p)
  · intro p q hpq
    exact equal_iff_bisimilar.mpr (equal_iff_bisimilar.mp hpq).symm
  · intro p q r hpq hqr
    exact equal_iff_bisimilar.mpr
      ((equal_iff_bisimilar.mp hpq).trans (equal_iff_bisimilar.mp hqr))

end Heap
end PatternGraph
