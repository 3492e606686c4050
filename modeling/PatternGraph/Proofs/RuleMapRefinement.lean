import PatternGraph.Proofs.DefinitionOrder
import PatternGraph.Proofs.RenumberedRun
import PatternGraph.Proofs.RuleCalls

/-!
# A rule table refines a map

Finishing comes to what the map says as well. The earliest mentioned name without a body is
reported before anything happens. After that only a rule that is a mere reference to itself can
stand in the way. Otherwise the grammar holds every defined rule once, in the order of the
definitions, and all cells are settled. In which order the names were mentioned makes a difference
to the numbers of the cells only, so references to names that are defined anyway do not change the
grammar.
-/

namespace PatternGraph
set_option autoImplicit false

/-- The grammar has one rule for each of the names, and all ways to look at it agree. -/
structure GrammarTable.Holds (grammar : GrammarTable) (names : List String) : Prop where
  order : grammar.rules.map (·.1) = names
  once : names.Nodup
  named : ∀ name p, (name, p) ∈ grammar.rules → p.name = some name
  get : ∀ name p, grammar.get? name = some p ↔ (name, p) ∈ grammar.rules
  contains : ∀ name, grammar.contains name = true ↔ name ∈ names
  size : grammar.size = names.length
  isEmpty : grammar.isEmpty = true ↔ grammar.size = 0

/-- What finishing may come to for the rules of a map. -/
inductive RuleMap.Finished (map : RuleMap) (cell? : String → Option Nat) (heap : Heap) :
    Except ResolveError GrammarTable × Heap → Prop where
  | undefined {name : String} (missing : map.undefined? = some name) :
      Finished map cell? heap (.error (.undefinedRule name), heap)
  | unproductive {later : Heap} (complete : map.undefined? = none)
      (stuck : map.RefersToItself cell?) : Finished map cell? heap (.error .unproductive, later)
  | resolved {grammar : GrammarTable} {later : Heap} (complete : map.undefined? = none)
      (productive : ¬map.RefersToItself cell?) (holds : grammar.Holds (map.bodies.map (·.1)))
      (stands : ∀ name p, (name, p) ∈ grammar.rules → ∃ cell, cell? name = some cell ∧
        later.StandsFor cell p)
      (settled : ∀ name cell, cell? name = some cell →
        later.isBound cell = true ∧ later.isFrozen cell = true) :
      Finished map cell? heap (.ok grammar, later)

namespace RuleSet
variable {rules : RuleSet} {heap : Heap} {handles : List (String × Pattern)}

theorem exists_rule_of_complete (built : rules.Assembled heap handles)
    (complete : rules.undefined? = none) {name : String} {placeholder : Placeholder}
    (hname : rules.placeholder? name = some placeholder) :
    ∃ rule ∈ rules.defined, rule.name = name ∧ rule.placeholder = placeholder := by
  have hmember : name ∈ rules.mentioned.map (·.1) :=
    List.mem_map_of_mem (f := Prod.fst) (mem_of_placeholder? hname)
  have hdefined : rules.isDefined name = true := by
    simpa using List.find?_eq_none.mp complete name hmember
  obtain ⟨rule, hrule, hsame⟩ := List.any_eq_true.mp hdefined
  have howned := built.wellFormed.owned rule hrule
  rw [beq_iff_eq] at hsame
  rw [hsame, hname, Option.some.injEq] at howned
  exact ⟨rule, hrule, hsame, howned.symm⟩

theorem Assembled.frozen_of_resolveRules (built : rules.Assembled heap handles)
    {stored : List (String × Pattern)} {later : Heap}
    (hrun : (heap.bindBodies rules.defined).resolveRules rules.defined = (.ok stored, later)) :
    ∀ rule ∈ rules.defined, later.isBound rule.placeholder.cell = true ∧
      later.isFrozen rule.placeholder.cell = true := by
  refine Heap.frozen_of_resolveRules built.owns.apart (fun rule hrule => ?_) hrun
  exact Nat.lt_of_lt_of_le (built.owns.live rule hrule)
    (heap.spends_bindBodies built.owns.apart).size_le

end RuleSet

theorem GrammarTable.holds_ofRules {rules : List Rule} {stored : List (String × Pattern)}
    (once : (rules.map (·.name)).Nodup) (hstored : List.Forall₂
      (fun rule entry => entry.1 = rule.name ∧ entry.2.name = some rule.name) rules stored) :
    (GrammarTable.ofRules stored).Holds (rules.map (·.name)) := by
  have horder : stored.map (·.1) = rules.map (·.name) :=
    map_eq_map_iff_forall₂.mpr (hstored.flip.imp fun _ _ hentry => hentry.1)
  have hnodup : (stored.map (·.1)).Nodup := horder ▸ once
  refine ⟨horder, once, ?_, fun name p => get?_ofRules hnodup, ?_, ?_, ?_⟩
  · intro name p hmember
    obtain ⟨rule, _, hname, hnamed⟩ := exists_of_mem_left hstored.flip hmember
    exact hnamed.trans (congrArg some hname.symm)
  · intro name
    rw [contains_ofRules hnodup, horder]
  · rw [← horder, List.length_map]
    rfl
  · exact List.isEmpty_iff_length_eq_zero

namespace RuleTable
variable {table : RuleTable} {rules : RuleSet} {heap : Heap} {handles : List (String × Pattern)}
  {history : List (RuleCall × RuleAnswer)}

namespace Tracks

theorem undefined?_eq (h : Tracks history table heap rules handles) :
    (RuleMap.ofHistory history).undefined? = rules.undefined? := by
  rw [← h.map, RuleSet.undefined?_toMap]

theorem cell?_of_mem (h : Tracks history table heap rules handles) {rule : Rule}
    (hrule : rule ∈ rules.defined) : table.cell? rule.name = some rule.placeholder.cell :=
  h.cell?_iff.mpr (h.built.wellFormed.owned rule hrule)

theorem refersToItself_iff (h : Tracks history table heap rules handles) :
    (RuleMap.ofHistory history).RefersToItself table.cell? ↔
      ∃ rule ∈ rules.defined, rule.body.isReferenceTo rule.placeholder.cell = true := by
  rw [← h.map]
  constructor
  · rintro ⟨_, hmember, cell, hcell, hself⟩
    obtain ⟨rule, hrule, rfl⟩ := List.mem_map.mp hmember
    obtain rfl := Option.some.inj ((h.cell?_of_mem hrule).symm.trans hcell)
    exact ⟨rule, hrule, hself⟩
  · rintro ⟨rule, hrule, hself⟩
    exact ⟨_, List.mem_map_of_mem hrule, _, h.cell?_of_mem hrule, hself⟩

theorem finished (h : Tracks history table heap rules handles) :
    (RuleMap.ofHistory history).Finished table.cell? heap (table.finish heap) := by
  rw [h.represents.finish h.built]
  unfold RuleSet.finish
  cases hundefined : rules.undefined? with
  | some name => exact .undefined (h.undefined?_eq.trans hundefined)
  | none =>
    have hcomplete := h.undefined?_eq.trans hundefined
    rcases (heap.bindBodies rules.defined).resolveRules_cases rules.defined with
      ⟨stored, later, hrun, hproductive⟩ | ⟨before, rule, rest, later, hrun, hstuck⟩
    · rw [hrun]
      have hstands := Heap.storedFor_of_resolveRules h.built.owns.provisional hrun
      have hnames : rules.defined.map (·.name) =
          (RuleMap.ofHistory history).bodies.map (·.1) := by
        rw [← h.map, RuleSet.toMap, List.map_map]
        rfl
      refine .resolved hcomplete ?_ ?_ ?_ ?_
      · rw [h.refersToItself_iff]
        rintro ⟨rule, hrule, hself⟩
        rw [hproductive rule hrule] at hself
        exact absurd hself (by decide)
      · rw [← hnames]
        exact GrammarTable.holds_ofRules h.built.wellFormed.once (Heap.name_of_resolveRules hrun)
      · intro name p hmember
        obtain ⟨rule, hrule, rfl, hstored⟩ := exists_of_mem_left hstands.flip hmember
        exact ⟨_, h.cell?_of_mem hrule, hstored.standsFor⟩
      · intro name cell hcell
        obtain ⟨rule, hrule, _, hplaceholder⟩ :=
          RuleSet.exists_rule_of_complete h.built hundefined (h.cell?_iff.mp hcell)
        have hsettled := h.built.frozen_of_resolveRules hrun rule hrule
        rwa [hplaceholder] at hsettled
    · rw [hrun]
      refine .unproductive hcomplete (h.refersToItself_iff.mpr ⟨rule, ?_, hstuck.selfReference⟩)
      rw [hstuck.split]
      exact List.mem_append_right _ List.mem_cons_self

end Tracks
end RuleTable

/-! ## References that are not needed -/

def RuleCall.renumber (number : Nat → Nat) : RuleCall → RuleCall
  | .define name body => .define name (body.renumber number)
  | call => call

/-- The calls of two runs are the same up to the numbers of cells, but for references to names that
are defined anyway, which the second run makes in addition. -/
inductive Extended (f g : Nat → Nat) (defined : String → Prop) :
    List (RuleCall × RuleAnswer) → List (RuleCall × RuleAnswer) → Prop where
  | nil : Extended f g defined [] []
  | same {call call' : RuleCall} {answer answer' : RuleAnswer}
      {history history' : List (RuleCall × RuleAnswer)} (hcall : call.renumber f = call'.renumber g)
      (rest : Extended f g defined history history') :
      Extended f g defined ((call, answer) :: history) ((call', answer') :: history')
  | extra {name : String} {answer : RuleAnswer} {history history' : List (RuleCall × RuleAnswer)}
      (hname : defined name) (rest : Extended f g defined history history') :
      Extended f g defined history ((.reference name, answer) :: history')

namespace RuleMap
variable {f g : Nat → Nat} {defined : String → Prop} [DecidablePred defined] {map other : RuleMap}

/-- Maps with the same bodies up to the numbers of cells, and with the same names in the same order
but for those of the defined rules. -/
structure SameRules (f g : Nat → Nat) (defined : String → Prop) [DecidablePred defined]
    (map other : RuleMap) : Prop where
  bodies : map.bodies.map (fun rule => (rule.1, rule.2.renumber f)) =
    other.bodies.map (fun rule => (rule.1, rule.2.renumber g))
  names : map.names.filter (¬defined ·) = other.names.filter (¬defined ·)

theorem SameRules.isDefined_eq (h : SameRules f g defined map other) (name : String) :
    map.isDefined name = other.isDefined name := by
  have hnames := congrArg (List.any · (·.1 == name)) h.bodies
  simp only [List.any_map, Function.comp_def] at hnames
  exact hnames

theorem filter_mention_of_defined {name : String} (hname : defined name) :
    (map.mention name).names.filter (¬defined ·) = map.names.filter (¬defined ·) := by
  unfold mention
  split
  · rfl
  · simp [hname]

theorem SameRules.mention (h : SameRules f g defined map other) (name : String) :
    (map.mention name).names.filter (¬defined ·) =
      (other.mention name).names.filter (¬defined ·) := by
  by_cases hname : defined name
  · rw [filter_mention_of_defined hname, filter_mention_of_defined hname, h.names]
  · -- A name that is not defined is kept by the filter, so it is new to both or to neither.
    have hmember : name ∈ map.names ↔ name ∈ other.names := by
      have hfilter : name ∈ map.names.filter (¬defined ·) ↔
          name ∈ other.names.filter (¬defined ·) := by
        rw [h.names]
      simpa [hname] using hfilter
    unfold RuleMap.mention
    simp only [hmember]
    split
    · exact h.names
    · rw [List.filter_append, List.filter_append, h.names]

theorem bodies_mention (map : RuleMap) (name : String) :
    (map.mention name).bodies = map.bodies := by
  unfold mention
  split <;> rfl

theorem SameRules.after (h : SameRules f g defined map other) {call call' : RuleCall}
    (hcall : call.renumber f = call'.renumber g) :
    SameRules f g defined (map.after call) (other.after call') := by
  cases call with
  | reference name =>
    cases call' with
    | reference name' =>
      obtain rfl := RuleCall.reference.inj hcall
      refine ⟨?_, h.mention name⟩
      rw [RuleMap.after, RuleMap.after, bodies_mention, bodies_mention]
      exact h.bodies
    | _ => exact RuleCall.noConfusion hcall
  | define name body =>
    cases call' with
    | define name' body' =>
      obtain ⟨rfl, hbody⟩ := RuleCall.define.inj hcall
      rw [RuleMap.after, RuleMap.after, ← h.isDefined_eq]
      split
      · exact h
      · refine ⟨?_, h.mention name⟩
        rw [List.map_append, List.map_append, h.bodies, List.map_singleton, List.map_singleton,
          hbody]
    | _ => exact RuleCall.noConfusion hcall
  | isDefined name =>
    cases call' with
    | isDefined => exact h
    | _ => exact RuleCall.noConfusion hcall

theorem SameRules.foldl {history history' : List (RuleCall × RuleAnswer)}
    (hextended : Extended f g defined history history') (h : SameRules f g defined map other) :
    SameRules f g defined (history.foldl (fun map entry => map.after entry.1) map)
      (history'.foldl (fun map entry => map.after entry.1) other) := by
  induction hextended generalizing map other with
  | nil => exact h
  | same hcall _ ih => exact ih (h.after hcall)
  | @extra name _ _ _ hname _ ih =>
    refine ih ⟨h.bodies.trans ?_, h.names.trans ?_⟩
    · exact congrArg _ (bodies_mention other name).symm
    · exact (filter_mention_of_defined hname).symm

theorem SameRules.undefined?_eq (h : SameRules f g (map.isDefined · = true) map other) :
    map.undefined? = other.undefined? := by
  have hsame : other.isDefined = map.isDefined := funext fun name => (h.isDefined_eq name).symm
  have hnames := congrArg List.head? h.names
  rw [List.head?_filter, List.head?_filter] at hnames
  unfold undefined?
  rw [hsame]
  simpa using hnames

end RuleMap

/-- The grammar with other numbers for all cells. -/
def GrammarTable.renumber (number : Nat → Nat) (grammar : GrammarTable) : GrammarTable :=
  { grammar with rules := grammar.rules.map fun rule => (rule.1, rule.2.renumber number) }

theorem GrammarTable.renumber_ofRules (number : Nat → Nat) (rules : List (String × Pattern)) :
    (ofRules rules).renumber number =
      ofRules (rules.map fun rule => (rule.1, rule.2.renumber number)) := by
  simp only [renumber, ofRules, List.zipIdx_map, List.foldl_map, Prod.map_fst, Prod.map_snd, id]

namespace RuleTable
variable {f g : Nat → Nat} {table other : RuleTable} {heap heap' : Heap} {rules rules' : RuleSet}
  {handles handles' : List (String × Pattern)} {history history' : List (RuleCall × RuleAnswer)}

/-- The cells of one name get the same number, and other cells that get the same number are bound
alike. -/
structure SameNumbering (f g : Nat → Nat) (table other : RuleTable) (heap heap' : Heap) : Prop where
  left : Function.Injective f
  right : Function.Injective g
  owned : ∀ name c d, table.cell? name = some c → other.cell? name = some d → f c = g d
  elsewhere : ∀ c d, f c = g d → (∀ name, table.cell? name ≠ some c) →
    (heap.grammar c).map (Pattern.renumber f) = (heap'.grammar d).map (Pattern.renumber g)

namespace Tracks

section
variable (h : Tracks history table heap rules handles)
  (h' : Tracks history' other heap' rules' handles')
  (numbering : SameNumbering f g table other heap heap')
  (same : RuleMap.SameRules f g ((RuleMap.ofHistory history).isDefined · = true)
    (RuleMap.ofHistory history) (RuleMap.ofHistory history'))
include h h' numbering same

theorem map_renumber :
    rules.defined.map (Rule.renumber f) = rules'.defined.map (Rule.renumber g) := by
  have hbodies := same.bodies
  rw [← h.map, ← h'.map] at hbodies
  simp only [RuleSet.toMap, List.map_map] at hbodies
  have hpartners := Pattern.forall₂_imp_of_mem (map_eq_map_iff_forall₂.mp hbodies).flip
    fun partner hpartner rule hpair => (⟨hpartner, hpair⟩ : partner ∈ rules'.defined ∧ _)
  apply map_eq_map_iff_forall₂.mpr
  refine Pattern.forall₂_imp_of_mem hpartners.flip ?_
  rintro rule hrule partner ⟨hpartner, hpair⟩
  have hname : rule.name = partner.name := congrArg Prod.fst hpair
  have hbody : rule.body.renumber f = partner.body.renumber g := congrArg Prod.snd hpair
  have hcell : table.cell? partner.name = some rule.placeholder.cell :=
    hname ▸ h.cell?_of_mem hrule
  exact Rule.renumber_eq_iff.mpr
    ⟨hname, numbering.owned _ _ _ hcell (h'.cell?_of_mem hpartner), hbody⟩

theorem reordered (complete : rules.undefined? = none) :
    Heap.Reordered f g heap heap' rules.defined rules'.defined where
  left := numbering.left
  right := numbering.right
  permuted := by rw [h.map_renumber h' numbering same]
  elsewhere := by
    intro c d hcd hnone
    apply numbering.elsewhere c d hcd
    intro name hcell
    obtain ⟨rule, hrule, _, hplaceholder⟩ :=
      RuleSet.exists_rule_of_complete h.built complete (h.cell?_iff.mp hcell)
    exact hnone rule hrule (congrArg Placeholder.cell hplaceholder)

/-- Both runs come to the same, with the same grammar up to the numbers. -/
theorem finish_eq : (table.finish heap).1.map (GrammarTable.renumber f) =
    (other.finish heap').1.map (GrammarTable.renumber g) := by
  have hundefined : rules'.undefined? = rules.undefined? := by
    rw [← h.undefined?_eq, ← h'.undefined?_eq, same.undefined?_eq]
  rw [h.represents.finish h.built, h'.represents.finish h'.built]
  unfold RuleSet.finish
  rw [hundefined]
  cases hcomplete : rules.undefined? with
  | some name => rfl
  | none =>
    have howns := h.built.owns
    have howns' := h'.built.owns
    have hunder := (h.reordered h' numbering same hcomplete).sameUnder howns howns'
    have hrules := h.map_renumber h' numbering same
    rcases (heap.bindBodies rules.defined).resolveRules_cases rules.defined with
      ⟨stored, later, hrun, _⟩ | ⟨_, _, _, later, hrun, _⟩
    · obtain ⟨stored', later', hrun', hstored, _⟩ :=
        hunder.resolveRules howns.provisional howns'.provisional hrules hrun
      rw [hrun, hrun']
      show Except.ok ((GrammarTable.ofRules stored).renumber f) =
        Except.ok ((GrammarTable.ofRules stored').renumber g)
      rw [GrammarTable.renumber_ofRules, GrammarTable.renumber_ofRules, hstored]
    · rcases (heap'.bindBodies rules'.defined).resolveRules_cases rules'.defined with
        ⟨stored', later', hrun', _⟩ | ⟨_, _, _, later', hrun', _⟩
      · -- If the second run succeeded, so would the first.
        obtain ⟨_, _, hother, _⟩ :=
          hunder.symm.resolveRules howns'.provisional howns.provisional hrules.symm hrun'
        rw [hrun] at hother
        exact absurd (congrArg Prod.fst hother) nofun
      · rw [hrun, hrun']
        rfl

end
end Tracks

/-- After any calls a table does what the map of its history says. Every further call is answered,
as the map allows, and a refused definition changes nothing. Each mentioned name has a cell of its
own, to which all its handles refer. Finishing comes to what the map says, and to the same as
finishing the rule set that the calls assemble. It comes to the same for another history that has
further references to names that are defined anyway. -/
theorem refines_map (reached : Reached history table heap) :
    (∀ next, ∃ answer later heap', table.call heap next = some (answer, later, heap') ∧
      (RuleMap.ofHistory history).Allows next answer ∧
      ∀ error, answer = .defined (.error error) → later = table ∧ heap' = heap) ∧
    (∀ name, (∃ cell, table.cell? name = some cell) ↔ name ∈ (RuleMap.ofHistory history).names) ∧
    (∀ name p, (RuleCall.reference name, RuleAnswer.handle p) ∈ history →
      ∃ cell, table.cell? name = some cell ∧ p.isReferenceTo cell = true) ∧
    (∀ a b cell, table.cell? a = some cell → table.cell? b = some cell → a = b) ∧
    (RuleMap.ofHistory history).Finished table.cell? heap (table.finish heap) ∧
    (∃ rules handles, Tracks history table heap rules handles ∧ table.finish heap =
      ((rules.finish heap).1.map (fun grammar => .ofRules grammar.rules), (rules.finish heap).2)) ∧
    ∀ f g history' other heap', Reached history' other heap' →
      Extended f g ((RuleMap.ofHistory history).isDefined · = true) history history' →
      SameNumbering f g table other heap heap' →
      (table.finish heap).1.map (GrammarTable.renumber f) =
        (other.finish heap').1.map (GrammarTable.renumber g) := by
  obtain ⟨rules, handles, htracks⟩ := reached.exists_tracks
  have hwell := htracks.built.wellFormed
  refine ⟨?_, ?_, ?_, ?_, htracks.finished,
    ⟨rules, handles, htracks, htracks.represents.finish htracks.built⟩, ?_⟩
  · intro next
    obtain ⟨answer, later, heap', _, _, hcall, hallows, hrefused, _⟩ := htracks.call next
    exact ⟨answer, later, heap', hcall, hallows, hrefused⟩
  · intro name
    rw [← htracks.map, ← Option.isSome_iff_exists, htracks.represents.cell?_eq, Option.isSome_map,
      Option.isSome_iff_ne_none, Ne, RuleSet.placeholder?_eq_none_iff, Decidable.not_not]
  · intro name p hmember
    obtain ⟨⟨cell⟩, hplaceholder, hreference⟩ := hwell.handed _ (htracks.handed name p hmember)
    exact ⟨cell, htracks.cell?_iff.mpr hplaceholder, hreference⟩
  · intro a b cell ha hb
    exact hwell.apart a b ⟨cell⟩ (htracks.cell?_iff.mp ha) (htracks.cell?_iff.mp hb)
  · intro f g history' other heap' hreached hextended numbering
    obtain ⟨_, _, htracks'⟩ := hreached.exists_tracks
    exact htracks.finish_eq htracks' numbering (.foldl hextended ⟨rfl, rfl⟩)

def listBody (item list : Nat) : Pattern :=
  .anyOf [.reference item, .inOrder [.ofText "(", .reference list, .ofText ")"]]

/-- Nested parentheses around an item, with the rule for the item last. -/
def listing : RuleTable where
  entries := [⟨"item", ⟨0⟩, some (.ofText "x")⟩, ⟨"list", ⟨1⟩, some (listBody 0 1)⟩]
  index := (({} : Std.TreeMap String Nat).insert "item" 0).insert "list" 1
  order := [1, 0]

/-- The same definitions after an early reference to the list. -/
def listingEarly : RuleTable where
  entries := [⟨"list", ⟨0⟩, some (listBody 1 0)⟩, ⟨"item", ⟨1⟩, some (.ofText "x")⟩]
  index := (({} : Std.TreeMap String Nat).insert "list" 0).insert "item" 1
  order := [0, 1]

def twoCellsEarly : Heap := { RuleSet.twoCells with nextSerial := 3 }

theorem cell?_listing (name : String) (cell : Nat) (h : listing.cell? name = some cell) :
    name = "item" ∧ cell = 0 ∨ name = "list" ∧ cell = 1 := by
  simp only [cell?, listing, Std.TreeMap.getElem?_insert, Std.compare_eq_iff_eq] at h
  split at h
  · simp_all
  · split at h <;> simp_all

theorem cell?_listingEarly (name : String) (cell : Nat) (h : listingEarly.cell? name = some cell) :
    name = "list" ∧ cell = 0 ∨ name = "item" ∧ cell = 1 := by
  simp only [cell?, listingEarly, Std.TreeMap.getElem?_insert, Std.compare_eq_iff_eq] at h
  split at h
  · simp_all
  · split at h <;> simp_all

theorem refines_map_listing :
    ∃ history history' p grammar grammar' later later',
      Reached history listing RuleSet.twoCells ∧
      Reached ((.reference "list", .handle p) :: history') listingEarly twoCellsEarly ∧
      listing.finish RuleSet.twoCells = (.ok grammar, later) ∧
      listingEarly.finish twoCellsEarly = (.ok grammar', later') ∧
      grammar.Holds ["list", "item"] ∧
      grammar.renumber id = grammar'.renumber (Equiv.swap 0 1) := by
  have item := @Reached.call _ _ _ _ _ (.reference "item") _ (.new {}) rfl
  have list := @Reached.call _ _ _ _ _ (.reference "list") _ item rfl
  have defined := @Reached.call _ _ _ _ _ (.define "list" (listBody 0 1)) _ list rfl
  have reached : Reached _ listing RuleSet.twoCells :=
    @Reached.call _ _ _ _ _ (.define "item" (.ofText "x")) _ defined rfl
  have early := @Reached.call _ _ _ _ _ (.reference "list") _ (.new {}) rfl
  have item' := @Reached.call _ _ _ _ _ (.reference "item") _ early rfl
  have list' := @Reached.call _ _ _ _ _ (.reference "list") _ item' rfl
  have defined' := @Reached.call _ _ _ _ _ (.define "list" (listBody 1 0)) _ list' rfl
  have reached' : Reached _ listingEarly twoCellsEarly :=
    @Reached.call _ _ _ _ _ (.define "item" (.ofText "x")) _ defined' rfl
  have unbound : ∀ c, RuleSet.twoCells.grammar c = none := fun c =>
    match c with
    | 0 | 1 | _ + 2 => rfl
  have unbound' : ∀ c, twoCellsEarly.grammar c = none := unbound
  have numbering : SameNumbering id (Equiv.swap 0 1) listing listingEarly RuleSet.twoCells
      twoCellsEarly := by
    refine ⟨Function.injective_id, Equiv.injective _, ?_, ?_⟩
    · intro name c d hc hd
      rcases cell?_listing name c hc with ⟨rfl, rfl⟩ | ⟨rfl, rfl⟩
      · rcases cell?_listingEarly _ d hd with ⟨hname, rfl⟩ | ⟨_, rfl⟩
        · exact absurd hname (by decide)
        · rfl
      · rcases cell?_listingEarly _ d hd with ⟨_, rfl⟩ | ⟨hname, rfl⟩
        · rfl
        · exact absurd hname (by decide)
    · intro c d _ _
      rw [unbound, unbound']
      rfl
  obtain ⟨_, _, _, _, hfinished, _, hsame⟩ := refines_map reached
  have finish_eq := hsame id (Equiv.swap 0 1) _ _ _ reached'
    (.extra rfl (.same rfl (.same rfl (.same rfl (.same rfl .nil))))) numbering
  obtain ⟨grammar, later, finished⟩ : ∃ grammar later,
      listing.finish RuleSet.twoCells = (.ok grammar, later) := ⟨_, _, rfl⟩
  obtain ⟨grammar', later', finished'⟩ : ∃ grammar later,
      listingEarly.finish twoCellsEarly = (.ok grammar, later) := ⟨_, _, rfl⟩
  rw [finished, finished'] at finish_eq
  rw [finished] at hfinished
  cases hfinished with
  | resolved _ _ holds =>
    exact ⟨_, _, _, grammar, grammar', later, later', reached, reached', finished, finished', holds,
      Except.ok.inj finish_eq⟩

end RuleTable
end PatternGraph
