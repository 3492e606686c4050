import PatternGraph.Proofs.Renumbering
import PatternGraph.Proofs.TableRepresentation

/-!
# Calls on a rule table

A table is used by calls that ask for a reference, define a rule or ask whether a rule is defined,
in any order. What they come to is said by a map: the names in the order in which they were
mentioned, and the body of each defined name in the order of the definitions. The map knows nothing
of entries, positions or an index. After any calls the table still tells what the map tells, so no
call leads to a fault, each is answered as the map says, and a refused one leaves no trace.
-/

namespace PatternGraph
set_option autoImplicit false

inductive RuleCall where
  | reference (name : String)
  | define (name : String) (body : Pattern)
  | isDefined (name : String)

inductive RuleAnswer where
  | handle (p : Pattern)
  | defined (outcome : Except ResolveError Unit)
  | isDefined (answer : Bool)

namespace RuleTable

/-- A call, which has no answer if the table has no entry where it looks for one. -/
def call (table : RuleTable) (heap : Heap) : RuleCall → Option (RuleAnswer × RuleTable × Heap)
  | .reference name =>
    (table.reference heap name).map fun (p, table, heap) => (.handle p, table, heap)
  | .define name body =>
    (table.define heap name body).map fun (outcome, table, heap) => (.defined outcome, table, heap)
  | .isDefined name => (table.isDefined name).map fun answer => (.isDefined answer, table, heap)

/-- The cell of a name. -/
def cell? (table : RuleTable) (name : String) : Option Nat :=
  (table.index[name]?.bind (table.entries[·]?)).map (·.placeholder.cell)

/-- The tables that come of calls, with the calls and their answers so far. -/
inductive Reached : List (RuleCall × RuleAnswer) → RuleTable → Heap → Prop where
  | new (heap : Heap) : Reached [] {} heap
  | call {history : List (RuleCall × RuleAnswer)} {table later : RuleTable} {heap heap' : Heap}
      {next : RuleCall} {answer : RuleAnswer} (before : Reached history table heap)
      (answered : table.call heap next = some (answer, later, heap')) :
      Reached (history ++ [(next, answer)]) later heap'
  /-- Other uses of the heap. -/
  | meanwhile {history : List (RuleCall × RuleAnswer)} {table : RuleTable} {heap heap' : Heap}
      (before : Reached history table heap) (kept : heap.cells.size ≤ heap'.cells.size) :
      Reached history table heap'

end RuleTable

/-! ## The map -/

/-- Names in the order in which they were mentioned first, and bodies in the order of their
definitions. -/
structure RuleMap where
  names : List String := []
  bodies : List (String × Pattern) := []

namespace RuleMap

def mention (map : RuleMap) (name : String) : RuleMap :=
  if name ∈ map.names then map else { map with names := map.names ++ [name] }

def isDefined (map : RuleMap) (name : String) : Bool := map.bodies.any (·.1 == name)

/-- The map after a call. -/
def after (map : RuleMap) : RuleCall → RuleMap
  | .reference name => map.mention name
  | .define name body =>
    if map.isDefined name then map
    else { map.mention name with bodies := map.bodies ++ [(name, body)] }
  | .isDefined _ => map

def ofHistory (history : List (RuleCall × RuleAnswer)) : RuleMap :=
  history.foldl (fun map entry => map.after entry.1) {}

/-- The earliest mentioned name without a body. -/
def undefined? (map : RuleMap) : Option String := map.names.find? (!map.isDefined ·)

/-- The answers that the map allows to a call. Which cell a handle refers to is not for the map to
say. -/
def Allows (map : RuleMap) : RuleCall → RuleAnswer → Prop
  | .reference name, .handle p => p.name = some name
  | .define name _, .defined outcome =>
    outcome = if map.isDefined name then .error (.duplicateRule name) else .ok ()
  | .isDefined name, .isDefined answer => answer = map.isDefined name
  | _, _ => False

/-- The body of a rule is a reference to the rule itself. -/
def RefersToItself (map : RuleMap) (cell? : String → Option Nat) : Prop :=
  ∃ rule ∈ map.bodies, ∃ cell, cell? rule.1 = some cell ∧ rule.2.isReferenceTo cell = true

theorem ofHistory_concat (history : List (RuleCall × RuleAnswer)) (next : RuleCall)
    (answer : RuleAnswer) :
    ofHistory (history ++ [(next, answer)]) = (ofHistory history).after next :=
  List.foldl_concat ..

end RuleMap

/-! ## The map of a rule set -/

namespace RuleSet
variable {rules later : RuleSet} {heap heap' : Heap} {name : String} {body : Pattern}

def toMap (rules : RuleSet) : RuleMap where
  names := rules.mentioned.map (·.1)
  bodies := rules.defined.map fun rule => (rule.name, rule.body)

@[simp] theorem isDefined_toMap (rules : RuleSet) (name : String) :
    rules.toMap.isDefined name = rules.isDefined name := by
  simp [toMap, RuleMap.isDefined, isDefined, List.any_map, Function.comp_def]

theorem undefined?_toMap (rules : RuleSet) : rules.toMap.undefined? = rules.undefined? := by
  simp only [RuleMap.undefined?, isDefined_toMap]
  rfl

theorem placeholder?_eq_none_iff : rules.placeholder? name = none ↔ name ∉ rules.toMap.names := by
  unfold placeholder?
  rw [List.lookup_eq_none_iff]
  simp only [toMap, bne_iff_ne, List.mem_map, not_exists, not_and]
  exact ⟨fun h pair hpair hname => h pair hpair hname.symm,
    fun h pair hpair hname => h pair hpair hname.symm⟩

theorem toMap_mention (rules : RuleSet) (heap : Heap) (name : String) :
    (rules.mention heap name).2.1.toMap = rules.toMap.mention name := by
  unfold RuleMap.mention
  rcases mention_cases rules heap name with ⟨placeholder, hname, hmention⟩ | ⟨hname, hmention⟩
  · have hmember : name ∈ rules.toMap.names := by
      apply Decidable.not_not.mp
      rw [← placeholder?_eq_none_iff, hname]
      exact nofun
    rw [hmention, if_pos hmember]
  · rw [hmention, if_neg (placeholder?_eq_none_iff.mp hname)]
    simp [toMap]

theorem toMap_define (accepted : rules.define heap name body = .ok (later, heap')) :
    later.toMap = rules.toMap.after (.define name body) := by
  obtain ⟨hundefined, -, rfl⟩ := of_define_ok accepted
  have hmention := toMap_mention rules heap name
  rw [RuleMap.after, isDefined_toMap, hundefined, if_neg (by decide), ← hmention]
  simp [toMap]

end RuleSet

/-! ## One call -/

namespace RuleTable
variable {table : RuleTable} {rules : RuleSet} {heap : Heap} {handles : List (String × Pattern)}

/-- What calls have made of a table: the rule set that it represents has been assembled by the same
calls. -/
structure Tracks (history : List (RuleCall × RuleAnswer)) (table : RuleTable) (heap : Heap)
    (rules : RuleSet) (handles : List (String × Pattern)) : Prop where
  represents : table.Represents rules
  built : rules.Assembled heap handles
  map : rules.toMap = RuleMap.ofHistory history
  handed : ∀ name p, (RuleCall.reference name, RuleAnswer.handle p) ∈ history →
    (name, p) ∈ handles

theorem Represents.cell?_eq (h : table.Represents rules) (name : String) :
    table.cell? name = (rules.placeholder? name).map (·.cell) := by
  unfold cell?
  cases hindex : table.index[name]? with
  | none =>
    rw [h.placeholder?_eq_none hindex]
    rfl
  | some position =>
    obtain ⟨entry, hentry, _, hplaceholder⟩ := h.placeholder?_of_index hindex
    rw [hplaceholder]
    simp [hentry]

namespace Tracks
variable {history : List (RuleCall × RuleAnswer)}

theorem cell?_iff (h : Tracks history table heap rules handles) {name : String} {cell : Nat} :
    table.cell? name = some cell ↔ rules.placeholder? name = some ⟨cell⟩ := by
  rw [h.represents.cell?_eq, Option.map_eq_some_iff]
  constructor
  · rintro ⟨⟨_⟩, hplaceholder, rfl⟩
    exact hplaceholder
  · exact fun hplaceholder => ⟨_, hplaceholder, rfl⟩

theorem isDefined_eq (h : Tracks history table heap rules handles) (name : String) :
    (RuleMap.ofHistory history).isDefined name = rules.isDefined name := by
  rw [← h.map, RuleSet.isDefined_toMap]

/-- An answer that is no handle adds nothing to the handles. -/
theorem handed_concat (h : Tracks history table heap rules handles) {next : RuleCall}
    {answer : RuleAnswer} (hanswer : ∀ p, answer ≠ .handle p) (name : String) (p : Pattern)
    (hmember : (RuleCall.reference name, RuleAnswer.handle p) ∈ history ++ [(next, answer)]) :
    (name, p) ∈ handles := by
  rcases List.mem_append.mp hmember with hmember | hmember
  · exact h.handed name p hmember
  · obtain ⟨_, hhandle⟩ := Prod.mk.inj (List.mem_singleton.mp hmember)
    exact absurd hhandle.symm (hanswer p)

theorem reference (h : Tracks history table heap rules handles) (name : String) :
    ∃ p later heap' rules', table.reference heap name = some (p, later, heap') ∧
      p.name = some name ∧
      Tracks (history ++ [(.reference name, .handle p)]) later heap' rules'
        ((name, p) :: handles) := by
  obtain ⟨later, hcall, hlater⟩ := h.represents.reference heap name
  refine ⟨_, later, _, _, hcall, ?_, hlater, h.built.reference name, ?_, ?_⟩
  · simp [RuleSet.reference, Pattern.name_enter]
  · rw [RuleMap.ofHistory_concat, ← h.map]
    exact rules.toMap_mention heap name
  · intro other p hmember
    rcases List.mem_append.mp hmember with hmember | hmember
    · exact List.mem_cons_of_mem _ (h.handed other p hmember)
    · obtain ⟨hname, hhandle⟩ := Prod.mk.inj (List.mem_singleton.mp hmember)
      obtain rfl := RuleCall.reference.inj hname
      obtain rfl := RuleAnswer.handle.inj hhandle
      exact List.mem_cons_self

theorem define (h : Tracks history table heap rules handles) (name : String) (body : Pattern) :
    ∃ outcome later heap' rules', table.define heap name body = some (outcome, later, heap') ∧
      outcome = (if (RuleMap.ofHistory history).isDefined name then .error (.duplicateRule name)
        else .ok ()) ∧
      (∀ error, outcome = .error error → later = table ∧ heap' = heap) ∧
      Tracks (history ++ [(.define name body, .defined outcome)]) later heap' rules' handles := by
  rw [h.isDefined_eq]
  rcases h.represents.define_cases heap name body with
    ⟨hdefined, hcall⟩ | ⟨hundefined, later, rules', heap', hcall, haccepted, hlater⟩
  · refine ⟨.error (.duplicateRule name), table, heap, rules, hcall, by rw [hdefined, if_pos rfl],
      fun _ _ => ⟨rfl, rfl⟩, h.represents, h.built, ?_, h.handed_concat nofun⟩
    rw [RuleMap.ofHistory_concat, RuleMap.after, h.isDefined_eq, hdefined, if_pos rfl, h.map]
  · refine ⟨.ok (), later, heap', rules', hcall, by rw [hundefined, if_neg (by decide)], nofun,
      hlater, h.built.define name body haccepted, ?_, h.handed_concat nofun⟩
    rw [RuleMap.ofHistory_concat, ← h.map]
    exact RuleSet.toMap_define haccepted

/-- A call is answered as the map says, and what it leaves is represented again. -/
theorem call (h : Tracks history table heap rules handles) (next : RuleCall) :
    ∃ answer later heap' rules' handles', table.call heap next = some (answer, later, heap') ∧
      (RuleMap.ofHistory history).Allows next answer ∧
      (∀ error, answer = .defined (.error error) → later = table ∧ heap' = heap) ∧
      Tracks (history ++ [(next, answer)]) later heap' rules' handles' := by
  cases next with
  | reference name =>
    obtain ⟨p, later, heap', rules', hcall, hname, htracks⟩ := h.reference name
    exact ⟨.handle p, later, heap', rules', _, by rw [RuleTable.call, hcall]; rfl, hname, nofun,
      htracks⟩
  | define name body =>
    obtain ⟨outcome, later, heap', rules', hcall, houtcome, hrefused, htracks⟩ :=
      h.define name body
    exact ⟨.defined outcome, later, heap', rules', _, by rw [RuleTable.call, hcall]; rfl, houtcome,
      fun error herror => hrefused error (RuleAnswer.defined.inj herror), htracks⟩
  | isDefined name =>
    refine ⟨.isDefined (rules.isDefined name), table, heap, rules, handles,
      by rw [RuleTable.call, h.represents.isDefined]; rfl, (h.isDefined_eq name).symm, nofun,
      h.represents, h.built, ?_, h.handed_concat nofun⟩
    rw [RuleMap.ofHistory_concat, h.map]
    rfl

end Tracks

/-- After any calls the table represents the rule set that the same calls assemble. -/
theorem Reached.exists_tracks {history : List (RuleCall × RuleAnswer)}
    (h : Reached history table heap) :
    ∃ rules handles, Tracks history table heap rules handles := by
  induction h with
  | new heap => exact ⟨{}, [], represents_new, .new heap, rfl, nofun⟩
  | call _ answered ih =>
    obtain ⟨rules, handles, htracks⟩ := ih
    obtain ⟨answer, later, heap', rules', handles', hcall, _, _, hnext⟩ := htracks.call _
    obtain ⟨rfl, hstate⟩ := Prod.mk.inj (Option.some.inj (hcall.symm.trans answered))
    obtain ⟨rfl, rfl⟩ := Prod.mk.inj hstate
    exact ⟨rules', handles', hnext⟩
  | meanwhile _ kept ih =>
    obtain ⟨rules, handles, htracks⟩ := ih
    exact ⟨rules, handles, { htracks with built := htracks.built.meanwhile kept }⟩

end RuleTable
end PatternGraph
