import PatternGraph.RuleTable
import PatternGraph.Proofs.AssembledRules
import PatternGraph.Proofs.RuleEquations

/-!
# What a rule table stands for

The entries, the index and the order of a table tell the same story three times. Whatever is called
on a table, they keep telling the same one: the entries list the mentioned names, the index finds
each of them, and the order lists the positions of those that have a body, as the rules were
defined. So a position never leads nowhere, and finishing the table is finishing the rule set that
it stands for: all cells are bound alike whatever the order of binding, and no entry that the order
names has been taken out before its turn.
-/

namespace PatternGraph
set_option autoImplicit false

theorem exists_of_mem_left {α β : Type} {related : α → β → Prop} {as : List α} {bs : List β}
    (h : List.Forall₂ related as bs) {a : α} (ha : a ∈ as) : ∃ b ∈ bs, related a b := by
  induction h with
  | nil => exact absurd ha List.not_mem_nil
  | cons hab _ ih =>
    rcases List.mem_cons.mp ha with rfl | ha
    · exact ⟨_, List.mem_cons_self, hab⟩
    · obtain ⟨b, hb, hrelated⟩ := ih ha
      exact ⟨b, List.mem_cons_of_mem _ hb, hrelated⟩

theorem nodup_of_forall₂ {α β : Type} {related : α → β → Prop} {as : List α} {bs : List β}
    (h : List.Forall₂ related as bs) (unique : ∀ a b b', related a b → related a b' → b = b')
    (hnodup : bs.Nodup) : as.Nodup := by
  induction h with
  | nil => exact List.nodup_nil
  | @cons a b as bs hab hrest ih =>
    obtain ⟨hnew, hbs⟩ := List.nodup_cons.mp hnodup
    refine List.nodup_cons.mpr ⟨?_, ih hbs⟩
    intro ha
    obtain ⟨b', hb', hab'⟩ := exists_of_mem_left hrest ha
    exact hnew (unique a b b' hab hab' ▸ hb')

namespace RuleTable

/-- The table stands for the rule set. -/
structure Represents (table : RuleTable) (rules : RuleSet) : Prop where
  mentioned : table.entries.map (fun entry => (entry.name, entry.placeholder)) = rules.mentioned
  index : ∀ (name : String) (position : Nat), table.index[name]? = some position ↔
    (table.entries.map (·.name))[position]? = some name
  order : List.Forall₂ (fun (position : Nat) (rule : Rule) =>
    table.entries[position]? = some ⟨rule.name, rule.placeholder, some rule.body⟩)
    table.order rules.defined
  bodies : ∀ (position : Nat) (entry : RuleEntry), table.entries[position]? = some entry →
    entry.body.isSome = true → position ∈ table.order

variable {table : RuleTable} {rules : RuleSet} {heap : Heap}

theorem represents_new : ({} : RuleTable).Represents {} where
  mentioned := rfl
  index := by simp
  order := .nil
  bodies := by simp

namespace Represents

theorem index_iff (h : table.Represents rules) {name : String} {position : Nat} :
    table.index[name]? = some position ↔
      ∃ entry : RuleEntry, table.entries[position]? = some entry ∧ entry.name = name := by
  rw [h.index, List.getElem?_map, Option.map_eq_some_iff]

/-- Entries of one name stand at one position. -/
theorem position_unique (h : table.Represents rules) {i j : Nat} {a b : RuleEntry}
    (ha : table.entries[i]? = some a) (hb : table.entries[j]? = some b)
    (hname : a.name = b.name) : i = j := by
  have hi : table.index[b.name]? = some i := h.index_iff.mpr ⟨a, ha, hname⟩
  have hj : table.index[b.name]? = some j := h.index_iff.mpr ⟨b, hb, rfl⟩
  exact Option.some.inj (hi.symm.trans hj)

theorem placeholder?_of_entry (h : table.Represents rules) {position : Nat} {entry : RuleEntry}
    (hentry : table.entries[position]? = some entry) :
    rules.placeholder? entry.name = some entry.placeholder := by
  have hmem : (entry.name, entry.placeholder) ∈ rules.mentioned := by
    rw [← h.mentioned]
    exact List.mem_map_of_mem (f := fun entry : RuleEntry => (entry.name, entry.placeholder))
      (List.mem_of_getElem? hentry)
  cases hlookup : rules.placeholder? entry.name with
  | none =>
    have hnone := List.lookup_eq_none_iff.mp hlookup _ hmem
    simp at hnone
  | some placeholder =>
    have hother := RuleSet.mem_of_placeholder? hlookup
    rw [← h.mentioned] at hother
    obtain ⟨other, hmember, hpair⟩ := List.mem_map.mp hother
    obtain ⟨hname, rfl⟩ := Prod.mk.inj hpair
    obtain ⟨j, hj⟩ := List.mem_iff_getElem?.mp hmember
    obtain rfl := h.position_unique hj hentry hname
    rw [hj, Option.some.injEq] at hentry
    rw [hentry]

theorem placeholder?_of_index (h : table.Represents rules) {name : String} {position : Nat}
    (hindex : table.index[name]? = some position) : ∃ entry,
      table.entries[position]? = some entry ∧ entry.name = name ∧
        rules.placeholder? name = some entry.placeholder := by
  obtain ⟨entry, hentry, rfl⟩ := h.index_iff.mp hindex
  exact ⟨entry, hentry, rfl, h.placeholder?_of_entry hentry⟩

theorem placeholder?_eq_none (h : table.Represents rules) {name : String}
    (hindex : table.index[name]? = none) : rules.placeholder? name = none := by
  apply List.lookup_eq_none_iff.mpr
  intro pair hpair
  rw [← h.mentioned] at hpair
  obtain ⟨entry, hentry, rfl⟩ := List.mem_map.mp hpair
  obtain ⟨position, hposition⟩ := List.mem_iff_getElem?.mp hentry
  have hfound : table.index[entry.name]? = some position := h.index_iff.mpr ⟨entry, hposition, rfl⟩
  apply bne_iff_ne.mpr
  rintro rfl
  rw [hindex] at hfound
  exact absurd hfound nofun

theorem exists_position (h : table.Represents rules) {rule : Rule} (hrule : rule ∈ rules.defined) :
    ∃ position ∈ table.order,
      table.entries[position]? = some ⟨rule.name, rule.placeholder, some rule.body⟩ :=
  exists_of_mem_left h.order.flip hrule

theorem exists_rule (h : table.Represents rules) {position : Nat}
    (hposition : position ∈ table.order) :
    ∃ rule ∈ rules.defined,
      table.entries[position]? = some ⟨rule.name, rule.placeholder, some rule.body⟩ :=
  exists_of_mem_left h.order hposition

theorem isDefined_iff (h : table.Represents rules) {position : Nat} {entry : RuleEntry}
    (hentry : table.entries[position]? = some entry) :
    rules.isDefined entry.name = entry.body.isSome := by
  apply Bool.eq_iff_iff.mpr
  constructor
  · intro hdefined
    obtain ⟨rule, hrule, hname⟩ := List.any_eq_true.mp hdefined
    obtain ⟨j, _, hother⟩ := h.exists_position hrule
    obtain rfl := h.position_unique hother hentry (by simpa using hname)
    rw [hother, Option.some.injEq] at hentry
    rw [← hentry]
    rfl
  · intro hbody
    obtain ⟨rule, hrule, hother⟩ := h.exists_rule (h.bodies position entry hentry hbody)
    rw [hentry, Option.some.injEq] at hother
    subst entry
    exact List.any_eq_true.mpr ⟨rule, hrule, beq_self_eq_true _⟩

/-- A name without a position has no body. -/
theorem isDefined_eq_false (h : table.Represents rules) {name : String}
    (hindex : table.index[name]? = none) : rules.isDefined name = false := by
  apply Bool.eq_false_iff.mpr
  intro hdefined
  obtain ⟨rule, hrule, hname⟩ := List.any_eq_true.mp hdefined
  obtain ⟨position, _, hentry⟩ := h.exists_position hrule
  have hfound : table.index[name]? = some position :=
    h.index_iff.mpr ⟨_, hentry, by simpa using hname⟩
  rw [hindex] at hfound
  exact absurd hfound nofun

theorem mention (h : table.Represents rules) {name : String} (hnew : table.index[name]? = none)
    (placeholder : Placeholder) :
    RuleTable.Represents
      { table with
        entries := table.entries ++ [⟨name, placeholder, none⟩]
        index := table.index.insert name table.entries.length }
      { rules with mentioned := rules.mentioned ++ [(name, placeholder)] } := by
  refine ⟨?_, ?_, ?_, ?_⟩
  · simp [h.mentioned]
  · intro other position
    simp only [Std.TreeMap.getElem?_insert, Std.compare_eq_iff_eq, List.map_append, List.map_cons,
      List.map_nil, List.getElem?_append, List.length_map]
    by_cases hname : name = other
    · subst other
      rw [if_pos rfl]
      split
      · rename_i hlt
        rw [← h.index, hnew]
        simp only [Option.some.injEq, reduceCtorEq, iff_false]
        omega
      · rw [List.getElem?_singleton]
        simp only [Option.some.injEq]
        grind
    · rw [if_neg hname, h.index]
      split
      · rfl
      · rename_i hge
        rw [List.getElem?_eq_none (by simpa using hge), List.getElem?_singleton]
        grind
  · refine h.order.imp fun position rule hentry => ?_
    obtain ⟨hlt, _⟩ := List.getElem?_eq_some_iff.mp hentry
    rwa [List.getElem?_append_left hlt]
  · intro position entry hentry hbody
    rw [List.getElem?_append] at hentry
    split at hentry
    · exact h.bodies position entry hentry hbody
    · rw [List.getElem?_singleton] at hentry
      grind

theorem map_set_of_eq {α β : Type} {f : α → β} {entries : List α} {position : Nat} {old new : α}
    (hold : entries[position]? = some old) (hsame : f new = f old) :
    (entries.set position new).map f = entries.map f := by
  apply List.ext_getElem?
  intro i
  rw [List.getElem?_map, List.getElem?_map, List.getElem?_set]
  split
  · subst i
    obtain ⟨hlt, _⟩ := List.getElem?_eq_some_iff.mp hold
    rw [if_pos hlt, hold]
    exact congrArg some hsame
  · rfl

theorem define (h : table.Represents rules) {position : Nat} {entry : RuleEntry}
    (hentry : table.entries[position]? = some entry) (hnone : entry.body = none) (body : Pattern) :
    RuleTable.Represents
      { table with
        entries := table.entries.set position { entry with body := some body }
        order := table.order ++ [position] }
      { rules with defined := rules.defined ++ [⟨entry.name, entry.placeholder, body⟩] } := by
  have hlt : position < table.entries.length := (List.getElem?_eq_some_iff.mp hentry).1
  refine ⟨?_, ?_, ?_, ?_⟩
  · rw [← h.mentioned]
    exact map_set_of_eq hentry rfl
  · intro name i
    have hnames : (table.entries.set position { entry with body := some body }).map (·.name) =
        table.entries.map (·.name) := map_set_of_eq hentry rfl
    rw [h.index, hnames]
  · refine List.rel_append (h.order.imp fun i rule hi => ?_) (.cons ?_ .nil)
    · have hne : position ≠ i := by
        rintro rfl
        rw [hentry, Option.some.injEq] at hi
        subst entry
        exact absurd hnone nofun
      rwa [List.getElem?_set_ne hne]
    · rw [List.getElem?_set_self hlt]
  · intro i other hother hbody
    by_cases hi : position = i
    · subst i
      exact List.mem_append_right _ List.mem_cons_self
    · rw [List.getElem?_set_ne hi] at hother
      exact List.mem_append_left _ (h.bodies i other hother hbody)

end Represents

/-! ## The operations -/

/-- Where a name is found, or entered, and what the rule set does meanwhile. -/
theorem Represents.position (h : table.Represents rules) (heap : Heap) (name : String) :
    ∃ position later entry, table.position heap name =
        (position, later, (rules.mention heap name).2.2) ∧
      later.Represents (rules.mention heap name).2.1 ∧
      later.entries[position]? = some entry ∧ entry.name = name ∧
      entry.placeholder = (rules.mention heap name).1 ∧
      (rules.isDefined name = true → later = table ∧ (rules.mention heap name).2.2 = heap) := by
  unfold RuleTable.position
  split
  · rename_i position hindex
    obtain ⟨entry, hentry, hname, hplaceholder⟩ := h.placeholder?_of_index hindex
    rw [RuleSet.mention, hplaceholder]
    exact ⟨position, table, entry, rfl, h, hentry, hname, rfl, fun _ => ⟨rfl, rfl⟩⟩
  · rename_i hindex
    rw [RuleSet.mention, h.placeholder?_eq_none hindex]
    refine ⟨_, _, ⟨name, heap.newPlaceholder.1, none⟩, rfl, h.mention hindex _,
      List.getElem?_concat_length, rfl, rfl, ?_⟩
    intro hdefined
    rw [h.isDefined_eq_false hindex] at hdefined
    exact absurd hdefined (by decide)

theorem Represents.reference (h : table.Represents rules) (heap : Heap) (name : String) :
    ∃ later, table.reference heap name =
        some ((rules.reference heap name).1, later, (rules.reference heap name).2.2) ∧
      later.Represents (rules.reference heap name).2.1 := by
  obtain ⟨position, later, entry, hposition, hlater, hentry, _, hplaceholder, _⟩ :=
    h.position heap name
  refine ⟨later, ?_, hlater⟩
  simp only [RuleTable.reference, hposition, hentry]
  rw [Option.map_some, hplaceholder]
  rfl

theorem Represents.isDefined (h : table.Represents rules) (name : String) :
    table.isDefined name = some (rules.isDefined name) := by
  unfold RuleTable.isDefined
  split
  · rename_i hindex
    rw [h.isDefined_eq_false hindex]
  · rename_i position hindex
    obtain ⟨entry, hentry, rfl⟩ := h.index_iff.mp hindex
    rw [h.isDefined_iff hentry, hentry]
    rfl

/-- A second definition is refused by both, and it leaves both as they are; a first one is taken
over by both. -/
theorem Represents.define_cases (h : table.Represents rules) (heap : Heap) (name : String)
    (body : Pattern) :
    (rules.isDefined name = true ∧
      table.define heap name body = some (.error (.duplicateRule name), table, heap)) ∨
    (rules.isDefined name = false ∧ ∃ later rules' heap',
      table.define heap name body = some (.ok (), later, heap') ∧
      rules.define heap name body = .ok (rules', heap') ∧ later.Represents rules') := by
  obtain ⟨position, later, entry, hposition, hlater, hentry, rfl, hplaceholder, hkept⟩ :=
    h.position heap name
  have hsame : (rules.mention heap entry.name).2.1.isDefined entry.name =
      rules.isDefined entry.name := by
    simp [RuleSet.isDefined]
  have hbody := hlater.isDefined_iff hentry
  rw [hsame] at hbody
  cases hdefined : rules.isDefined entry.name with
  | true =>
    obtain ⟨rfl, hheap⟩ := hkept hdefined
    refine Or.inl ⟨rfl, ?_⟩
    rw [hdefined] at hbody
    simp only [RuleTable.define, hposition, hentry, hheap]
    rw [Option.map_some, if_pos hbody.symm]
  | false =>
    rw [hdefined] at hbody
    have hnone : entry.body = none := by simpa using hbody.symm
    refine Or.inr ⟨rfl, _, _, (rules.mention heap entry.name).2.2, ?_, ?_,
      hlater.define hentry hnone body⟩
    · simp only [RuleTable.define, hposition, hentry]
      rw [Option.map_some, if_neg (by simp [hnone])]
    · simp only [RuleSet.define, hdefined, hplaceholder]
      rfl

end RuleTable

/-! ## Finishing -/

/-- The rule that an entry holds once it has a body. -/
def RuleEntry.rule? (entry : RuleEntry) : Option Rule :=
  entry.body.map (⟨entry.name, entry.placeholder, ·⟩)

theorem RuleEntry.rule?_eq_some_iff {entry : RuleEntry} {rule : Rule} :
    entry.rule? = some rule ↔ entry = ⟨rule.name, rule.placeholder, some rule.body⟩ := by
  obtain ⟨name, placeholder, body⟩ := entry
  obtain ⟨name', placeholder', body'⟩ := rule
  cases body <;> simp [rule?]

namespace Heap
variable {rules others : List Rule}

theorem bind_comm (heap : Heap) {c d : Nat} (hne : c ≠ d) (p q : Pattern) :
    (heap.bind c p).bind d q = (heap.bind d q).bind c p := by
  unfold bind
  simp only [Heap.mk.injEq, and_true]
  apply Array.ext_getElem?
  intro i
  simp only [Array.getElem?_modify]
  by_cases hc : c = i
  · subst i
    simp [hne.symm]
  · simp [hc]

/-- The order in which the bodies are bound makes no difference. -/
theorem bindBodies_of_perm (heap : Heap) (hperm : rules.Perm others)
    (apart : (rules.map (·.placeholder.cell)).Nodup) :
    heap.bindBodies rules = heap.bindBodies others := by
  apply hperm.foldl_eq'
  intro a ha b hb later
  by_cases hcell : a.placeholder.cell = b.placeholder.cell
  · obtain rfl : a = b := List.inj_on_of_nodup_map apart ha hb hcell
    rfl
  · exact bind_comm later hcell a.body b.body

theorem bindEntries_eq_bindBodies (heap : Heap) (entries : List RuleEntry) :
    heap.bindEntries entries = heap.bindBodies (entries.filterMap RuleEntry.rule?) := by
  unfold bindEntries bindBodies
  rw [List.foldl_filterMap]
  congr 1
  funext later entry
  unfold RuleEntry.rule?
  cases entry.body <;> rfl

/-- No entry has been taken out before its turn comes. -/
theorem resolvePending_eq_resolveRules (heap : Heap) {pending : List (Option RuleEntry)}
    {order : List Nat} (apart : order.Nodup) (inPlace : List.Forall₂ (fun (position : Nat) (rule : Rule) =>
      pending[position]? = some (some ⟨rule.name, rule.placeholder, some rule.body⟩)) order rules) :
    heap.resolvePending pending order = heap.resolveRules rules := by
  induction rules generalizing heap pending order with
  | nil =>
    cases inPlace
    rfl
  | cons rule rest ih =>
    cases inPlace with
    | @cons position _ later _ hposition hlater =>
      obtain ⟨hnew, hapart⟩ := List.nodup_cons.mp apart
      have hkept : List.Forall₂ (fun (position' : Nat) (rule : Rule) =>
          (pending.set position none)[position']? =
            some (some ⟨rule.name, rule.placeholder, some rule.body⟩)) later rest := by
        refine Pattern.forall₂_imp_of_mem hlater fun i hi rule hrule => ?_
        rwa [List.getElem?_set_ne]
        rintro rfl
        exact hnew hi
      cases hresolve : heap.resolve rule.body rule.placeholder false with
      | error error => simp only [resolvePending, hposition, resolveRules, hresolve]
      | ok outcome =>
        simp only [resolvePending, hposition, resolveRules, hresolve, ih _ hapart hkept]

end Heap

namespace RuleTable.Represents
variable {table : RuleTable} {rules : RuleSet} {heap : Heap} {handles : List (String × Pattern)}

theorem names_nodup (h : table.Represents rules) : (table.entries.map (·.name)).Nodup := by
  rw [List.nodup_iff_getElem?_ne_getElem?]
  intro i j hij hj hsame
  obtain ⟨name, hname⟩ : ∃ name, (table.entries.map (·.name))[j]? = some name :=
    ⟨_, List.getElem?_eq_getElem hj⟩
  have hi := (h.index name i).mpr (hsame.trans hname)
  have hj' := (h.index name j).mpr hname
  exact absurd (Option.some.inj (hi.symm.trans hj')) (Nat.ne_of_lt hij)

theorem undefined?_eq (h : table.Represents rules) :
    rules.undefined? = (table.entries.find? (·.body.isNone)).map (·.name) := by
  have hnames : rules.mentioned.map (·.1) = table.entries.map (·.name) := by
    rw [← h.mentioned, List.map_map]
    rfl
  unfold RuleSet.undefined?
  rw [hnames, List.find?_map]
  congr 1
  apply List.find?_congr
  intro entry hentry
  obtain ⟨position, hposition⟩ := List.mem_iff_getElem?.mp hentry
  simp only [Function.comp_apply, h.isDefined_iff hposition]
  cases entry.body <;> rfl

theorem rules_perm (h : table.Represents rules) (built : rules.Assembled heap handles) :
    (table.entries.filterMap RuleEntry.rule?).Perm rules.defined := by
  have hentries : table.entries.Nodup := h.names_nodup.of_map
  have hdefined : rules.defined.Nodup := built.wellFormed.once.of_map
  refine (List.perm_ext_iff_of_nodup (hentries.filterMap ?_) hdefined).mpr ?_
  · intro a b rule ha hb
    rw [RuleEntry.rule?_eq_some_iff.mp ha, RuleEntry.rule?_eq_some_iff.mp hb]
  · intro rule
    rw [List.mem_filterMap]
    constructor
    · intro hrule
      obtain ⟨entry, hentry, hsome⟩ := hrule
      obtain rfl := RuleEntry.rule?_eq_some_iff.mp hsome
      obtain ⟨position, hposition⟩ := List.mem_iff_getElem?.mp hentry
      obtain ⟨other, hother, hsame⟩ := h.exists_rule (h.bodies position _ hposition rfl)
      rw [hposition, Option.some.injEq] at hsame
      obtain rfl : rule = other := Option.some.inj
        ((RuleEntry.rule?_eq_some_iff.mpr rfl).symm.trans (RuleEntry.rule?_eq_some_iff.mpr hsame))
      exact hother
    · intro hrule
      obtain ⟨position, _, hentry⟩ := h.exists_position hrule
      exact ⟨_, List.mem_of_getElem? hentry, RuleEntry.rule?_eq_some_iff.mpr rfl⟩

theorem bindEntries_eq (h : table.Represents rules) (built : rules.Assembled heap handles) :
    heap.bindEntries table.entries = heap.bindBodies rules.defined := by
  have hperm := h.rules_perm built
  rw [Heap.bindEntries_eq_bindBodies]
  apply Heap.bindBodies_of_perm heap hperm
  exact (hperm.map _).nodup_iff.mpr built.wellFormed.cells_nodup

theorem resolvePending_eq (h : table.Represents rules) (built : rules.Assembled heap handles)
    (later : Heap) : later.resolvePending (table.entries.map some) table.order =
      later.resolveRules rules.defined := by
  apply Heap.resolvePending_eq_resolveRules
  · refine nodup_of_forall₂ h.order ?_ built.wellFormed.once.of_map
    intro position a b ha hb
    rw [ha, Option.some.injEq] at hb
    exact Option.some.inj
      ((RuleEntry.rule?_eq_some_iff.mpr rfl).symm.trans (RuleEntry.rule?_eq_some_iff.mpr hb))
  · exact h.order.imp fun position rule hposition => by rw [List.getElem?_map, hposition]; rfl

/-- Finishing the table and finishing the rule set come to the same. -/
theorem finish (h : table.Represents rules) (built : rules.Assembled heap handles) :
    table.finish heap = ((rules.finish heap).1.map (fun grammar => .ofRules grammar.rules),
      (rules.finish heap).2) := by
  unfold RuleTable.finish RuleSet.finish
  rw [h.undefined?_eq, h.bindEntries_eq built, h.resolvePending_eq built]
  cases table.entries.find? (·.body.isNone) with
  | some entry => rfl
  | none =>
    dsimp only [Option.map_none]
    generalize (heap.bindBodies rules.defined).resolveRules rules.defined = outcome
    obtain ⟨resolved, later⟩ := outcome
    cases resolved <;> rfl

end RuleTable.Represents

/-! ## The finished table -/

namespace GrammarTable
variable {rules : List (String × Pattern)} {name : String}

theorem getElem?_insertAll (hnodup : (rules.map (·.1)).Nodup) (index : Std.TreeMap String Nat)
    (start position : Nat) :
    ((rules.zipIdx start).foldl (fun index entry => index.insert entry.1.1 entry.2) index)[name]? =
        some position ↔
      (∃ i, position = start + i ∧ (rules.map (·.1))[i]? = some name) ∨
        (name ∉ rules.map (·.1) ∧ index[name]? = some position) := by
  induction rules generalizing index start with
  | nil => simp
  | cons rule rest ih =>
    obtain ⟨hnew, hrest⟩ := List.nodup_cons.mp hnodup
    rw [List.zipIdx_cons, List.foldl_cons, ih hrest]
    have hcons : (∃ i, position = start + i ∧ ((rule :: rest).map (·.1))[i]? = some name) ↔
        (position = start ∧ rule.1 = name) ∨
          ∃ i, position = start + 1 + i ∧ (rest.map (·.1))[i]? = some name := by
      constructor
      · intro h
        obtain ⟨i, rfl, hi⟩ := h
        cases i with
        | zero => exact Or.inl ⟨rfl, by simpa using hi⟩
        | succ i => exact Or.inr ⟨i, by omega, by simpa using hi⟩
      · intro h
        rcases h with ⟨rfl, hname⟩ | ⟨i, rfl, hi⟩
        · exact ⟨0, rfl, by simpa using hname⟩
        · exact ⟨i + 1, by omega, by simpa using hi⟩
    rw [hcons, List.map_cons, List.mem_cons]
    simp only [Std.TreeMap.getElem?_insert, Std.compare_eq_iff_eq]
    by_cases hname : rule.1 = name
    · subst hname
      simp only [if_true, true_or, not_true, false_and, or_false, and_true, Option.some.injEq]
      rw [and_iff_right hnew, or_comm, eq_comm]
    · rw [if_neg hname]
      simp only [hname, Ne.symm hname, and_false, false_or]

theorem index_ofRules (hnodup : (rules.map (·.1)).Nodup) {position : Nat} :
    (ofRules rules).index[name]? = some position ↔
      (rules.map (·.1))[position]? = some name := by
  rw [ofRules, getElem?_insertAll hnodup]
  simp

theorem get?_ofRules (hnodup : (rules.map (·.1)).Nodup) {p : Pattern} :
    (ofRules rules).get? name = some p ↔ (name, p) ∈ rules := by
  unfold get?
  constructor
  · intro h
    split at h
    · exact absurd h nofun
    · rename_i position hposition
      obtain ⟨⟨other, _⟩, hrule, rfl⟩ := Option.map_eq_some_iff.mp h
      have hname := (index_ofRules hnodup).mp hposition
      rw [List.getElem?_map] at hname
      obtain ⟨_, hsame, rfl⟩ := Option.map_eq_some_iff.mp hname
      obtain rfl := Option.some.inj (hrule.symm.trans hsame)
      exact List.mem_of_getElem? hrule
  · intro h
    obtain ⟨position, hposition⟩ := List.mem_iff_getElem?.mp h
    have hindex := (index_ofRules hnodup).mpr
      (show (rules.map (·.1))[position]? = some name by rw [List.getElem?_map, hposition]; rfl)
    rw [hindex]
    simp only [ofRules, hposition, Option.map_some]

theorem contains_ofRules (hnodup : (rules.map (·.1)).Nodup) :
    (ofRules rules).contains name = true ↔ name ∈ rules.map (·.1) := by
  rw [contains, Std.TreeMap.contains_eq_isSome_getElem?, Option.isSome_iff_exists,
    List.mem_iff_getElem?]
  exact exists_congr fun _ => index_ofRules hnodup

end GrammarTable
end PatternGraph
