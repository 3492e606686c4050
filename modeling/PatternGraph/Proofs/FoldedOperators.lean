import PatternGraph.Proofs.FiniteUnfolding

/-!
# Folding the two operators

Joining patterns from left to right by either operator gives one flat node: what the first pattern
contributes, followed by the others as they are. A pattern contributes its elements when it is an
anonymous node of the same kind and itself otherwise, and either way the contribution has the
source and the words of the pattern. So the fold has the sources of its patterns one after another,
or their union, whichever of them were flattened.
-/

namespace PatternGraph
set_option autoImplicit false

/-! ## The flat node -/

namespace Pattern

/-- Whatever an operator makes is flattened again when the next pattern is joined to it. -/
theorem foldl_flattening {make : List Pattern → Pattern} {contribution : Pattern → List Pattern}
    (flattens : ∀ elements, contribution (make elements) = elements) (rest : List Pattern) :
    ∀ first next, (next :: rest).foldl (fun p q => make (contribution p ++ [q])) first =
      make (contribution first ++ next :: rest) := by
  induction rest with
  | nil => exact fun _ _ => rfl
  | cons last rest ih =>
    intro first next
    rw [List.foldl_cons, ih, flattens, List.append_assoc, List.singleton_append]

theorem foldl_alternate (first next : Pattern) (rest : List Pattern) :
    (next :: rest).foldl alternate first = anyOf (first.alternatives ++ next :: rest) :=
  foldl_flattening (fun _ => rfl) rest first next

theorem foldl_concatenate (first next : Pattern) (rest : List Pattern) :
    (next :: rest).foldl concatenate first = inOrder (first.parts ++ next :: rest) :=
  foldl_flattening (fun _ => rfl) rest first next

end Pattern

namespace Heap
variable {heap : Heap}

/-- What a pattern contributes to a node of a kind: its own elements if it is an anonymous node of
that kind, and otherwise itself. -/
def contribution (heap : Heap) (kind : PatternKind) (p : Pattern) : List Pattern :=
  if p.kind = kind ∧ p.name = none then heap.elements p else [p]

theorem alternatives_eq_contribution (heap : Heap) (p : Pattern) :
    p.alternatives = heap.contribution .alternation p := by
  cases p with
  | alternation tag elements =>
    obtain ⟨serial, name⟩ := tag
    cases name with
    | none => exact (if_pos ⟨rfl, rfl⟩).symm
    | some name => exact (if_neg fun h => absurd h.2 nofun).symm
  | _ => exact (if_neg fun h => absurd h.1 nofun).symm

theorem parts_eq_contribution (heap : Heap) (p : Pattern) :
    p.parts = heap.contribution .concatenation p := by
  cases p with
  | concatenation tag elements =>
    obtain ⟨serial, name⟩ := tag
    cases name with
    | none => exact (if_pos ⟨rfl, rfl⟩).symm
    | some name => exact (if_neg fun h => absurd h.2 nofun).symm
  | _ => exact (if_neg fun h => absurd h.1 nofun).symm

end Heap

/-! ## Sources -/

theorem mapM_map_except {ε α β γ : Type} (f : β → γ) (g : α → Except ε β) (xs : List α) :
    xs.mapM (fun x => f <$> g x) = List.map f <$> xs.mapM g := by
  induction xs with
  | nil => rfl
  | cons x xs ih =>
    rw [List.mapM_cons, List.mapM_cons, ih]
    cases g x with
    | error error => rfl
    | ok y => cases xs.mapM g <;> rfl

namespace Fragment

/-- The text of the expression that a fragment stands for. -/
def source (part : Fragment) : String := ({ first := part.pieces } : Regex).text

theorem toList_source (part : Fragment) :
    part.source.toList = Regex.Piece.charsAll part.pieces := by
  rw [source, Regex.toList_text, Regex.chars, Regex.Piece.charsRest, List.append_nil]

theorem charsAll_flatMap_pieces (parts : List Fragment) :
    Regex.Piece.charsAll (parts.flatMap pieces) = (parts.map source).flatMap String.toList := by
  induction parts with
  | nil => simp [Regex.Piece.charsAll]
  | cons part rest ih =>
    rw [List.flatMap_cons, Regex.charsAll_append, ih, List.map_cons, List.flatMap_cons,
      toList_source]

theorem source_chain (parts : List Fragment) :
    (chain parts).source = String.join (parts.map source) := by
  rw [← String.toList_inj, toList_source, String.toList_join, ← charsAll_flatMap_pieces]
  unfold chain
  split
  · simp
  · rfl

end Fragment

namespace Pattern

theorem fragments_eq_mapM (atCell : Nat → Except CompileError Fragment) (elements : List Pattern) :
    fragments atCell elements = elements.mapM (fragmentWith atCell) := by
  induction elements with
  | nil => rfl
  | cons p rest ih =>
    rw [fragments, List.mapM_cons, ih]

end Pattern

namespace Heap
variable {heap : Heap}

theorem regexSource_eq_map (heap : Heap) (p : Pattern) :
    heap.regexSource p = Fragment.source <$> heap.fragment p := by
  unfold regexSource regex
  cases heap.fragment p <;> rfl

theorem exists_regexSource_iff_fragment {p : Pattern} :
    (∃ source, heap.regexSource p = .ok source) ↔ ∃ part, heap.fragment p = .ok part := by
  rw [regexSource_eq_map]
  cases heap.fragment p with
  | error error => exact ⟨nofun, nofun⟩
  | ok part => exact ⟨fun _ => ⟨part, rfl⟩, fun _ => ⟨_, rfl⟩⟩

/-- The parts of a concatenation are compiled from left to right, and their sources are written one
after another; the first error is the error of the whole. -/
theorem regexSource_concatenation (tag : Tag) (elements : List Pattern) :
    heap.regexSource (.concatenation tag elements) =
      String.join <$> elements.mapM heap.regexSource := by
  have hfragment : heap.fragment (.concatenation tag elements) =
      Fragment.chain <$> elements.mapM heap.fragment := by
    have hparts := Pattern.fragments_eq_mapM
      (fragmentWalk.atCell heap.grammar (heap.cells.size + 1) []) elements
    exact (congrArg (· >>= fun parts => pure (Fragment.chain parts)) hparts).trans
      (map_eq_pure_bind _ _).symm
  have hsources : elements.mapM heap.regexSource =
      List.map Fragment.source <$> elements.mapM heap.fragment := by
    rw [funext heap.regexSource_eq_map, mapM_map_except]
  rw [regexSource_eq_map, hfragment, hsources, ← LawfulFunctor.comp_map, ← LawfulFunctor.comp_map]
  exact congrArg (· <$> elements.mapM heap.fragment) (funext Fragment.source_chain)

theorem join_mapM_append (xs ys : List Pattern) :
    String.join <$> (xs ++ ys).mapM heap.regexSource = do
      let front ← String.join <$> xs.mapM heap.regexSource
      let back ← String.join <$> ys.mapM heap.regexSource
      return front ++ back := by
  rw [List.mapM_append]
  cases xs.mapM heap.regexSource with
  | error error => rfl
  | ok sources =>
    cases ys.mapM heap.regexSource with
    | error error => rfl
    | ok others => exact congrArg Except.ok String.join_append

theorem join_mapM_singleton (heap : Heap) (p : Pattern) :
    String.join <$> [p].mapM heap.regexSource = heap.regexSource p := by
  rw [List.mapM_cons, List.mapM_nil]
  cases heap.regexSource p with
  | error error => rfl
  | ok source => exact congrArg Except.ok (by simp)

/-- What a pattern contributes to a sequence has the source of the pattern. -/
theorem join_mapM_parts (heap : Heap) (p : Pattern) :
    String.join <$> p.parts.mapM heap.regexSource = heap.regexSource p := by
  unfold Pattern.parts
  split
  · exact (regexSource_concatenation _ _).symm
  · exact join_mapM_singleton heap p

theorem regexSource_foldl_concatenate (heap : Heap) (first : Pattern) (rest : List Pattern) :
    heap.regexSource (rest.foldl Pattern.concatenate first) =
      String.join <$> (first :: rest).mapM heap.regexSource := by
  cases rest with
  | nil => exact (join_mapM_singleton heap first).symm
  | cons next rest =>
    have hfirst : String.join <$> first.parts.mapM heap.regexSource =
        String.join <$> [first].mapM heap.regexSource :=
      (join_mapM_parts heap first).trans (join_mapM_singleton heap first).symm
    calc heap.regexSource ((next :: rest).foldl Pattern.concatenate first)
      _ = String.join <$> (first.parts ++ next :: rest).mapM heap.regexSource := by
        rw [Pattern.foldl_concatenate, Pattern.inOrder, regexSource_concatenation]
      _ = String.join <$> ([first] ++ next :: rest).mapM heap.regexSource := by
        rw [join_mapM_append, join_mapM_append, hfirst]

/-- An alternation has a source exactly when each of its alternatives has one. -/
theorem exists_regexSource_alternation (tag : Tag) (elements : List Pattern) :
    (∃ source, heap.regexSource (.alternation tag elements) = .ok source) ↔
      ∀ p ∈ elements, ∃ source, heap.regexSource p = .ok source := by
  simp only [exists_regexSource_iff_fragment]
  constructor
  · intro h p hp
    obtain ⟨part, hpart⟩ := h
    obtain ⟨parts, hparts, _⟩ := bind_eq_ok_iff.mp hpart
    exact Pattern.exists_part_of_mem hparts hp
  · intro h
    cases hparts : Pattern.fragments
        (fragmentWalk.atCell heap.grammar (heap.cells.size + 1) []) elements with
    | ok parts => exact ⟨_, bind_eq_ok_iff.mpr ⟨parts, hparts, rfl⟩⟩
    | error error =>
      obtain ⟨p, hp, herror⟩ := Pattern.exists_of_fragments_error hparts
      obtain ⟨part, hpart⟩ := h p hp
      exact absurd (hpart.symm.trans herror) nofun

theorem exists_regexSource_alternatives (heap : Heap) (p : Pattern) :
    (∀ q ∈ p.alternatives, ∃ source, heap.regexSource q = .ok source) ↔
      ∃ source, heap.regexSource p = .ok source := by
  unfold Pattern.alternatives
  split
  · exact (exists_regexSource_alternation _ _).symm
  · simp

theorem exists_regexSource_foldl_alternate (heap : Heap) (first : Pattern) (rest : List Pattern) :
    (∃ source, heap.regexSource (rest.foldl Pattern.alternate first) = .ok source) ↔
      ∀ p ∈ first :: rest, ∃ source, heap.regexSource p = .ok source := by
  cases rest with
  | nil => simp
  | cons next rest =>
    rw [Pattern.foldl_alternate, Pattern.anyOf, exists_regexSource_alternation,
      List.forall_mem_append, exists_regexSource_alternatives]
    simp only [List.forall_mem_cons]

/-! ## Words -/

theorem language_foldl_concatenate (heap : Heap) (first : Pattern) (rest : List Pattern) :
    heap.language (rest.foldl Pattern.concatenate first) =
      ((first :: rest).map heap.language).prod := by
  cases rest with
  | nil => simp
  | cons next rest =>
    rw [Pattern.foldl_concatenate, language, Pattern.languageWith_inOrder,
      Pattern.languageOfAll_append, Pattern.languageOfAll_parts, Pattern.languageOfAll_eq_prod,
      List.map_cons, List.prod_cons]
    rfl

theorem mem_language_foldl_alternate (heap : Heap) (first : Pattern) (rest : List Pattern)
    (word : List Char) :
    word ∈ heap.language (rest.foldl Pattern.alternate first) ↔
      ∃ p ∈ first :: rest, word ∈ heap.language p := by
  cases rest with
  | nil => simp
  | cons next rest =>
    have hfirst : (∃ p ∈ first.alternatives, word ∈ p.languageWith heap.cellLanguage) ↔
        word ∈ heap.language first := by
      unfold Pattern.alternatives
      split
      · exact Pattern.mem_languageOfAny.symm
      · simp [language]
    rw [Pattern.foldl_alternate, language, Pattern.languageWith_anyOf, Pattern.mem_languageOfAny,
      List.exists_mem_cons_iff, ← hfirst]
    simp only [List.mem_append, or_and_right, exists_or]
    rfl

/-- However the patterns are flattened, joining them in order has their sources in order, or the
first error among them, and the product of their words; joining them by choice has the words of any
of them, and a source exactly when they all have one. From two patterns on, the result is one
anonymous node of what the first pattern contributes and all others as they are. -/
theorem folds_join_sources_and_words (heap : Heap) (first : Pattern) (rest : List Pattern) :
    heap.regexSource (rest.foldl Pattern.concatenate first) =
      String.join <$> (first :: rest).mapM heap.regexSource ∧
    heap.language (rest.foldl Pattern.concatenate first) =
      ((first :: rest).map heap.language).prod ∧
    (∀ word, word ∈ heap.language (rest.foldl Pattern.alternate first) ↔
      ∃ p ∈ first :: rest, word ∈ heap.language p) ∧
    ((∃ source, heap.regexSource (rest.foldl Pattern.alternate first) = .ok source) ↔
      ∀ p ∈ first :: rest, ∃ source, heap.regexSource p = .ok source) ∧
    (rest ≠ [] →
      rest.foldl Pattern.concatenate first =
        .concatenation {} (heap.contribution .concatenation first ++ rest) ∧
      rest.foldl Pattern.alternate first =
        .alternation {} (heap.contribution .alternation first ++ rest)) := by
  refine ⟨regexSource_foldl_concatenate heap first rest,
    language_foldl_concatenate heap first rest, mem_language_foldl_alternate heap first rest,
    exists_regexSource_foldl_alternate heap first rest, ?_⟩
  intro hrest
  obtain ⟨next, others, rfl⟩ := List.exists_cons_of_ne_nil hrest
  rw [← parts_eq_contribution, ← alternatives_eq_contribution]
  exact ⟨Pattern.foldl_concatenate first next others, Pattern.foldl_alternate first next others⟩

end Heap

/-- An anonymous sequence, which is flattened, and a named one after it, which is kept whole. -/
def Pattern.pair : Pattern := .inOrder [.ofText "a", .anyOf [.ofText "b", .ofText "c"]]

theorem Heap.folds_join_sources_and_words_named :
    [Pattern.pair.named "pair", (Pattern.ofText "xy").any] ≠ [] ∧
    [Pattern.pair.named "pair", (Pattern.ofText "xy").any].foldl Pattern.concatenate .pair =
      .inOrder [.ofText "a", .anyOf [.ofText "b", .ofText "c"], Pattern.pair.named "pair",
        (Pattern.ofText "xy").any] ∧
    ({} : Heap).regexSource
        ([Pattern.pair.named "pair", (Pattern.ofText "xy").any].foldl Pattern.concatenate .pair) =
      .ok "a(b|c)a(b|c)(xy)*" := by
  obtain ⟨hsource, _, _, _, hflat⟩ := folds_join_sources_and_words {} .pair
    [Pattern.pair.named "pair", (Pattern.ofText "xy").any]
  have hrest : [Pattern.pair.named "pair", (Pattern.ofText "xy").any] ≠ [] := List.cons_ne_nil _ _
  refine ⟨hrest, (hflat hrest).1, ?_⟩
  rw [hsource]
  decide

end PatternGraph
