import Mathlib.Data.List.Forall2
import PatternGraph.MatchText

/-!
# Coherent matches

The builders of matches count the values of a concatenation and of a repetition but do not look at
them. A match is coherent when, in addition, every value at every level is a value of the part or
of the repeated pattern it stands for, up to equality of patterns.
-/

namespace PatternGraph
set_option autoImplicit false

/-- Matches that were built from coherent values of the right patterns, in a fixed heap. -/
inductive Heap.Coherent (heap : Heap) : Match → Prop where
  | text {p : Pattern} {content : String} {m : Match} :
      heap.matchText p content = .ok m → Heap.Coherent heap m
  | alternation {p : Pattern} {value m : Match} :
      Heap.Coherent heap value → heap.matchAlternation p value = .ok m → Heap.Coherent heap m
  | concatenation {p : Pattern} {tag : Tag} {elements : List Pattern} {values : List Match}
      {m : Match} :
      (∀ value ∈ values, Heap.Coherent heap value) →
      heap.underlying p = some (.concatenation tag elements) →
      List.Forall₂ (fun value element => heap.equal value.pattern element = true) values elements →
      heap.matchConcatenation p values = .ok m → Heap.Coherent heap m
  | repetition {p : Pattern} {tag : Tag} {inner : Pattern} {min : Nat} {max : Option Nat}
      {values : List Match} {m : Match} :
      (∀ value ∈ values, Heap.Coherent heap value) →
      heap.underlying p = some (.repetition tag inner min max) →
      (∀ value ∈ values, heap.equal value.pattern inner = true) →
      heap.matchRepetition p values = .ok m → Heap.Coherent heap m
  | located {m : Match} {span : Span} :
      Heap.Coherent heap m → Heap.Coherent heap (m.withLocation span)

end PatternGraph
