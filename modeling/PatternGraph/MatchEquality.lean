import PatternGraph.MatchTree
import PatternGraph.HashStream

/-!
# Equality of matches

Two matches are equal when their patterns and values are equal at every level; their keys are
equal when the locations are equal at every level too. Each notion has a hash stream of its own,
which reads the patterns without their recursions.
-/

namespace PatternGraph
set_option autoImplicit false

mutual
/-- Equality of patterns and values; locations are not compared. -/
def Heap.equalMatch (heap : Heap) : Match → Match → Bool
  | .text p a _, .text q b _ => heap.equal p q && a == b
  | .alternative p a _, .alternative q b _ => heap.equal p q && Heap.equalMatch heap a b
  | .sequence p as _, .sequence q bs _ => heap.equal p q && Heap.equalMatches heap as bs
  | _, _ => false

def Heap.equalMatches (heap : Heap) : List Match → List Match → Bool
  | [], [] => true
  | a :: as, b :: bs => Heap.equalMatch heap a b && Heap.equalMatches heap as bs
  | _, _ => false
end

mutual
/-- Equality of patterns, values and locations. -/
def Heap.equalKey (heap : Heap) : Match → Match → Bool
  | .text p a l, .text q b l' => l == l' && heap.equal p q && a == b
  | .alternative p a l, .alternative q b l' =>
    l == l' && heap.equal p q && Heap.equalKey heap a b
  | .sequence p as l, .sequence q bs l' =>
    l == l' && heap.equal p q && Heap.equalKeys heap as bs
  | _, _ => false

def Heap.equalKeys (heap : Heap) : List Match → List Match → Bool
  | [], [] => true
  | a :: as, b :: bs => Heap.equalKey heap a b && Heap.equalKeys heap as bs
  | _, _ => false
end

namespace Match

/-- The form of a value by its number. -/
def textNumber : Nat := 0

def alternativeNumber : Nat := 1

def sequenceNumber : Nat := 2

/-- A location is preceded by whether it is there. -/
def hashLocation : Option Span → List HashWord
  | none => [.number 0]
  | some span => [.number 1, .number span.start, .number span.stop]

mutual
/-- What a hasher is fed for a match. -/
def hashStream : Match → List HashWord
  | .text p content _ => p.hashStream ++ [.number textNumber, .text content]
  | .alternative p chosen _ => p.hashStream ++ .number alternativeNumber :: hashStream chosen
  | .sequence p values _ =>
    p.hashStream ++ .number sequenceNumber :: .number values.length :: hashStreamAll values

def hashStreamAll : List Match → List HashWord
  | [] => []
  | value :: rest => hashStream value ++ hashStreamAll rest
end

mutual
/-- What a hasher is fed for the key of a match. -/
def keyHashStream : Match → List HashWord
  | .text p content location =>
    p.hashStream ++ hashLocation location ++ [.number textNumber, .text content]
  | .alternative p chosen location =>
    p.hashStream ++ hashLocation location ++ .number alternativeNumber :: keyHashStream chosen
  | .sequence p values location =>
    p.hashStream ++ hashLocation location ++
      .number sequenceNumber :: .number values.length :: keyHashStreamAll values

def keyHashStreamAll : List Match → List HashWord
  | [] => []
  | value :: rest => keyHashStream value ++ keyHashStreamAll rest
end

end Match
end PatternGraph
