import PatternGraph.MatchTree
import PatternGraph.Inspection

/-!
# Inspection text of matches

A one-line text of a match that shows the pattern, the value and the location at every level.
-/

namespace PatternGraph
set_option autoImplicit false

def inspectLocation : Option Span → String
  | none => "None"
  | some span => "Some(" ++ toString span.start ++ ".." ++ toString span.stop ++ ")"

/-- The three fields of a match around the text of its value. -/
def inspectFields (pattern value : String) (location : Option Span) : String :=
  "Match \x7b pattern: " ++ pattern ++ ", value: " ++ value ++ ", location: " ++
    inspectLocation location ++ " \x7d"

mutual
def Heap.inspectMatch (heap : Heap) : Match → String
  | .text p content location =>
    inspectFields (heap.inspect p) ("Text(" ++ QuotedText.ofString content ++ ")") location
  | .alternative p chosen location =>
    inspectFields (heap.inspect p) ("Alternative(" ++ Heap.inspectMatch heap chosen ++ ")") location
  | .sequence p values location =>
    inspectFields (heap.inspect p)
      ("Sequence([" ++ String.intercalate ", " (Heap.inspectMatches heap values) ++ "])") location

def Heap.inspectMatches (heap : Heap) : List Match → List String
  | [] => []
  | value :: rest => Heap.inspectMatch heap value :: Heap.inspectMatches heap rest
end

end PatternGraph
