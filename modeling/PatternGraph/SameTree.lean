import PatternGraph.Pattern

/-!
# Sameness of trees

Two patterns are the same when they agree in every node, tags included. A pattern may hold the
same subtree in many places, so its tree can be far larger than the number of its nodes. The
decision therefore asks first whether both sides are one object in memory, which only ever
shortens it: what is decided is equality of trees. Two nodes with different serial numbers are
told apart at their tags.
-/

namespace PatternGraph
set_option autoImplicit false

namespace Pattern

mutual
def sameTree : Pattern → Pattern → Bool
  | .literal tag a, .literal tag' b => tag == tag' && a == b
  | .characterClass tag a, .characterClass tag' b => tag == tag' && a == b
  | .alternation tag as, .alternation tag' bs => tag == tag' && sameTrees as bs
  | .concatenation tag as, .concatenation tag' bs => tag == tag' && sameTrees as bs
  | .repetition tag a min max, .repetition tag' b min' max' =>
    tag == tag' && min == min' && max == max' && sameTree a b
  | .latch tag a, .latch tag' b => tag == tag' && sameTree a b
  | .recursion tag c, .recursion tag' d => tag == tag' && c == d
  | _, _ => false

def sameTrees : List Pattern → List Pattern → Bool
  | [], [] => true
  | a :: as, b :: bs => sameTree a b && sameTrees as bs
  | _, _ => false
end

mutual
theorem sameTree_iff : ∀ p q : Pattern, p.sameTree q = true ↔ p = q
  | .literal .., q => by cases q <;> simp [sameTree]
  | .characterClass .., q => by cases q <;> simp [sameTree]
  | .alternation _ as, q => by cases q <;> simp [sameTree, sameTrees_iff as]
  | .concatenation _ as, q => by cases q <;> simp [sameTree, sameTrees_iff as]
  | .repetition _ a _ _, q => by
    cases q <;> simp [sameTree, sameTree_iff a, and_assoc, and_comm, and_left_comm]
  | .latch _ a, q => by cases q <;> simp [sameTree, sameTree_iff a]
  | .recursion .., q => by cases q <;> simp [sameTree]

theorem sameTrees_iff : ∀ ps qs : List Pattern, sameTrees ps qs = true ↔ ps = qs
  | [], qs => by cases qs <;> simp [sameTrees]
  | p :: ps, qs => by cases qs <;> simp [sameTrees, sameTree_iff p, sameTrees_iff ps]
end

end Pattern

instance : DecidableEq Pattern := fun p q =>
  withPtrEqDecEq p q fun _ => decidable_of_iff _ (Pattern.sameTree_iff p q)

end PatternGraph
