import Std.Data.TreeMap
import PatternGraph.SameTree

/-!
# Sets of patterns

A growing set of patterns. Its members are listed latest first and stand a second time on shelves,
one for each serial number, so that a pattern is compared only with the members on its shelf.
-/

namespace PatternGraph
set_option autoImplicit false

/-- Where a pattern stands; patterns without a serial number share a shelf. -/
def Pattern.shelf (p : Pattern) : Nat := p.tag.serial.getD 0

structure PatternSet where
  toList : List Pattern := []
  shelves : Std.TreeMap Nat (List Pattern) := {}
  mem_shelf : ∀ p : Pattern, p ∈ shelves.getD p.shelf [] ↔ p ∈ toList := by simp

namespace PatternSet

instance : Membership Pattern PatternSet := ⟨fun set p => p ∈ set.toList⟩

theorem mem_toList {set : PatternSet} {p : Pattern} : p ∈ set.toList ↔ p ∈ set := Iff.rfl

instance (p : Pattern) (set : PatternSet) : Decidable (p ∈ set) :=
  decidable_of_iff (p ∈ set.shelves.getD p.shelf []) (set.mem_shelf p)

def insert (set : PatternSet) (p : Pattern) : PatternSet where
  toList := p :: set.toList
  shelves := set.shelves.insert p.shelf (p :: set.shelves.getD p.shelf [])
  mem_shelf q := by
    rw [Std.TreeMap.getD_insert]
    by_cases h : p.shelf = q.shelf
    · rw [h]
      simp [set.mem_shelf q]
    · have hq : q ≠ p := fun e => h (e ▸ rfl)
      simp [h, hq, set.mem_shelf q]

@[simp] theorem notMem_empty (p : Pattern) : p ∉ ({} : PatternSet) := List.not_mem_nil

@[simp] theorem mem_insert {set : PatternSet} {p q : Pattern} :
    q ∈ set.insert p ↔ q = p ∨ q ∈ set := by
  simp [← mem_toList, insert]

end PatternSet
end PatternGraph
