import PatternGraph.FixedWidth
import PatternGraph.PatternLanguage
import PatternGraph.Proofs.GuardedWalk

/-!
# A width is the length of every word

Where a pattern has a width, every word it matches has that many characters. A cell that the walk
stands inside and an unbound cell have no width, so nothing has to be shown there, and the walk
need not be followed through the cells it stands inside.
-/

namespace PatternGraph
set_option autoImplicit false

/-- Every word of the language has the given length. -/
def AllOfLength (language : Language Char) (length : Nat) : Prop :=
  ∀ word ∈ language, word.length = length

theorem AllOfLength.pow {language : Language Char} {length : Nat} (h : AllOfLength language length)
    (count : Nat) : AllOfLength (language ^ count) (length * count) := by
  induction count with
  | zero =>
    intro word hword
    obtain rfl : word = [] := by simpa using hword
    simp
  | succ count ih =>
    intro word hword
    rw [pow_succ] at hword
    obtain ⟨before, hbefore, last, hlast, rfl⟩ := Language.mem_mul.mp hword
    rw [List.length_append, ih before hbefore, h last hlast, Nat.mul_succ]

namespace Pattern
variable {atCell : Nat → Option Nat} {ρ : Nat → Language Char}

theorem allOfLength_languageOfAny {elements : List Pattern} {width : Nat}
    (each : ∀ p ∈ elements, ∀ n, p.widthWith atCell = some n → AllOfLength (p.languageWith ρ) n)
    (h : allOfWidth atCell width elements = true) :
    AllOfLength (languageOfAny ρ elements) width := by
  induction elements with
  | nil => exact fun word hword => absurd hword (Language.notMem_zero _)
  | cons p rest ih =>
    obtain ⟨hp, hrest⟩ := List.forall_mem_cons.mp each
    simp only [allOfWidth, Bool.and_eq_true, beq_iff_eq] at h
    intro word hword
    rcases (Language.mem_add _ _ _).mp hword with hfirst | hlater
    · exact hp width h.1 word hfirst
    · exact ih hrest h.2 word hlater

theorem allOfLength_languageOfAll {elements : List Pattern} {total width : Nat}
    (each : ∀ p ∈ elements, ∀ n, p.widthWith atCell = some n → AllOfLength (p.languageWith ρ) n)
    (h : totalWidth atCell total elements = some width) :
    ∀ word ∈ languageOfAll ρ elements, total + word.length = width := by
  induction elements generalizing total with
  | nil =>
    intro word hword
    obtain rfl : word = [] := by simpa [languageOfAll] using hword
    simpa using Option.some.inj h
  | cons p rest ih =>
    obtain ⟨hp, hrest⟩ := List.forall_mem_cons.mp each
    simp only [totalWidth, Option.bind_eq_bind, Option.bind_eq_some_iff] at h
    obtain ⟨first, hfirst, sum, hsum, hlater⟩ := h
    obtain ⟨rfl, _⟩ := (checkedWidth_eq_some_iff _ _).mp hsum
    intro word hword
    obtain ⟨front, hfront, back, hback, rfl⟩ := Language.mem_mul.mp hword
    rw [List.length_append, hp first hfirst front hfront, ← Nat.add_assoc]
    exact ih hrest hlater back hback

theorem allOfLength_of_widthWith
    (cells : ∀ c n, atCell c = some n → AllOfLength (ρ c) n) (p : Pattern) :
    ∀ n, p.widthWith atCell = some n → AllOfLength (p.languageWith ρ) n := by
  induction p with
  | literal tag text =>
    intro n h word hword
    obtain ⟨rfl, _⟩ := (checkedWidth_eq_some_iff _ _).mp h
    obtain rfl : word = text.toList := hword
    exact String.length_toList
  | characterClass tag cls =>
    intro n h word hword
    obtain rfl : 1 = n := Option.some.inj h
    obtain ⟨c, _, rfl⟩ := CharacterClass.mem_language.mp hword
    rfl
  | alternation tag elements ih =>
    intro n h
    cases elements with
    | nil => exact absurd h nofun
    | cons first rest =>
      simp only [widthWith, Option.bind_eq_bind, Option.bind_eq_some_iff] at h
      obtain ⟨width, hfirst, hrest⟩ := h
      split at hrest
      · rename_i hagree
        obtain rfl := Option.some.inj hrest
        exact allOfLength_languageOfAny ih (by simp [allOfWidth, hfirst, hagree])
      · exact absurd hrest nofun
  | concatenation tag elements ih =>
    intro n h word hword
    simpa using allOfLength_languageOfAll ih h word hword
  | repetition tag inner min max ih =>
    intro n h word hword
    simp only [widthWith] at h
    split at h
    · rename_i hexact
      subst max
      simp only [Option.bind_eq_bind, Option.bind_eq_some_iff] at h
      obtain ⟨width, hinner, hproduct⟩ := h
      obtain ⟨rfl, _⟩ := (checkedWidth_eq_some_iff _ _).mp hproduct
      obtain ⟨count, hcount, hpower⟩ := mem_copies.mp hword
      obtain ⟨hmin, hmax⟩ := (withinBounds_iff min (some min) count).mp hcount
      obtain rfl : count = min := Nat.le_antisymm (hmax min rfl) hmin
      exact (ih width hinner).pow count word hpower
    · exact absurd h nofun
  | latch tag target ih => exact ih
  | recursion tag cell => exact cells cell

end Pattern

namespace Heap

theorem allOfLength_of_width {heap : Heap} {p : Pattern} {n : Nat} (h : heap.width p = some n) :
    AllOfLength (heap.language p) n := by
  refine Pattern.allOfLength_of_widthWith ?_ p n h
  refine Walk.atCell_induction (P := fun c (answer : Option Nat) => ∀ n,
      answer = some n → AllOfLength (heap.cellLanguage c) n)
    ?onRepeat ?onUnbound ?onTree _ _
  case onRepeat | onUnbound => exact nofun
  case onTree =>
    intro c p atCell hbound hcells n hn
    rw [cellLanguage_of_bound hbound]
    exact Pattern.allOfLength_of_widthWith hcells p n hn

end Heap
end PatternGraph
