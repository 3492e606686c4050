import PatternGraph.GuardedSearch

/-!
# Guarded recursion

A recursion over keys that remembers the keys it stands inside. At one of those it answers at once.
Any other key either is shut or opens a node, whose answer is worked out from the answers at the
keys that it asks for, inside one key more. A key is forgotten again once its node has an answer;
one that is shut need not be remembered at all, since nothing is asked inside it.

The rules of `Answers` are the recursion as it is carried out; nothing in them bounds how deep they
go, so that there is an answer at all says that the recursion ends. It does when all that it can
open comes from a finite supply of keys.
-/

namespace PatternGraph
set_option autoImplicit false

structure GuardedRecursion (Key Node Answer : Type) where
  opens : Key → Option Node
  /-- The answer at a key that the recursion stands inside already. -/
  onRepeat : Answer
  onShut : Key → Answer
  asks : Node → Key → Prop
  onNode : (Key → Answer) → Node → Answer
  /-- What would be answered at other keys than those asked for makes no difference. -/
  onNode_congr : ∀ {answers answers' : Key → Answer} {node : Node},
    (∀ key, asks node key → answers key = answers' key) → onNode answers node = onNode answers' node

namespace GuardedRecursion
variable {Key Node Answer : Type}

/-- The answer at a key inside others, listed innermost first; every guard that arises on the way is
`allowed`. -/
inductive Answers (recursion : GuardedRecursion Key Node Answer) (allowed : List Key → Prop) :
    List Key → Key → Answer → Prop where
  | repeated {inside : List Key} {key : Key} (met : key ∈ inside) :
      Answers recursion allowed inside key recursion.onRepeat
  | shut {inside : List Key} {key : Key} (new : key ∉ inside)
      (closed : recursion.opens key = none) :
      Answers recursion allowed inside key (recursion.onShut key)
  | opened {inside : List Key} {key : Key} {node : Node} {answers : Key → Answer}
      (new : key ∉ inside) (opened : recursion.opens key = some node)
      (admitted : allowed (key :: inside))
      (below : ∀ other, recursion.asks node other →
        Answers recursion allowed (key :: inside) other (answers other)) :
      Answers recursion allowed inside key (recursion.onNode answers node)

variable (recursion : GuardedRecursion Key Node Answer)

/-- From the outset the result is worked out from the answers at the keys `asked` for. -/
def Computes (allowed : List Key → Prop) (asked : Key → Prop) (onStart : (Key → Answer) → Answer)
    (result : Answer) : Prop :=
  ∃ answers, (∀ key, asked key → recursion.Answers allowed [] key (answers key)) ∧
    result = onStart answers

/-- The recursion has an end, with this result and with every guard up to it made of different keys
of the supply; and it has no other result. -/
def Ends (supply : List Key) (asked : Key → Prop) (onStart : (Key → Answer) → Answer)
    (result : Answer) : Prop :=
  recursion.Computes (GuardWithin supply) asked onStart result ∧
  ∀ other, recursion.Computes (fun _ => True) asked onStart other → other = result

/-- The recursion with a bound on its depth. -/
def run [DecidableEq Key] : Nat → List Key → Key → Answer
  | 0, _, _ => recursion.onRepeat
  | fuel + 1, inside, key =>
    if key ∈ inside then recursion.onRepeat
    else match recursion.opens key with
      | none => recursion.onShut key
      | some node => recursion.onNode (run fuel (key :: inside)) node

section
variable [DecidableEq Key] {inside : List Key} {key : Key}

theorem run_of_mem (fuel : Nat) (hmet : key ∈ inside) :
    recursion.run fuel inside key = recursion.onRepeat := by
  cases fuel <;> simp [run, hmet]

theorem run_shut (fuel : Nat) (hnew : key ∉ inside) (hclosed : recursion.opens key = none) :
    recursion.run (fuel + 1) inside key = recursion.onShut key := by
  simp [run, hnew, hclosed]

theorem run_opened (fuel : Nat) (hnew : key ∉ inside) {node : Node}
    (hopened : recursion.opens key = some node) : recursion.run (fuel + 1) inside key =
      recursion.onNode (recursion.run fuel (key :: inside)) node := by
  simp [run, hnew, hopened]

end

/-- Of the given keys, and of those asked for below them, the ones that open are in the supply. -/
structure Supplies (keys : Key → Prop) (supply : List Key) : Prop where
  covers : ∀ key node, keys key → recursion.opens key = some node → key ∈ supply
  closed : ∀ key node, keys key → recursion.opens key = some node →
    ∀ other, recursion.asks node other → keys other

variable {recursion}
variable {allowed allowed' : List Key → Prop} {inside supply : List Key} {key : Key}
variable {answer answer' : Answer} {keys asked : Key → Prop} {onStart : (Key → Answer) → Answer}

theorem Answers.unique (h : recursion.Answers allowed inside key answer)
    (h' : recursion.Answers allowed' inside key answer') : answer = answer' := by
  induction h generalizing answer' with
  | repeated met =>
    cases h' with
    | repeated _ => rfl
    | shut new _ | opened new _ _ _ => exact absurd met new
  | shut new closed =>
    cases h' with
    | repeated met => exact absurd met new
    | shut _ _ => rfl
    | opened _ opened _ _ => exact absurd (closed.symm.trans opened) nofun
  | opened new opened _ _ ih =>
    cases h' with
    | repeated met => exact absurd met new
    | shut _ closed => exact absurd (closed.symm.trans opened) nofun
    | opened _ opened' _ below' =>
      obtain rfl := Option.some.inj (opened.symm.trans opened')
      apply recursion.onNode_congr
      intro other hother
      exact ih other hother (below' other hother)

/-- A depth beyond the size of the supply is never used up. -/
theorem Supplies.answers_run [DecidableEq Key] (hsupply : recursion.Supplies keys supply)
    (fuel : Nat) : ∀ inside key, GuardWithin supply inside →
      supply.length < fuel + inside.length → keys key →
      recursion.Answers (GuardWithin supply) inside key (recursion.run fuel inside key) := by
  induction fuel with
  | zero =>
    intro inside key hinside hfuel _
    have hlength := hinside.length_le
    omega
  | succ fuel ih =>
    intro inside key hinside hfuel hkey
    by_cases hmet : key ∈ inside
    · rw [recursion.run_of_mem _ hmet]
      exact .repeated hmet
    · cases hopens : recursion.opens key with
      | none =>
        rw [recursion.run_shut fuel hmet hopens]
        exact .shut hmet hopens
      | some node =>
        rw [recursion.run_opened fuel hmet hopens]
        have hentered := hinside.cons hmet (hsupply.covers key node hkey hopens)
        refine .opened hmet hopens hentered ?_
        intro other hother
        apply ih (key :: inside) other hentered
        · rw [List.length_cons]
          omega
        · exact hsupply.closed key node hkey hopens other hother

theorem Supplies.ends_run [DecidableEq Key] (hsupply : recursion.Supplies keys supply)
    (hasked : ∀ key, asked key → keys key)
    (onStart_congr : ∀ {answers answers' : Key → Answer},
      (∀ key, asked key → answers key = answers' key) → onStart answers = onStart answers') :
    recursion.Ends supply asked onStart (onStart (recursion.run (supply.length + 1) [])) := by
  have hrun : ∀ key, asked key → recursion.Answers (GuardWithin supply) [] key
      (recursion.run (supply.length + 1) [] key) :=
    fun key hkey => hsupply.answers_run _ [] key (.nil supply) (by simp) (hasked key hkey)
  refine ⟨⟨_, hrun, rfl⟩, ?_⟩
  rintro other ⟨answers, hanswers, rfl⟩
  apply onStart_congr
  intro key hkey
  exact (hanswers key hkey).unique (hrun key hkey)

end GuardedRecursion
end PatternGraph
