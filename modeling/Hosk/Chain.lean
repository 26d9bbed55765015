import Mathlib.Data.List.Basic
import Mathlib.Data.List.Pairwise
import Mathlib.Logic.Relation

/-! Null-terminated chains of a pointer function, the successor of each address if it has one. -/

/-- Following `next` from `start` visits exactly the listed addresses and then NULL. -/
def Chain (next : Nat → Option Nat) : Nat → List Nat → Prop
  | start, [] => start = 0
  | start, address :: rest =>
      start = address ∧ address ≠ 0 ∧ ∃ successor, next address = some successor ∧
        Chain next successor rest

namespace Chain

variable {next other : Nat → Option Nat} {start : Nat} {first rest : List Nat}

theorem ne_zero (chain : Chain next start first) : ∀ address ∈ first, address ≠ 0 := by
  induction first generalizing start with
  | nil => intro address member; exact absurd member List.not_mem_nil
  | cons head tail ih =>
      obtain ⟨_, nonzero, successor, _, later⟩ := chain
      intro address member
      rcases List.mem_cons.mp member with same | inTail
      · rw [same]; exact nonzero
      · exact ih later address inTail

theorem congr (chain : Chain next start first)
    (agree : ∀ address ∈ first, other address = next address) : Chain other start first := by
  induction first generalizing start with
  | nil => exact chain
  | cons head tail ih =>
      obtain ⟨same, nonzero, successor, found, later⟩ := chain
      refine ⟨same, nonzero, successor, ?_, ?_⟩
      · rw [agree head List.mem_cons_self]; exact found
      · exact ih later fun address member => agree address (List.mem_cons_of_mem _ member)

theorem unique {second : List Nat} (left : Chain next start first)
    (right : Chain next start second) : first = second := by
  induction first generalizing start second with
  | nil =>
      cases second with
      | nil => rfl
      | cons head tail => exact absurd (right.1.symm.trans left) right.2.1
  | cons head tail ih =>
      obtain ⟨same, nonzero, successor, found, later⟩ := left
      cases second with
      | nil => exact absurd (same.symm.trans right) nonzero
      | cons second tail' =>
          obtain ⟨same', _, successor', found', later'⟩ := right
          have heads : head = second := same.symm.trans same'
          subst heads
          rw [found] at found'
          obtain rfl := Option.some.inj found'
          rw [ih later later']

theorem suffix (chain : Chain next start (first ++ rest)) :
    ∃ middle, Chain next middle rest := by
  induction first generalizing start with
  | nil => exact ⟨start, chain⟩
  | cons head tail ih =>
      obtain ⟨_, _, successor, _, later⟩ := chain
      exact ih later

theorem suffix_cons {address : Nat} (chain : Chain next start (first ++ address :: rest)) :
    Chain next address (address :: rest) := by
  obtain ⟨middle, later⟩ := suffix chain
  have same : middle = address := later.1
  subst same
  exact later

theorem nodup (chain : Chain next start first) : first.Nodup := by
  induction first generalizing start with
  | nil => exact List.nodup_nil
  | cons head tail ih =>
      obtain ⟨same, nonzero, successor, found, later⟩ := chain
      refine List.nodup_cons.mpr ⟨?_, ih later⟩
      intro again
      obtain ⟨before, after, rfl⟩ := List.append_of_mem again
      have back : Chain next head (head :: (before ++ head :: after)) :=
        ⟨rfl, nonzero, successor, found, later⟩
      have lengths := congrArg List.length (unique back later.suffix_cons)
      simp only [List.length_cons, List.length_append] at lengths
      omega

theorem next_eq {address : Nat} (chain : Chain next start (first ++ address :: rest)) :
    next address = some (rest.headD 0) := by
  obtain ⟨_, _, successor, found, later⟩ := suffix_cons chain
  rw [found]
  cases rest with
  | nil => rw [show successor = 0 from later]; rfl
  | cons head tail => rw [later.1]; rfl

theorem next_mem {address successor : Nat} (chain : Chain next start first) (member : address ∈ first)
    (found : next address = some successor) : successor = 0 ∨ successor ∈ first := by
  obtain ⟨before, after, rfl⟩ := List.append_of_mem member
  obtain rfl := Option.some.inj (found.symm.trans chain.next_eq)
  cases after with
  | nil => exact .inl rfl
  | cons head tail => exact .inr (by simp)

theorem start_eq {address : Nat} (chain : Chain next start (address :: rest)) : start = address :=
  chain.1

/-- Two chains that differ in the pointer of one address: the list before it is kept. -/
theorem replace {address successor : Nat} {rest' : List Nat}
    (chain : Chain next start (first ++ address :: rest))
    (agree : ∀ before ∈ first, other before = next before)
    (changed : other address = some successor) (later : Chain other successor rest') :
    Chain other start (first ++ address :: rest') := by
  induction first generalizing start with
  | nil =>
      obtain ⟨same, nonzero, _⟩ := chain
      exact ⟨same, nonzero, successor, changed, later⟩
  | cons head tail ih =>
      obtain ⟨same, nonzero, after, found, chainLater⟩ := chain
      refine ⟨same, nonzero, after, ?_, ?_⟩
      · rw [agree head List.mem_cons_self]; exact found
      · exact ih chainLater fun before member => agree before (List.mem_cons_of_mem _ member)

theorem insertAfter {address fresh : Nat} (chain : Chain next start (first ++ address :: rest))
    (nonzero : fresh ≠ 0) (agreeFirst : ∀ before ∈ first, other before = next before)
    (agreeRest : ∀ after ∈ rest, other after = next after)
    (changed : other address = some fresh) (linked : other fresh = next address) :
    Chain other start (first ++ address :: fresh :: rest) := by
  refine chain.replace agreeFirst changed ⟨rfl, nonzero, rest.headD 0, ?_, ?_⟩
  · rw [linked, chain.next_eq]
  · obtain ⟨_, _, successor, found, later⟩ := chain.suffix_cons
    have same : successor = rest.headD 0 := by
      rw [chain.next_eq] at found
      exact (Option.some.inj found).symm
    rw [← same]
    exact later.congr agreeRest

theorem removeAfter {address removed : Nat}
    (chain : Chain next start (first ++ address :: removed :: rest))
    (agreeFirst : ∀ before ∈ first, other before = next before)
    (agreeRest : ∀ after ∈ rest, other after = next after)
    (changed : other address = next removed) :
    Chain other start (first ++ address :: rest) := by
  obtain ⟨_, _, _, _, _, _, after, found, later⟩ := chain.suffix_cons
  exact chain.replace agreeFirst (changed.trans found) (later.congr agreeRest)

def Follows (next : Nat → Option Nat) : Nat → Nat → Prop :=
  Relation.ReflTransGen fun source target => target ≠ 0 ∧ next source = some target

theorem follows_iff {address : Nat} (chain : Chain next start first) (nonzero : start ≠ 0) :
    Follows next start address ↔ address ∈ first := by
  constructor
  · intro follows
    induction follows with
    | refl =>
        cases first with
        | nil => exact absurd chain nonzero
        | cons head tail => simp [chain.1]
    | tail _ step member =>
        obtain ⟨before, after, rfl⟩ := List.append_of_mem member
        obtain ⟨targetNonzero, found⟩ := step
        rw [chain.next_eq] at found
        cases after with
        | nil => exact absurd (Option.some.inj found).symm targetNonzero
        | cons head later => simp [← Option.some.inj found]
  · intro member
    induction first generalizing start with
    | nil => exact absurd member List.not_mem_nil
    | cons head tail ih =>
        obtain ⟨rfl, _, successor, found, later⟩ := chain
        rcases List.mem_cons.mp member with rfl | inTail
        · exact Relation.ReflTransGen.refl
        · have onward : successor ≠ 0 := by
            rintro rfl
            cases tail with
            | nil => exact absurd inTail List.not_mem_nil
            | cons second others => exact later.2.1 later.1.symm
          exact Relation.ReflTransGen.head ⟨onward, found⟩ (ih later onward inTail)

end Chain
