import Mathlib.Algebra.BigOperators.Group.Finset.Basic
import Mathlib.Algebra.Order.BigOperators.Group.Finset
import Mathlib.Algebra.Ring.Nat
import Hosk.Runs

/-!
Bounds by a potential: what a machine spends along a run, against what its actions add to the potential,
and potentials that are sums over its threads.
-/

namespace Progress

open Runs

variable {State Action : Type} {act : State → Action → State}

def along (act : State → Action → State) (amount : State → Action → Nat) : State → List Action → Nat
  | _, [] => 0
  | state, action :: rest => amount state action + along act amount (act state action) rest

theorem along_mul (factor : Nat) (amount : State → Action → Nat) (schedule : List Action) : ∀ state,
    along act (fun state action => factor * amount state action) state schedule =
      factor * along act amount state schedule := by
  induction schedule with
  | nil => exact fun _ => rfl
  | cons action rest ih =>
      intro state
      rw [along, along, ih, Nat.mul_add]

theorem run_keeps (inv : State → Prop) {allowed : Action → Prop}
    (keeps : ∀ state action, inv state → allowed action → inv (act state action)) (schedule : List Action) :
    ∀ state, inv state → (∀ action ∈ schedule, allowed action) → inv (run act state schedule) := by
  induction schedule with
  | nil => exact fun _ base _ => base
  | cons action rest ih =>
      intro state base all
      exact ih _ (keeps state action base (all action List.mem_cons_self)) fun other member =>
        all other (List.mem_cons_of_mem _ member)

/-- Where no action raises the potential by more than its price, less what it spends, a run spends no more
than the potential it began with and the prices it has paid. -/
theorem spent_le (potential : State → Nat) (spends price : State → Action → Nat) (inv : State → Prop)
    {allowed : Action → Prop}
    (keeps : ∀ state action, inv state → allowed action → inv (act state action))
    (step : ∀ state action, inv state → allowed action →
      potential (act state action) + spends state action ≤ potential state + price state action)
    (schedule : List Action) : ∀ state, inv state → (∀ action ∈ schedule, allowed action) →
      potential (run act state schedule) + along act spends state schedule ≤
        potential state + along act price state schedule := by
  induction schedule with
  | nil => exact fun state _ _ => Nat.le_refl _
  | cons action rest ih =>
      intro state base all
      have now := step state action base (all action List.mem_cons_self)
      have later := ih (act state action) (keeps state action base (all action List.mem_cons_self)) fun other member =>
        all other (List.mem_cons_of_mem _ member)
      rw [run_cons, along, along]
      omega

theorem spent_gained (gain : State → Nat) (spends : State → Action → Nat) (inv : State → Prop)
    {allowed : State → Action → Prop}
    (keeps : ∀ state action, inv state → allowed state action → inv (act state action))
    (step : ∀ state action, inv state → allowed state action →
      gain state + spends state action ≤ gain (act state action)) (schedule : List Action) :
    ∀ state, inv state → Along act allowed state schedule → inv (run act state schedule) ∧
      gain state + along act spends state schedule ≤ gain (run act state schedule) := by
  induction schedule with
  | nil => exact fun state base _ => ⟨base, Nat.le_refl _⟩
  | cons action rest ih =>
      rintro state base ⟨now, later⟩
      obtain ⟨kept, bound⟩ := ih _ (keeps state action base now) later
      have first := step state action base now
      refine ⟨kept, ?_⟩
      rw [run_cons, along]
      omega

section Threads

variable {Thread : Type} [DecidableEq Thread] {threads : Finset Thread} {before after : Thread → Nat}

theorem sum_le {mover : Thread} {own price rise : Nat} (member : mover ∈ threads)
    (moves : after mover + own ≤ before mover + price)
    (others : ∀ thread ∈ threads, thread ≠ mover → after thread ≤ before thread + rise) :
    (∑ thread ∈ threads, after thread) + own ≤
      (∑ thread ∈ threads, before thread) + price + (threads.card - 1) * rise := by
  have rest : ∑ thread ∈ threads.erase mover, after thread ≤
      (∑ thread ∈ threads.erase mover, before thread) + (threads.card - 1) * rise := by
    calc ∑ thread ∈ threads.erase mover, after thread
        ≤ ∑ thread ∈ threads.erase mover, (before thread + rise) :=
          Finset.sum_le_sum fun thread inRest =>
            others thread (Finset.mem_of_mem_erase inRest) (Finset.ne_of_mem_erase inRest)
      _ = (∑ thread ∈ threads.erase mover, before thread) + (threads.card - 1) * rise := by
          rw [Finset.sum_add_distrib, Finset.sum_const_nat fun _ _ => rfl, Finset.card_erase_of_mem member]
  rw [← Finset.add_sum_erase threads after member, ← Finset.add_sum_erase threads before member]
  omega

end Threads

end Progress
