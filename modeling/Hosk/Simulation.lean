import Hosk.Linearizability

/-!
One machine matched by another of finer steps: every action of the coarse one by a schedule of the fine
one that shows the same calls and returns.
-/

namespace Linearizability

variable {Op Ret State Action : Type} {act : State → Action → State}
  {emits : State → Action → List (Event Op Ret)} {allowed : State → Action → Prop}

def Shows (act : State → Action → State) (emits : State → Action → List (Event Op Ret))
    (allowed : State → Action → Prop) (state : State) (events : List (Event Op Ret)) (last : State) :
    Prop :=
  ∃ schedule, Runs.Along act allowed state schedule ∧ Runs.run act state schedule = last ∧
    history act emits state schedule = events

namespace Shows

variable {state middle last : State} {first second : List (Event Op Ret)}

theorem refl (state : State) : Shows act emits allowed state [] state := ⟨[], trivial, rfl, rfl⟩

theorem cons {action : Action} (now : allowed state action)
    (later : Shows act emits allowed (act state action) second last) :
    Shows act emits allowed state (emits state action ++ second) last := by
  obtain ⟨schedule, along, ran, showed⟩ := later
  refine ⟨action :: schedule, ⟨now, along⟩, ran, ?_⟩
  rw [history, showed]

theorem trans (one : Shows act emits allowed state first middle)
    (other : Shows act emits allowed middle second last) :
    Shows act emits allowed state (first ++ second) last := by
  obtain ⟨schedule, along, ran, showed⟩ := one
  induction schedule generalizing state first with
  | nil =>
      subst ran showed
      exact other
  | cons action rest ih =>
      rw [← showed, history, List.append_assoc]
      exact cons along.1 (ih along.2 ran rfl)

variable {State' Action' : Type} {act' : State' → Action' → State'}
  {emits' : State' → Action' → List (Event Op Ret)} {allowed' : State' → Action' → Prop}

/-- A coarse machine whose every allowed action is matched shows no history that the fine one does not. -/
theorem run (related : State' → State → Prop)
    (step : ∀ coarse fine action, related coarse fine → allowed' coarse action →
      ∃ next, Shows act emits allowed fine (emits' coarse action) next ∧
        related (act' coarse action) next) (schedule : List Action') :
    ∀ coarse fine, related coarse fine → Runs.Along act' allowed' coarse schedule →
      ∃ last, Shows act emits allowed fine (history act' emits' coarse schedule) last ∧
        related (Runs.run act' coarse schedule) last := by
  induction schedule with
  | nil => exact fun coarse fine match_ _ => ⟨fine, refl fine, match_⟩
  | cons action rest ih =>
      rintro coarse fine match_ ⟨now, along⟩
      obtain ⟨next, showsNow, after⟩ := step coarse fine action match_ now
      obtain ⟨last, showsLater, final⟩ := ih (act' coarse action) next after along
      exact ⟨last, showsNow.trans showsLater, final⟩

end Shows

end Linearizability
