import Mathlib.Data.List.Basic

/-! Runs of a total machine under a schedule, and the invariant rule for them. -/

namespace Runs

variable {State Action : Type}

def run (act : State → Action → State) (initial : State) (schedule : List Action) : State :=
  schedule.foldl act initial

@[simp] theorem run_nil (act : State → Action → State) (initial : State) :
    run act initial [] = initial := rfl

@[simp] theorem run_cons (act : State → Action → State) (initial : State) (action : Action)
    (rest : List Action) :
    run act initial (action :: rest) = run act (act initial action) rest := rfl

theorem run_append (act : State → Action → State) (initial : State) (first second : List Action) :
    run act initial (first ++ second) = run act (run act initial first) second := by
  simp [run]

theorem run_snoc (act : State → Action → State) (initial : State) (first : List Action)
    (action : Action) :
    run act initial (first ++ [action]) = act (run act initial first) action := by
  simp [run]

/-- What every action preserves holds after every schedule. -/
theorem run_invariant {act : State → Action → State} (holds : State → Prop) {initial : State}
    (base : holds initial) (step : ∀ state action, holds state → holds (act state action)) :
    ∀ schedule, holds (run act initial schedule) := by
  intro schedule
  induction schedule generalizing initial with
  | nil => exact base
  | cons action rest ih => exact ih (step initial action base)

def total (act : State → Action → State) (count : State → Action → Int) : State → List Action → Int
  | _, [] => 0
  | state, action :: rest => count state action + total act count (act state action) rest

/-- A property of each state together with the action taken in it, all along a schedule. -/
def Along (act : State → Action → State) (holds : State → Action → Prop) :
    State → List Action → Prop
  | _, [] => True
  | state, action :: rest => holds state action ∧ Along act holds (act state action) rest

instance decidableAlong (act : State → Action → State) (holds : State → Action → Prop)
    [∀ state action, Decidable (holds state action)] :
    ∀ state schedule, Decidable (Along act holds state schedule)
  | _, [] => inferInstanceAs (Decidable True)
  | state, action :: rest =>
      have := decidableAlong act holds (act state action) rest
      inferInstanceAs (Decidable (holds state action ∧ Along act holds (act state action) rest))

theorem Along.imp {act : State → Action → State} {first second : State → Action → Prop}
    (imp : ∀ state action, first state action → second state action) (schedule : List Action) :
    ∀ {state : State}, Along act first state schedule → Along act second state schedule := by
  induction schedule with
  | nil => exact fun _ => trivial
  | cons action rest ih =>
      rintro state ⟨now, later⟩
      exact ⟨imp state action now, ih later⟩

theorem Along.and {act : State → Action → State} {first second : State → Action → Prop}
    (schedule : List Action) : ∀ {state : State}, Along act first state schedule →
      Along act second state schedule →
      Along act (fun state action => first state action ∧ second state action) state schedule := by
  induction schedule with
  | nil => exact fun _ _ => trivial
  | cons action rest ih =>
      rintro state ⟨now, later⟩ ⟨now', later'⟩
      exact ⟨⟨now, now'⟩, ih later later'⟩

theorem Along.of_all {act : State → Action → State} {holds : State → Action → Prop}
    (all : ∀ state action, holds state action) (schedule : List Action) :
    ∀ {state : State}, Along act holds state schedule := by
  induction schedule with
  | nil => exact trivial
  | cons action rest ih => exact ⟨all _ action, ih⟩

theorem Along.of_mem {act : State → Action → State} {holds : State → Action → Prop}
    (schedule : List Action) : ∀ {state : State},
      (∀ state, ∀ action ∈ schedule, holds state action) → Along act holds state schedule := by
  induction schedule with
  | nil => exact fun _ => trivial
  | cons action rest ih =>
      exact fun all => ⟨all _ action List.mem_cons_self,
        ih fun state other member => all state other (List.mem_cons_of_mem _ member)⟩

theorem along_snoc (act : State → Action → State) (holds : State → Action → Prop)
    (state : State) (first : List Action) (action : Action) :
    Along act holds state (first ++ [action]) ↔
      Along act holds state first ∧ holds (run act state first) action := by
  induction first generalizing state with
  | nil => simp [Along]
  | cons head rest ih => simp [Along, ih, and_assoc]

theorem Along.first {act : State → Action → State} {holds : State → Action → Prop}
    {first rest : List Action} : ∀ {state : State}, Along act holds state (first ++ rest) →
      Along act holds state first := by
  induction first with
  | nil => exact fun _ => trivial
  | cons head tail ih =>
      rintro state ⟨now, later⟩
      exact ⟨now, ih later⟩

theorem Along.second {act : State → Action → State} {holds : State → Action → Prop}
    {first rest : List Action} : ∀ {state : State}, Along act holds state (first ++ rest) →
      Along act holds (run act state first) rest := by
  induction first with
  | nil => exact id
  | cons head tail ih =>
      rintro state ⟨_, later⟩
      exact ih later

theorem along_after (act : State → Action → State) (holds : State → Prop) (schedule : List Action) :
    ∀ state, Along act (fun state action => holds (act state action)) state schedule ↔
      ∀ first action rest, schedule = first ++ action :: rest →
        holds (run act state (first ++ [action])) := by
  induction schedule with
  | nil =>
      intro state
      refine ⟨fun _ first action rest split => ?_, fun _ => trivial⟩
      exact absurd split.symm (List.append_ne_nil_of_right_ne_nil first (List.cons_ne_nil action rest))
  | cons head tail ih =>
      intro state
      constructor
      · rintro ⟨now, later⟩ first action rest split
        cases first with
        | nil =>
            obtain ⟨rfl, _⟩ := List.cons.inj split
            exact now
        | cons other first =>
            obtain ⟨rfl, inTail⟩ := List.cons.inj split
            exact (ih _).mp later first action rest inTail
      · intro all
        refine ⟨all [] head tail rfl, (ih _).mpr ?_⟩
        intro first action rest split
        exact all (head :: first) action rest (by rw [split]; rfl)

theorem along_iff {act : State → Action → State} (inv : State → Prop)
    {first second : State → Action → Prop}
    (agree : ∀ state action, inv state → (first state action ↔ second state action))
    (keeps : ∀ state action, inv state → first state action → inv (act state action))
    (schedule : List Action) {state : State} (base : inv state) :
    Along act first state schedule ↔ Along act second state schedule := by
  induction schedule generalizing state with
  | nil => exact Iff.rfl
  | cons action rest ih =>
      constructor
      · rintro ⟨step, later⟩
        exact ⟨(agree state action base).mp step, (ih (keeps state action base step)).mp later⟩
      · rintro ⟨step, later⟩
        have stepFirst := (agree state action base).mpr step
        exact ⟨stepFirst, (ih (keeps state action base stepFirst)).mpr later⟩

end Runs
