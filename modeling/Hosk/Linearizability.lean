import Mathlib.Logic.Function.Basic
import Hosk.Runs

/-!
Linearizability of a concurrent object with respect to a sequential one, stated through the
canonical atomic object: every operation takes effect in one silent step of its own between its
call and its return.
-/

namespace Linearizability

/-- A sequential object: what each operation does to the state and what it returns. -/
structure SeqObject (Value Op Ret : Type) where
  initial : Value
  apply : Op → Value → Value × Ret

namespace SeqObject

variable {Value Op Ret : Type} (object : SeqObject Value Op Ret)

def after (value : Value) (ops : List Op) : Value :=
  ops.foldl (fun value op => (object.apply op value).1) value

def replies : Value → List Op → List Ret
  | _, [] => []
  | value, op :: rest => (object.apply op value).2 :: replies (object.apply op value).1 rest

theorem replies_append (value : Value) (first second : List Op) : object.replies value (first ++ second) =
    object.replies value first ++ object.replies (object.after value first) second := by
  induction first generalizing value with
  | nil => rfl
  | cons op rest ih =>
      rw [List.cons_append, replies, replies, ih, List.cons_append]
      rfl

end SeqObject

inductive Event (Op Ret : Type) where
  | call (thread : Nat) (op : Op)
  | ret (thread : Nat) (result : Ret)
  deriving DecidableEq, Repr

inductive Status (Op Ret : Type) where
  | idle
  | pending (op : Op)
  | finished (result : Ret)

structure AtomicState (Value Op Ret : Type) where
  value : Value
  status : Nat → Status Op Ret

variable {Value Op Ret : Type}

namespace AtomicState

def setStatus (state : AtomicState Value Op Ret) (thread : Nat) (status : Status Op Ret) :
    AtomicState Value Op Ret :=
  { state with status := Function.update state.status thread status }

@[simp] theorem setStatus_value (state : AtomicState Value Op Ret) (thread : Nat)
    (status : Status Op Ret) : (state.setStatus thread status).value = state.value := rfl

@[simp] theorem setStatus_same (state : AtomicState Value Op Ret) (thread : Nat)
    (status : Status Op Ret) : (state.setStatus thread status).status thread = status := by
  simp [setStatus]

theorem setStatus_other (state : AtomicState Value Op Ret) {thread other : Nat}
    (status : Status Op Ret) (different : other ≠ thread) :
    (state.setStatus thread status).status other = state.status other := by
  simp [setStatus, different]

end AtomicState

def atomicInitial (object : SeqObject Value Op Ret) : AtomicState Value Op Ret :=
  ⟨object.initial, fun _ => .idle⟩

/-- Runs of the atomic object: calls and returns are visible, the effects between them are not. -/
inductive AtomicRun (object : SeqObject Value Op Ret) :
    AtomicState Value Op Ret → List (Event Op Ret) → AtomicState Value Op Ret → Prop where
  | done (state) : AtomicRun object state [] state
  | call {state history final} (thread : Nat) (op : Op) :
      state.status thread = .idle →
      AtomicRun object (state.setStatus thread (.pending op)) history final →
      AtomicRun object state (.call thread op :: history) final
  | effect {state history final} (thread : Nat) (op : Op) :
      state.status thread = .pending op →
      AtomicRun object
        (AtomicState.setStatus { state with value := (object.apply op state.value).1 } thread
          (.finished (object.apply op state.value).2)) history final →
      AtomicRun object state history final
  | ret {state history final} (thread : Nat) (result : Ret) :
      state.status thread = .finished result →
      AtomicRun object (state.setStatus thread .idle) history final →
      AtomicRun object state (.ret thread result :: history) final

/-- The history of calls and returns is one the atomic object can show. -/
def Linearizable (object : SeqObject Value Op Ret) (history : List (Event Op Ret)) : Prop :=
  ∃ final, AtomicRun object (atomicInitial object) history final

theorem AtomicRun.trans {object : SeqObject Value Op Ret} {first middle last}
    {before after : List (Event Op Ret)} (left : AtomicRun object first before middle)
    (right : AtomicRun object middle after last) : AtomicRun object first (before ++ after) last := by
  induction left with
  | done state => exact right
  | call thread op idle _ ih => exact .call thread op idle (ih right)
  | effect thread op pending _ ih => exact .effect thread op pending (ih right)
  | ret thread result finished _ ih => exact .ret thread result finished (ih right)

/-- What may happen to one thread without being seen: nothing, or its operation takes effect. -/
def SilentTurn (object : SeqObject Value Op Ret) (value : Value) (status : Status Op Ret)
    (value' : Value) (status' : Status Op Ret) : Prop :=
  value' = value ∧ status' = status ∨
    ∃ op, status = .pending op ∧ value' = (object.apply op value).1 ∧
      status' = .finished (object.apply op value).2

theorem SilentTurn.stay {object : SeqObject Value Op Ret} (value : Value)
    (status : Status Op Ret) : SilentTurn object value status value status :=
  .inl ⟨rfl, rfl⟩

theorem SilentTurn.trans {object : SeqObject Value Op Ret} {value value' value'' : Value}
    {status status' status'' : Status Op Ret} (first : SilentTurn object value status value' status')
    (second : SilentTurn object value' status' value'' status'') :
    SilentTurn object value status value'' status'' := by
  rcases first with ⟨rfl, rfl⟩ | ⟨op, pending, valueEq, statusEq⟩
  · exact second
  · rcases second with ⟨rfl, rfl⟩ | ⟨later, wrong, _⟩
    · exact .inr ⟨op, pending, valueEq, statusEq⟩
    · rw [statusEq] at wrong
      cases wrong

theorem AtomicRun.silent {object : SeqObject Value Op Ret} {state : AtomicState Value Op Ret}
    {thread : Nat} {value : Value} {status : Status Op Ret}
    (turn : SilentTurn object state.value (state.status thread) value status) :
    AtomicRun object state [] (AtomicState.setStatus { state with value := value } thread status) := by
  rcases turn with ⟨rfl, rfl⟩ | ⟨op, pending, rfl, rfl⟩
  · have same : AtomicState.setStatus { state with value := state.value } thread
        (state.status thread) = state := by
      simp [AtomicState.setStatus]
    rw [same]
    exact .done state
  · exact .effect thread op pending (.done _)

section Machine

variable {State Action : Type} (act : State → Action → State)
  (emits : State → Action → List (Event Op Ret))

def history : State → List Action → List (Event Op Ret)
  | _, [] => []
  | state, action :: rest => emits state action ++ history (act state action) rest

variable {act emits}

/-- A machine whose every action is matched by the atomic object shows linearizable histories. -/
theorem linearizable_of_simulation {object : SeqObject Value Op Ret} {initial : State}
    (related : State → AtomicState Value Op Ret → Prop)
    (base : related initial (atomicInitial object))
    (step : ∀ state atomic action, related state atomic →
      ∃ next, AtomicRun object atomic (emits state action) next ∧ related (act state action) next)
    (schedule : List Action) : Linearizable object (history act emits initial schedule) := by
  suffices general : ∀ state atomic, related state atomic →
      ∃ final, AtomicRun object atomic (history act emits state schedule) final from
    general initial _ base
  induction schedule with
  | nil => exact fun _ atomic _ => ⟨atomic, .done atomic⟩
  | cons action rest ih =>
      intro state atomic match_
      obtain ⟨next, now, after⟩ := step state atomic action match_
      obtain ⟨final, later⟩ := ih (act state action) next after
      exact ⟨final, now.trans later⟩

end Machine

end Linearizability
