import Hosk.DataLayerProgress

/-!
The data layer is lock-free: in any order of the threads' accesses, some operation returns before too many
are made. What one thread may still spend pays for what its success undoes for the others.
-/

namespace Hosk

open Linearizability
open Progress

def settled (state : Local) : Bool :=
  match state.pc with
  | .storePrev | .returned _ => true
  | _ => false

namespace DataLayer

/-- The accesses that an action makes, the return of an operation counted as one. -/
def accesses (layer : DataLayer) : DataAction → Nat
  | .call _ _ _ => 0
  | .step thread malloc =>
      (layer.threads thread).elim 0 fun state => if assumed malloc layer.nodes state then 1 else 0

def returns (layer : DataLayer) : DataAction → Nat
  | .call _ _ _ => 0
  | .step thread _ =>
      match layer.threads thread with
      | some ⟨.returned _, _⟩ => 1
      | _ => 0

/-- What the thread may still spend on accesses of its own, and on those that its success costs the others. -/
def share (threads : Finset Nat) (bound : Nat) (layer : DataLayer) (thread : Nat) : Nat :=
  (layer.threads thread).elim (threads.card * bound) fun state =>
    work layer.nodes state + if settled state then 0 else (threads.card - 1) * bound

def shares (threads : Finset Nat) (bound : Nat) (layer : DataLayer) : Nat :=
  ∑ thread ∈ threads, layer.share threads bound thread

structure Within (threads : Finset Nat) (key : Nat) (layer : DataLayer) : Prop where
  related : ∃ atomic, Related layer atomic
  running : ∀ thread state, layer.threads thread = some state →
    thread ∈ threads ∧ state.frame.op.key ≤ key

end DataLayer

namespace DataAction

def Within (threads : Finset Nat) (key : Nat) : DataAction → Prop
  | .call thread op _ => thread ∈ threads ∧ op.key ≤ key
  | .step _ _ => True

end DataAction

section Steps

variable {nodes nodes' : Nodes} {linked : List Nat} {status : Status Operation Nat} {malloc : Malloc}
  {state state' : Local}

theorem dataStep_settled (ok : ThreadOk nodes linked status state)
    (step : dataStep malloc nodes state = some (nodes', state')) (before : settled state = true) :
    settled state' = true := by
  obtain ⟨pc, f⟩ := state
  cases pc with
  | storePrev =>
      simp only [dataStep, Option.bind_eq_bind, Option.bind_eq_some_iff] at step
      obtain ⟨next, _, step⟩ := step
      obtain ⟨_, rfl⟩ := Prod.mk.inj (Option.some.inj step)
      rfl
  | returned result => exact absurd step (Option.some_ne_none _).symm
  | _ => exact absurd before Bool.false_ne_true

theorem dataStep_settles (success : casSucceeds nodes state = true)
    (step : dataStep malloc nodes state = some (nodes', state')) :
    settled state = false ∧ settled state' = true := by
  obtain ⟨pc, f⟩ := state
  cases pc with
  | deleteCas | insertCasVal | insertCasNext =>
      refine ⟨rfl, ?_⟩
      simp only [dataStep, Option.bind_eq_bind, Option.bind_eq_some_iff] at step
      grind [casSucceeds, settled, valAt_found, nextOf_found]
  | _ => exact absurd success Bool.false_ne_true

end Steps

section Acts

variable {threads : Finset Nat} {key : Nat} {layer : DataLayer} {linked : List Nat}
  {atomic : AtomicState (Finset Nat) Operation Nat}

theorem share_replaced {bound thread other : Nat} {state : Option Local} (different : other ≠ thread) :
    (layer.setThread thread state).share threads bound other = layer.share threads bound other := by
  have same : (layer.setThread thread state).threads other = layer.threads other :=
    Function.update_of_ne different _ _
  rw [DataLayer.share, DataLayer.share, same]
  rfl

theorem share_set (bound thread : Nat) (nodes : Nodes) (state : Option Local) :
    ({ layer with nodes := nodes }.setThread thread state).share threads bound thread =
      state.elim (threads.card * bound) fun state =>
        work nodes state + if settled state then 0 else (threads.card - 1) * bound := by
  have same : ({ layer with nodes := nodes }.setThread thread state).threads thread = state :=
    Function.update_self _ _ _
  rw [DataLayer.share, same]
  rfl

theorem share_running (threads : Finset Nat) (bound : Nat) {thread : Nat} {state : Local}
    (running : layer.threads thread = some state) : layer.share threads bound thread =
      work layer.nodes state + if settled state then 0 else (threads.card - 1) * bound := by
  rw [DataLayer.share, running]
  rfl

theorem card_mul {thread : Nat} (member : thread ∈ threads) (bound : Nat) :
    threads.card * bound = (threads.card - 1) * bound + bound := by
  have positive : 1 ≤ threads.card := Finset.card_pos.mpr ⟨thread, member⟩
  rw [← Nat.succ_mul, Nat.succ_eq_add_one, Nat.sub_add_cancel positive]

theorem shares_le {bound mover own price rise : Nat} {before after : DataLayer} (member : mover ∈ threads)
    (moves : after.share threads bound mover + own ≤ before.share threads bound mover + price)
    (others : ∀ thread ∈ threads, thread ≠ mover →
      after.share threads bound thread ≤ before.share threads bound thread + rise) :
    after.shares threads bound + own ≤ before.shares threads bound + price + (threads.card - 1) * rise :=
  sum_le member moves others

theorem share_le (within : layer.Within threads key) (thread : Nat) (member : thread ∈ threads) :
    layer.share threads (8 * key + 30) thread ≤ threads.card * (8 * key + 30) := by
  rw [DataLayer.share, card_mul member]
  cases running : layer.threads thread with
  | none => exact Nat.le_refl _
  | some state =>
      have small := (within.running thread state running).2
      have most := work_le layer.nodes state
      simp only [Option.elim]
      split <;> omega

section Step

variable {thread : Nat} {malloc : Malloc} {state state' : Local} {nodes' : Nodes} {linked' : List Nat}
  {keys' : Finset Nat} {status' : Status Operation Nat}

/-- A success costs each of the others one more round of its loop, and any other access costs them
nothing. -/
theorem step_others (agrees : Agrees layer linked atomic) (within : layer.Within threads key)
    (running : layer.threads thread = some state) (assumption : assumed malloc layer.nodes state = true)
    (taken : dataStep malloc layer.nodes state = some (nodes', state'))
    (frames : Frames layer.nodes linked (owned state) nodes' linked') {other : Nat}
    (different : other ≠ thread) :
    ({ layer with nodes := nodes' }.setThread thread (some state')).share threads (8 * key + 30) other ≤
      layer.share threads (8 * key + 30) other +
        if casSucceeds layer.nodes state then 8 * key + 30 else 0 := by
  rw [share_replaced different]
  cases located : layer.threads other with
  | none =>
      rw [DataLayer.share, DataLayer.share, located]
      exact Nat.le_add_right _ _
  | some otherState =>
      rw [@share_running { layer with nodes := nodes' } threads _ _ _ located,
        share_running threads _ located]
      by_cases success : casSucceeds layer.nodes state = true
      · have small := (within.running other otherState located).2
        have most := work_le nodes' otherState
        rw [if_pos success]
        show work nodes' otherState + _ ≤ _
        omega
      · have quiet := dataStep_quiet agrees.list (agrees.inside thread state running)
          (fun address owner => (agrees.owns thread state address running owner).1) assumption
          (Bool.not_eq_true _ ▸ success) taken
        have same := work_congr (agrees.inside other otherState located) frames.keys quiet
        exact (congrArg (· + _) same).trans_le (Nat.le_add_right _ _)

theorem step_shares (agrees : Agrees layer linked atomic) (within : layer.Within threads key)
    (running : layer.threads thread = some state) (assumption : assumed malloc layer.nodes state = true)
    (taken : dataStep malloc layer.nodes state = some (nodes', state'))
    (frames : Frames layer.nodes linked (owned state) nodes' linked') :
    ({ layer with nodes := nodes' }.setThread thread (some state')).shares threads (8 * key + 30) + 1 ≤
      layer.shares threads (8 * key + 30) := by
  have member := (within.running thread state running).1
  have ok := agrees.inside thread state running
  have less := dataStep_work agrees.list ok
    (fun address owner => (agrees.owns thread state address running owner).1) assumption frames.keys taken
  have others := fun other (_ : other ∈ threads) (different : other ≠ thread) =>
    step_others agrees within running assumption taken frames different
  have before := share_running threads (8 * key + 30) running
  have after : ({ layer with nodes := nodes' }.setThread thread (some state')).share threads
      (8 * key + 30) thread =
        work nodes' state' + if settled state' then 0 else (threads.card - 1) * (8 * key + 30) :=
    share_set _ _ _ _
  by_cases success : casSucceeds layer.nodes state = true
  · obtain ⟨unsettled, settles⟩ := dataStep_settles success taken
    rw [unsettled, if_neg Bool.false_ne_true] at before
    rw [if_pos settles] at after
    simp only [if_pos success] at others
    have moves : ({ layer with nodes := nodes' }.setThread thread (some state')).share threads
        (8 * key + 30) thread + (1 + (threads.card - 1) * (8 * key + 30)) ≤
          layer.share threads (8 * key + 30) thread + 0 := by
      omega
    have falls := shares_le member moves others
    omega
  · have moves : ({ layer with nodes := nodes' }.setThread thread (some state')).share threads
        (8 * key + 30) thread + 1 ≤ layer.share threads (8 * key + 30) thread + 0 := by
      rw [before, after]
      by_cases already : settled state = true
      · rw [if_pos already, if_pos (dataStep_settled ok taken already)]
        omega
      · rw [if_neg already]
        split <;> omega
    simp only [if_neg success] at others
    have falls := shares_le member moves others
    omega

end Step

theorem act_shares (within : layer.Within threads key) {action : DataAction}
    (allowed : action.Within threads key) :
    (layer.act action).shares threads (8 * key + 30) + layer.accesses action ≤
      layer.shares threads (8 * key + 30) + threads.card * (8 * key + 30) * layer.returns action := by
  obtain ⟨atomic, linked, agrees⟩ := within.related
  have acts := act_acts agrees action
  generalize layer.act action = after, layer.emits action = events at acts ⊢
  cases acts with
  | nothing action none =>
      have quiet : layer.accesses action = 0 := by
        cases action with
        | call thread op entry => rfl
        | step thread malloc =>
            cases running : layer.threads thread with
            | none => simp [DataLayer.accesses, running]
            | some state => simp [DataLayer.accesses, running, none thread malloc state rfl running]
      omega
  | call thread op entry outside ok =>
      have most := work_le layer.nodes (slTraverseData entry op)
      have whole := card_mul allowed.1 (8 * key + 30)
      have sameOp : (slTraverseData entry op).frame.op.key ≤ key := allowed.2
      have moves : (layer.setThread thread (some (slTraverseData entry op))).share threads
          (8 * key + 30) thread + 0 ≤ layer.share threads (8 * key + 30) thread + 0 := by
        rw [share_set _ _ layer.nodes, DataLayer.share, outside]
        simp only [Option.elim]
        split <;> omega
      have falls := shares_le allowed.1 moves fun other _ different =>
        (share_replaced different).trans_le (Nat.le_add_right _ 0)
      simp only [DataLayer.accesses]
      omega
  | ret thread malloc result f running =>
      have member := (within.running thread _ running).1
      have one : layer.accesses (.step thread malloc) = 1 := by
        simp [DataLayer.accesses, running, assumed]
      have returned : layer.returns (.step thread malloc) = 1 := by
        simp [DataLayer.returns, running]
      have moves : (layer.setThread thread none).share threads (8 * key + 30) thread + 1 ≤
          layer.share threads (8 * key + 30) thread + threads.card * (8 * key + 30) := by
        rw [share_set _ _ layer.nodes, share_running _ _ running, Nat.add_comm]
        exact Nat.add_le_add_right (Nat.le_refl 1) _
      have falls := shares_le member moves fun other _ different =>
        (share_replaced different).trans_le (Nat.le_add_right _ 0)
      rw [one, returned]
      omega
  | step thread malloc state nodes' state' linked' keys' status' running assumption taken advances =>
      have falls := step_shares agrees within running assumption taken advances.frames
      have one : layer.accesses (.step thread malloc) = 1 := by
        simp [DataLayer.accesses, running, assumption]
      omega

theorem act_within (within : layer.Within threads key) {action : DataAction}
    (allowed : action.Within threads key) : (layer.act action).Within threads key := by
  obtain ⟨atomic, linked, agrees⟩ := within.related
  obtain ⟨next, _, related⟩ := related_step action ⟨linked, agrees⟩
  refine ⟨⟨next, related⟩, ?_⟩
  have acts := act_acts agrees action
  generalize layer.act action = after, layer.emits action = events at acts ⊢
  have unmoved : ∀ mover state other otherState (nodes : Nodes),
      (∀ locals, state = some locals → mover ∈ threads ∧ locals.frame.op.key ≤ key) →
      ({ layer with nodes := nodes }.setThread mover state).threads other = some otherState →
      other ∈ threads ∧ otherState.frame.op.key ≤ key := by
    intro mover state other otherState nodes moved located
    by_cases same : other = mover
    · subst other
      rw [DataLayer.setThread] at located
      dsimp only at located
      rw [Function.update_self] at located
      exact moved otherState located
    · rw [DataLayer.setThread] at located
      dsimp only at located
      rw [Function.update_of_ne same] at located
      exact within.running other otherState located
  cases acts with
  | nothing action none => exact within.running
  | call thread op entry outside ok =>
      intro other otherState located
      refine unmoved thread _ other otherState layer.nodes (fun locals same => ?_) located
      obtain rfl := Option.some.inj same
      exact allowed
  | ret thread malloc result f running =>
      intro other otherState located
      exact unmoved thread none other otherState layer.nodes
        (fun locals same => absurd same (Option.some_ne_none locals).symm) located
  | step thread malloc state nodes' state' linked' keys' status' running assumption taken advances =>
      intro other otherState located
      refine unmoved thread _ other otherState nodes' (fun locals same => ?_) located
      obtain rfl := Option.some.inj same
      rw [dataStep_op (agrees.inside thread state running) taken]
      exact within.running thread state running

end Acts

/-- However the accesses of some threads come in between each other, from any state that is reached they
make no more than a bound for each operation that returns, and for each thread once more. -/
theorem data_layer_lock_free (head : Nat) (nonzero : head ≠ 0) (threads : Finset Nat) (key : Nat)
    (before during : List DataAction) (calls : ∀ action ∈ before ++ during, action.Within threads key) :
    along DataLayer.act DataLayer.accesses (DataLayer.after head before) during ≤
      threads.card * (8 * key + 30) *
        (along DataLayer.act DataLayer.returns (DataLayer.after head before) during + threads.card) := by
  have base : (DataLayer.new head).Within threads key := by
    refine ⟨⟨_, [head], Agrees.initial nonzero⟩, fun thread state running => ?_⟩
    exact absurd running (Option.some_ne_none state).symm
  have keeps : ∀ layer action, DataLayer.Within threads key layer → DataAction.Within threads key action →
      (DataLayer.act layer action).Within threads key := fun _ _ within allowed => act_within within allowed
  have reached : (DataLayer.after head before).Within threads key :=
    run_keeps _ keeps before _ base fun action member => calls action (List.mem_append_left _ member)
  have spent := spent_le (DataLayer.shares threads (8 * key + 30)) DataLayer.accesses
    (fun layer action => threads.card * (8 * key + 30) * layer.returns action) _ keeps
    (fun _ _ within allowed => act_shares within allowed) during _ reached
    fun action member => calls action (List.mem_append_right _ member)
  have start : (DataLayer.after head before).shares threads (8 * key + 30) ≤
      threads.card * (threads.card * (8 * key + 30)) :=
    Finset.sum_le_card_nsmul _ _ _ fun thread member => share_le reached thread member
  rw [along_mul] at spent
  rw [Nat.mul_add, Nat.mul_comm (threads.card * (8 * key + 30)) threads.card]
  omega

-- one thread inserts 5 while another, called before that, looks for it
theorem insertDuringContains_lock_free : (16 : Nat) ≠ 0 ∧
    (∀ action ∈ insertDuringContains, action.Within {0, 1} 5) ∧
    along DataLayer.act DataLayer.accesses (DataLayer.after 16 []) insertDuringContains = 19 ∧
    along DataLayer.act DataLayer.returns (DataLayer.after 16 []) insertDuringContains = 2 ∧
    along DataLayer.act DataLayer.accesses (DataLayer.after 16 []) insertDuringContains ≤
      ({0, 1} : Finset Nat).card * (8 * 5 + 30) *
        (along DataLayer.act DataLayer.returns (DataLayer.after 16 []) insertDuringContains +
          ({0, 1} : Finset Nat).card) := by
  have calls : ∀ action ∈ insertDuringContains, action.Within {0, 1} 5 := by
    simp [insertDuringContains, DataAction.Within]
  exact ⟨by decide, calls, by decide, by decide, data_layer_lock_free 16 (by decide) {0, 1} 5 []
    insertDuringContains calls⟩

end Hosk
