import Hosk.DataLayerWaitFree
import Hosk.HelperFrame
import Hosk.SystemSize

/-!
The ends of operations in the whole program: how far an application thread is from the return of
`sl_do_operation`, whatever the helpers and the other application threads do meanwhile.
-/

namespace Hosk

open Linearizability
open Progress

def SystemAct.isAppOf (i : Nat) : SystemAct → Bool
  | .app j _ => j == i
  | _ => false

/-- The thread is in a call of `sl_do_operation` for a `sl_contains`, with a bound on the accesses that
are left to it: reads in its index, the step into the data layer, and what a call of `sl_traverse_data`
for its key may take. -/
inductive System.Contains (s : System) (linked : List Nat) (i : Nat) : Nat → Prop where
  | searching (op : Operation) (pc : SearchPc) (left : Nat) (app : s.apps i = .searching op pc)
      (isContains : op.optype = .contains)
      (helper : HelperAt s.nodes linked (s.rings i).returned (s.apps i) (s.enclaves i) left) :
      System.Contains s linked i (left + 4 * op.key + 15)
  | traversing (state : Local) (app : s.apps i = .traversing state)
      (isContains : state.frame.op.optype = .contains) :
      System.Contains s linked i (accessesLeft s.nodes state)

section Contains

variable {machine : Machine} {i left : Nat} {s s' : System} {linked linked' : List Nat}
  {inner inner' : AtomicState (Finset Nat) Operation Nat} {malloc : Malloc}

theorem System.Contains.going (contains : s.Contains linked i left) : 1 ≤ left := by
  cases contains with
  | searching op pc left => omega
  | traversing state => exact accessesLeft_pos s.nodes state

theorem contains_assumed {nodes : Nodes} {status : Status Operation Nat} {state : Local}
    (ok : ThreadOk nodes linked status state) (isContains : state.frame.op.optype = .contains) :
    assumed malloc nodes state = true := by
  obtain ⟨pc, f⟩ := state
  have notInsert : f.op.optype ≠ .insert := by
    rw [isContains]
    exact OpType.noConfusion
  cases pc with
  | newNode stage =>
      cases stage with
      | malloc =>
          have inserting : Inserting nodes linked status f := ok
          exact absurd inserting.isInsert notInsert
      | key | val | prev | next | level => rfl
  | insertCasVal => exact absurd ok.2.2.2.1 notInsert
  | newMarker stage => exact ok.elim
  | _ => rfl

/-- An access of its own brings it nearer to its end. -/
theorem SystemOk.contains_app (ok : SystemOk machine s linked inner) (contains : s.Contains linked i left)
    (moves : Moves machine i s linked inner s' linked' inner') (acted : s.app i malloc = some s') :
    (∃ result, s.emits (.app i malloc) = [.ret i result]) ∨
      ∃ left', s'.Contains linked' i left' ∧ left' + 1 ≤ left := by
  cases contains with
  | searching op pc left app isContains helper =>
      rw [app] at helper
      right
      by_cases returned : ∃ node, pc = .returned node
      · obtain ⟨node, rfl⟩ := returned
        simp only [System.app, app, Option.some.injEq] at acted
        obtain rfl := acted
        have ahead : keysAhead s.nodes (slTraverseData node op).frame ≤ op.key := Nat.sub_le _ _
        refine ⟨_, .traversing _ (System.setApp_same s i _) isContains, ?_⟩
        show 4 * keysAhead s.nodes (slTraverseData node op).frame + 14 + 1 ≤ _
        omega
      · obtain ⟨e, pc', left', isEnclave, read, later, fewer⟩ := helper.read
        have positive := helper.going fun node same => returned ⟨node, same⟩
        have asSeen : s.enclave i = some { e with nodes := s.nodes } := by rw [System.enclave, isEnclave]; rfl
        have reads := System.app_searching malloc app (fun node same => returned ⟨node, same⟩)
          asSeen read
        obtain rfl := Option.some.inj (reads.symm.trans acted)
        refine ⟨_, .searching op pc' left' (System.setApp_same s i _) isContains ?_, by omega⟩
        rw [System.setApp_same]
        exact later.onward moves.onward
  | traversing state app isContains =>
      have running : (s.layer machine.head).threads i = some state := by simp [System.layer, app, AppPc.locals]
      have thread := ok.layer.inside i state running
      by_cases returned : ∃ result, state.pc = .returned result
      · obtain ⟨result, located⟩ := returned
        obtain ⟨pc, f⟩ := state
        subst located
        exact .inl ⟨result, by simp [System.emits, app]⟩
      · have assumption : assumed malloc s.nodes state = true := contains_assumed thread isContains
        have going : ∀ result, state.pc ≠ .returned result := fun result located =>
          returned ⟨result, located⟩
        obtain ⟨nodes', state', taken, _⟩ := ok.data_goes app assumption going
        have steps := System.app_traversing app going assumption taken
        obtain rfl := Option.some.inj (steps.symm.trans acted)
        have nearer := dataStep_nearer ok.layer.list thread
          (fun address owner => (ok.layer.owns i state address running owner).1) taken
        have isNearer : accessesLeft nodes' state' < accessesLeft s.nodes state := by
          rw [contains_retries thread isContains] at nearer
          exact nearer
        refine .inr ⟨_, .traversing state' (System.setApp_same _ i _) ?_, isNearer⟩
        rw [dataStep_op thread taken]
        exact isContains

theorem System.helps_quiet {platform : Platform} {call : Call} (helped : s.helps platform i call = some s') :
    s'.apps = s.apps ∧ LevelsOnly s.nodes s'.nodes := by
  obtain ⟨e, isEnclave, helped⟩ := Option.bind_eq_some_iff.mp helped
  obtain ⟨e', called, helped⟩ := Option.bind_eq_some_iff.mp helped
  obtain rfl := Option.some.inj helped
  obtain ⟨stored, _, rfl⟩ := Option.map_eq_some_iff.mp isEnclave
  exact ⟨rfl, Enclave.call_relevels platform _ call e' called⟩

theorem System.act_quiet {act : SystemAct} (noApp : ∀ i malloc, act ≠ .app i malloc)
    (noCall : ∀ i optype key, act ≠ .call i optype key) (acted : s.act machine act = some s') :
    s'.apps = s.apps ∧ LevelsOnly s.nodes s'.nodes := by
  have between : ∀ (platform : Platform) (i : Nat) (call : Call),
      s.between platform i call = some s' → s'.apps = s.apps ∧ LevelsOnly s.nodes s'.nodes := by
    intro platform i call calls
    unfold System.between at calls
    split at calls
    · exact System.helps_quiet calls
    · rw [Option.some.inj calls]
      exact ⟨rfl, .refl _⟩
  cases act with
  | app i malloc => exact absurd rfl (noApp i malloc)
  | call i optype key => exact absurd rfl (noCall i optype key)
  | pass i | reset i => exact between _ i _ acted
  | remove i =>
      simp only [System.act, System.remove] at acted
      split at acted
      · have quiet := System.helps_quiet acted
        exact quiet
      · rw [← Option.some.inj acted]
        exact ⟨rfl, .refl _⟩

theorem System.act_apps (act : SystemAct) (acted : s.act machine act = some s')
    (busy : s.apps act.enclave ≠ .idle) (other : act.isAppOf act.enclave = false) : s'.apps act.enclave = s.apps act.enclave := by
  cases act with
  | app j malloc => simp [SystemAct.isAppOf, SystemAct.enclave] at other
  | pass j | reset j | remove j =>
      rw [(System.act_quiet (fun _ _ => SystemAct.noConfusion) (fun _ _ _ => SystemAct.noConfusion) acted).1]
  | call j optype key =>
      cases app : s.apps j with
      | idle => exact absurd app busy
      | searching _ _ | traversing _ | offering _ =>
          simp only [System.act, System.call, app, Option.some.injEq] at acted
          rw [← acted]

theorem SystemOk.contains_kept (ok : SystemOk machine s linked inner) (contains : s.Contains linked i left)
    {act : SystemAct} (moves : Moves machine act.enclave s linked inner s' linked' inner')
    (acted : s.act machine act = some s') (other : act.isAppOf i = false) :
    ∃ left', s'.Contains linked' i left' ∧ left' ≤ left := by
  have busy : s.apps i ≠ .idle := by
    cases contains with
    | searching _ _ _ app | traversing _ app =>
        rw [app]
        exact AppPc.noConfusion
  have kept : s'.apps i = s.apps i := by
    by_cases own : i = act.enclave
    · subst own
      exact System.act_apps act acted busy other
    · exact (moves.apart i own).1
  cases contains with
  | searching op pc left app isContains helper =>
      by_cases own : i = act.enclave
      · subst own
        obtain ⟨left', later, fewer⟩ := moves.helper left helper
        have bound := fewer op pc app
        exact ⟨_, .searching op pc left' (kept.trans app) isContains later, by omega⟩
      · obtain ⟨_, ring, enclave, _⟩ := moves.apart i own
        refine ⟨_, .searching op pc left (kept.trans app) isContains ?_, Nat.le_refl _⟩
        rw [kept, ring, enclave]
        exact helper.onward moves.onward
  | traversing state app isContains =>
      have running : (s.layer machine.head).threads i = some state := by simp [System.layer, app, AppPc.locals]
      have same : accessesLeft s'.nodes state = accessesLeft s.nodes state :=
        accessesLeft_congr (ok.layer.inside i state running) moves.onward.sameKeys
      exact ⟨_, .traversing state (kept.trans app) isContains, Nat.le_of_eq same⟩

theorem SystemOk.contains_run (acts : List SystemAct) : ∀ s linked inner left,
    SystemOk machine s linked inner → s.Contains linked i left →
    Runs.Along (System.turn machine) (fun state act => ∀ s, state = some s → s.Undisturbed machine act)
      (some s) acts →
    left ≤ acts.countP (·.isAppOf i) → ∃ result, .ret i result ∈
      history (System.turn machine) (fun state act => state.elim [] (·.emits act)) (some s) acts := by
  induction acts with
  | nil =>
      intro s linked inner left _ contains _ enough
      have going := contains.going
      rw [List.countP_nil] at enough
      omega
  | cons act rest ih =>
      rintro s linked inner left ok contains ⟨now, later⟩ enough
      obtain ⟨s', linked', inner', acted, moves, _⟩ := ok.act_goes act (now s rfl)
      have turned : System.turn machine (some s) act = some s' := acted
      rw [turned] at later
      rw [List.countP_cons] at enough
      rw [history, turned]
      cases isApp : act.isAppOf i with
      | true =>
          cases act with
          | app j malloc =>
              obtain rfl : j = i := by simpa [SystemAct.isAppOf] using isApp
              rw [if_pos isApp] at enough
              rcases ok.contains_app contains moves acted with ⟨result, returns⟩ | ⟨left', contains', fewer⟩
              · exact ⟨result, List.mem_append_left _ (by simp [returns])⟩
              · obtain ⟨result, member⟩ := ih s' linked' inner' left' (moves.ok ok) contains' later (by omega)
                exact ⟨result, List.mem_append_right _ member⟩
          | call | remove | pass | reset => exact absurd isApp Bool.false_ne_true
      | false =>
          rw [if_neg (by simp [isApp])] at enough
          obtain ⟨left', contains', fewer⟩ := ok.contains_kept contains moves acted isApp
          obtain ⟨result, member⟩ := ih s' linked' inner' left' (moves.ok ok) contains' later (by omega)
          exact ⟨result, List.mem_append_right _ member⟩

end Contains

/-- A call of `sl_contains` has as many accesses of its own thread at the most until it returns as is
settled when it is made, by the height of its index and the key: whatever the other application threads
do, and its own helper as long as it takes nothing from under the search. -/
theorem sl_contains_returns (machine : Machine) {before : List SystemAct} (undisturbed : machine.Undisturbed before) :
    ∃ s, machine.runSystem before = some s ∧ ∀ i, s.apps i = .idle → ∃ height, ∀ key, 1 ≤ key →
      ∀ during, machine.Undisturbed (before ++ .call i .contains key :: during) →
        5 * height * (key + 1) + 14 * key + 26 ≤ during.countP (·.isAppOf i) → ∃ result, .ret i result ∈
          history (System.turn machine) (fun state act => state.elim [] (·.emits act))
            (System.turn machine (some s) (.call i .contains key)) during := by
  obtain ⟨s, linked, inner, ran, ok, _⟩ :=
    SystemOk.run before machine.startSystem [machine.head] _ (SystemOk.initial machine undisturbed.1)
      undisturbed.2
  refine ⟨s, ran, fun i idle => ?_⟩
  obtain ⟨_, helper⟩ := (ok.helpers i).at
  obtain ⟨e, height, isEnclave, entered⟩ := helper.enter
  refine ⟨height, fun key positive during all enough => ?_⟩
  obtain ⟨now, later⟩ := all.2.second
  rw [show Runs.run (System.turn machine) (some machine.startSystem) before = some s from ran] at now later
  obtain ⟨s', linked', inner', acted, moves, _⟩ := ok.act_goes (.call i .contains key) (now s rfl)
  have called : s.act machine (.call i .contains key) =
      some (s.setApp i (.searching ⟨.contains, key, key⟩ (.right e.sentinel))) := by
    simp [System.act, System.call, idle, System.enclave, isEnclave]
  obtain rfl := Option.some.inj (called.symm.trans acted)
  have turned : System.turn machine (some s) (.call i .contains key) =
      some (s.setApp i (.searching ⟨.contains, key, key⟩ (.right e.sentinel))) := called
  rw [turned] at later ⊢
  have begins := (entered ⟨.contains, key, key⟩ positive (Nat.ne_of_gt positive)).onward moves.onward
  have contains : System.Contains (s.setApp i (.searching ⟨.contains, key, key⟩ (.right e.sentinel)))
      linked' i (5 * (height * (key + 1) + key) + 5 * key + 11 + 4 * key + 15) := by
    refine .searching _ _ _ (System.setApp_same s i _) rfl ?_
    rw [System.setApp_same]
    exact begins
  refine SystemOk.contains_run during _ linked' inner' _ (moves.ok ok) contains later ?_
  have reads : 5 * (height * (key + 1) + key) = 5 * height * (key + 1) + 5 * key := by
    rw [Nat.mul_add, Nat.mul_assoc]
  omega

theorem raisedDuringContains_returns :
    ∃ s, numaMachine.runSystem raisedDuringContains = some s ∧ ∀ i, s.apps i = .idle → ∃ height, ∀ key,
      1 ≤ key → ∀ during, numaMachine.Undisturbed (raisedDuringContains ++ .call i .contains key :: during) →
        5 * height * (key + 1) + 14 * key + 26 ≤ during.countP (·.isAppOf i) → ∃ result, .ret i result ∈
          history (System.turn numaMachine) (fun state act => state.elim [] (·.emits act))
            (System.turn numaMachine (some s) (.call i .contains key)) during :=
  sl_contains_returns numaMachine raisedDuringContains_undisturbed

namespace System

/-- The accesses that an action makes inside `sl_do_operation`, each step from one half to the other and
out of it counted as one. -/
def accesses (s : System) : SystemAct → Nat
  | .app i malloc =>
      match s.apps i with
      | .searching _ _ => 1
      | .traversing state => if assumed malloc s.nodes state then 1 else 0
      | _ => 0
  | _ => 0

/-- What an operation that is under way may cost beside the share that its thread has in the data layer:
the reads that are left in its index, and another share when it returns. -/
def pending (s : System) (cost : Nat) (left : Nat → Nat) (i : Nat) : Nat :=
  match s.apps i with
  | .searching _ _ => cost + left i + 1
  | .traversing _ => cost
  | _ => 0

def toCome (s : System) (head : Nat) (threads : Finset Nat) (key : Nat) (left : Nat → Nat) : Nat :=
  (s.layer head).shares threads (8 * key + 30) +
    ∑ i ∈ threads, s.pending (threads.card * (8 * key + 30)) left i

end System

/-- All operations under way are of these threads, with keys up to this one, and each search has so many
reads left at the most. -/
structure Finishing (machine : Machine) (threads : Finset Nat) (key : Nat) (s : System) (linked : List Nat)
    (inner : AtomicState (Finset Nat) Operation Nat) (left : Nat → Nat) : Prop where
  ok : SystemOk machine s linked inner
  searches : ∀ i, HelperAt s.nodes linked (s.rings i).returned (s.apps i) (s.enclaves i) (left i)
  within : ∀ i op, (s.apps i).op = some op → i ∈ threads ∧ op.key ≤ key

section Finishing

variable {machine : Machine} {threads : Finset Nat} {key i : Nat} {s s' : System} {linked linked' : List Nat}
  {inner inner' : AtomicState (Finset Nat) Operation Nat} {left : Nat → Nat} {malloc : Malloc}

theorem Finishing.layer (finishing : Finishing machine threads key s linked inner left) :
    (s.layer machine.head).Within threads key := by
  refine ⟨⟨inner, linked, finishing.ok.layer⟩, fun i state running => ?_⟩
  cases app : s.apps i with
  | traversing locals =>
      obtain rfl : locals = state := by simpa [System.layer, app, AppPc.locals] using running
      exact finishing.within i _ (by rw [app]; rfl)
  | idle | searching _ _ | offering _ => simp [System.layer, app, AppPc.locals] at running

theorem shares_relevel {layer : DataLayer} {nodes' : Nodes} (levels : LevelsOnly layer.nodes nodes')
    (bound : Nat) : ({ layer with nodes := nodes' } : DataLayer).shares threads bound =
      layer.shares threads bound := by
  have key : keyAt nodes' = keyAt layer.nodes := levels.keyAt
  have val : valAt nodes' = valAt layer.nodes := funext (levels.get_elim 0 Node.val fun _ => rfl)
  have next : nextOf nodes' = nextOf layer.nodes := levels.nextOf
  have same : ∀ state, work nodes' state = work layer.nodes state := by
    rintro ⟨pc, f⟩
    have left : accessesLeft nodes' ⟨pc, f⟩ = accessesLeft layer.nodes ⟨pc, f⟩ := by
      simp only [accessesLeft, keysAhead, key]
    have races : raced nodes' ⟨pc, f⟩ = raced layer.nodes ⟨pc, f⟩ := by simp only [raced, val, next]
    simp only [work, left, races, keysAhead, key]
  simp only [DataLayer.shares, DataLayer.share, same]

theorem pending_none {cost : Nat} (idle : (s.apps i).op = none) : s.pending cost left i = 0 := by
  cases app : s.apps i with
  | searching op pc | traversing state =>
      rw [app] at idle
      exact absurd idle (Option.some_ne_none _)
  | idle | offering op => simp only [System.pending, app]

theorem Finishing.next {reads drop spent : Nat} (finishing : Finishing machine threads key s linked inner left)
    (moves : Moves machine i s linked inner s' linked' inner')
    (helper : HelperAt s'.nodes linked' (s'.rings i).returned (s'.apps i) (s'.enclaves i) reads)
    (same : ∀ op, (s'.apps i).op = some op → (s.apps i).op = some op)
    (own : s'.pending (threads.card * (8 * key + 30)) (Function.update left i reads) i + drop ≤
      s.pending (threads.card * (8 * key + 30)) left i)
    (shares : (s'.layer machine.head).shares threads (8 * key + 30) + spent ≤
      (s.layer machine.head).shares threads (8 * key + 30) + drop) :
    Finishing machine threads key s' linked' inner' (Function.update left i reads) ∧
      s'.toCome machine.head threads key (Function.update left i reads) + spent ≤
        s.toCome machine.head threads key left := by
  have others : ∀ j, j ≠ i →
      s'.pending (threads.card * (8 * key + 30)) (Function.update left i reads) j =
        s.pending (threads.card * (8 * key + 30)) left j := by
    intro j other
    rw [System.pending, System.pending, (moves.apart j other).1, Function.update_of_ne other]
  have sums : (∑ j ∈ threads, s'.pending (threads.card * (8 * key + 30)) (Function.update left i reads) j) +
      drop ≤ ∑ j ∈ threads, s.pending (threads.card * (8 * key + 30)) left j := by
    by_cases member : i ∈ threads
    · have rise := fun j (_ : j ∈ threads) (other : j ≠ i) =>
        (others j other).trans_le (Nat.le_add_right _ 0)
      exact sum_le member (Nat.le_trans own (Nat.le_add_right _ 0)) rise
    · have idle : (s.apps i).op = none := by
        cases running : (s.apps i).op with
        | none => rfl
        | some op => exact absurd (finishing.within i op running).1 member
      rw [pending_none idle] at own
      have unchanged :
          ∑ j ∈ threads, s'.pending (threads.card * (8 * key + 30)) (Function.update left i reads) j =
            ∑ j ∈ threads, s.pending (threads.card * (8 * key + 30)) left j :=
        Finset.sum_congr rfl fun j inside => others j fun atI => member (atI ▸ inside)
      omega
  refine ⟨⟨moves.ok finishing.ok, fun j => ?_, fun j op running => ?_⟩, ?_⟩
  · by_cases atI : j = i
    · subst atI
      rw [Function.update_self]
      exact helper
    · obtain ⟨app, ring, enclave, _⟩ := moves.apart j atI
      rw [Function.update_of_ne atI, app, ring, enclave]
      exact (finishing.searches j).onward moves.onward
  · by_cases atI : j = i
    · subst atI
      exact finishing.within j op (same op running)
    · rw [(moves.apart j atI).1] at running
      exact finishing.within j op running
  · rw [System.toCome, System.toCome]
    omega

theorem finish_outside (machine : Machine) (s : System) (i result : Nat) (f : Frame) :
    ((s.finish i result f).apps i).op = none ∧
      (s.finish i result f).layer machine.head = (s.layer machine.head).setThread i none := by
  unfold System.finish
  split
  · rw [System.setApp_same, layer_setApp]
    exact ⟨rfl, rfl⟩
  · rw [System.setApp_same, layer_setApp]
    exact ⟨rfl, rfl⟩

theorem SystemOk.layer_step (ok : SystemOk machine s linked inner) {state : Local}
    (app : s.apps i = .traversing state) (acted : s.app i malloc = some s') :
    s'.layer machine.head = (s.layer machine.head).act (.step i malloc) ∧
      s.accesses (.app i malloc) = (s.layer machine.head).accesses (.step i malloc) ∧
      ((s.layer machine.head).returns (.step i malloc) = 1 ∧ (s'.apps i).op = none ∨
        (s.layer machine.head).returns (.step i malloc) = 0 ∧
          ∃ state', s'.apps i = .traversing state' ∧ state'.frame.op = state.frame.op) := by
  have running : (s.layer machine.head).threads i = some state := by simp [System.layer, app, AppPc.locals]
  have accesses : s.accesses (.app i malloc) = (s.layer machine.head).accesses (.step i malloc) := by
    simp only [System.accesses, DataLayer.accesses, app, running, Option.elim]
    rfl
  obtain ⟨pc, f⟩ := state
  by_cases returned : ∃ result, pc = .returned result
  · obtain ⟨result, rfl⟩ := returned
    simp only [System.app, app, Option.some.injEq] at acted
    obtain rfl := acted
    obtain ⟨outside, layer⟩ := finish_outside machine s i result f
    refine ⟨?_, accesses, .inl ⟨by simp [DataLayer.returns, running], outside⟩⟩
    rw [layer]
    simp [DataLayer.act, running]
  · have going : ∀ result, pc ≠ .returned result := fun result located => returned ⟨result, located⟩
    have returns : (s.layer machine.head).returns (.step i malloc) = 0 := by
      cases pc <;> simp_all [DataLayer.returns]
    have steps : (s.layer machine.head).act (.step i malloc) =
        (s.layer machine.head).takeStep i malloc ⟨pc, f⟩ := by
      cases pc <;> simp_all [DataLayer.act]
    by_cases assumption : assumed malloc s.nodes ⟨pc, f⟩ = true
    · obtain ⟨nodes', state', taken, _⟩ := ok.data_goes app assumption going
      have stepped := System.app_traversing app going assumption taken
      obtain rfl := Option.some.inj (stepped.symm.trans acted)
      have sameOp := dataStep_op (ok.layer.inside i _ running) taken
      refine ⟨?_, accesses, .inr ⟨returns, state', System.setApp_same _ i _, sameOp⟩⟩
      have assumes : assumed malloc (s.layer machine.head).nodes ⟨pc, f⟩ = true := assumption
      have takes : dataStep malloc (s.layer machine.head).nodes ⟨pc, f⟩ = some (nodes', state') := taken
      rw [steps, DataLayer.takeStep, if_pos assumes, takes, layer_setApp]
      rfl
    · have stays : s.app i malloc = some s := by
        cases pc <;> simp_all [System.app]
      obtain rfl := Option.some.inj (stays.symm.trans acted)
      refine ⟨?_, accesses, .inr ⟨returns, _, app, rfl⟩⟩
      have refuses : ¬ assumed malloc (s.layer machine.head).nodes ⟨pc, f⟩ = true := assumption
      rw [steps, DataLayer.takeStep, if_neg refuses]

theorem Finishing.layer_call (finishing : Finishing machine threads key s linked inner left) {op : Operation}
    {node : Nat} (app : s.apps i = .searching op (.returned node)) :
    (s.layer machine.head).act (.call i op node) =
      (s.setApp i (.traversing (slTraverseData node op))).layer machine.head := by
  have helper := finishing.searches i
  rw [app] at helper
  have standing := helper.found
  have may : (s.layer machine.head).mayCall op node = true := (mayCall_iff finishing.ok.layer.list).mpr
    ⟨standing.positive, standing.value, standing.nodeLinked, standing.notPast⟩
  have outside : (s.layer machine.head).threads i = none := by simp [System.layer, app, AppPc.locals]
  rw [layer_setApp]
  simp [DataLayer.act, outside, may, AppPc.locals]

/-- Each access inside `sl_do_operation` takes one off what is to come. -/
theorem Finishing.app_step (finishing : Finishing machine threads key s linked inner left) (malloc : Malloc)
    (moves : Moves machine i s linked inner s' linked' inner') (acted : s.app i malloc = some s') :
    ∃ left', Finishing machine threads key s' linked' inner' left' ∧
      s'.toCome machine.head threads key left' + s.accesses (.app i malloc) ≤
        s.toCome machine.head threads key left := by
  obtain ⟨reads, helper, _⟩ := moves.helper (left i) (finishing.searches i)
  cases app : s.apps i with
  | idle =>
      simp only [System.app, app, Option.some.injEq] at acted
      subst acted
      have quiet : s.accesses (.app i malloc) = 0 := by simp only [System.accesses, app]
      have nothing : ∀ left, s.pending (threads.card * (8 * key + 30)) left i = 0 := fun left =>
        pending_none (by rw [app]; rfl)
      rw [quiet]
      exact ⟨_, finishing.next moves helper (fun op same => same)
        (Nat.le_of_eq ((nothing _).trans (nothing left).symm)) (Nat.le_refl _)⟩
  | offering op =>
      simp only [System.app, app, Option.some.injEq] at acted
      subst acted
      have quiet : s.accesses (.app i malloc) = 0 := by simp only [System.accesses, app]
      have outside : ∀ inserting, (AppPc.offers op inserting).op = none ∧
          (AppPc.offers op inserting).locals = none := by
        intro inserting
        cases inserting <;> exact ⟨rfl, rfl⟩
      have after : ((s.offer i op).apps i).op = none := by
        rw [System.offer, System.setApp_same]
        exact (outside _).1
      have layer : (s.offer i op).layer machine.head = s.layer machine.head := by
        have before : ((s.setRing i ((s.rings i).appTurn op)).apps i).locals = none := by
          rw [System.setRing_apps, app]
          rfl
        exact layer_outside machine.head before (outside (s.rings i).inserting).2
      rw [quiet]
      refine ⟨_, finishing.next moves helper (fun op same => ?_) ?_ (Nat.le_of_eq (by rw [layer]))⟩
      · rw [after] at same
        exact absurd same (Option.some_ne_none op).symm
      · rw [pending_none after]
        exact Nat.zero_le _
  | searching op pc =>
      have one : s.accesses (.app i malloc) = 1 := by simp only [System.accesses, app]
      have now : s.pending (threads.card * (8 * key + 30)) left i =
          threads.card * (8 * key + 30) + left i + 1 := by simp only [System.pending, app]
      by_cases returned : ∃ node, pc = .returned node
      · obtain ⟨node, rfl⟩ := returned
        simp only [System.app, app, Option.some.injEq] at acted
        subst acted
        have allowed : (DataAction.call i op node).Within threads key :=
          finishing.within i op (by rw [app]; rfl)
        have shares := act_shares finishing.layer allowed
        rw [finishing.layer_call app] at shares
        rw [one]
        refine ⟨_, finishing.next moves helper (fun later same => ?_) ?_ (Nat.add_le_add_right shares 1)⟩
        · rw [System.setApp_same] at same
          rw [app]
          exact same
        · rw [now]
          simp only [System.pending, System.setApp_same]
          omega
      · obtain ⟨e, pc', fewer, isEnclave, read, later, nearer⟩ := (app ▸ finishing.searches i).read
        have positive := (app ▸ finishing.searches i).going fun node same => returned ⟨node, same⟩
        have asSeen : s.enclave i = some { e with nodes := s.nodes } := by rw [System.enclave, isEnclave]; rfl
        have reads := System.app_searching malloc app (fun node same => returned ⟨node, same⟩) asSeen read
        obtain rfl := Option.some.inj (reads.symm.trans acted)
        have layer : (s.setApp i (.searching op pc')).layer machine.head = s.layer machine.head :=
          layer_outside machine.head (by rw [app]; rfl) rfl
        have begun : HelperAt (s.setApp i (.searching op pc')).nodes linked'
            (s.rings i).returned ((s.setApp i (.searching op pc')).apps i) (s.enclaves i) fewer := by
          rw [System.setApp_same]
          exact later.onward moves.onward
        rw [one]
        refine ⟨_, finishing.next moves begun (fun later same => ?_) ?_ (Nat.le_of_eq (by rw [layer]))⟩
        · rw [System.setApp_same] at same
          rw [app]
          exact same
        · rw [now]
          simp only [System.pending, System.setApp_same, Function.update_self]
          omega
  | traversing state =>
      obtain ⟨layer, same, returns⟩ := finishing.ok.layer_step app acted
      have allowed : (DataAction.step i malloc).Within threads key := trivial
      have shares := act_shares finishing.layer allowed
      have now : s.pending (threads.card * (8 * key + 30)) left i = threads.card * (8 * key + 30) := by
        simp only [System.pending, app]
      rw [← layer] at shares
      rw [same]
      refine ⟨_, finishing.next moves helper (fun op running => ?_) ?_ shares⟩
      · rcases returns with ⟨_, outside⟩ | ⟨_, state', still, sameOp⟩
        · rw [outside] at running
          exact absurd running (Option.some_ne_none op).symm
        · rw [still, AppPc.op, sameOp] at running
          rw [app]
          exact running
      · rw [now]
        rcases returns with ⟨once, outside⟩ | ⟨never, state', still, _⟩
        · rw [pending_none outside, once, Nat.mul_one, Nat.zero_add]
        · simp only [System.pending, still, never, Nat.mul_zero, Nat.add_zero, Nat.le_refl]

theorem Finishing.quiet_step (finishing : Finishing machine threads key s linked inner left) {act : SystemAct}
    (noApp : ∀ i malloc, act ≠ .app i malloc) (noCall : ∀ i optype key, act ≠ .call i optype key)
    (moves : Moves machine act.enclave s linked inner s' linked' inner') (acted : s.act machine act = some s') :
    ∃ left', Finishing machine threads key s' linked' inner' left' ∧
      s'.toCome machine.head threads key left' + s.accesses act ≤ s.toCome machine.head threads key left := by
  obtain ⟨apps, levels⟩ := System.act_quiet noApp noCall acted
  obtain ⟨reads, helper, fewer⟩ := moves.helper (left act.enclave) (finishing.searches act.enclave)
  have quiet : s.accesses act = 0 := by
    cases act with
    | app i malloc => exact absurd rfl (noApp i malloc)
    | call _ _ _ | remove _ | pass _ | reset _ => rfl
  have shares : (s'.layer machine.head).shares threads (8 * key + 30) =
      (s.layer machine.head).shares threads (8 * key + 30) := by
    have relevelled := @shares_relevel threads (s.layer machine.head) s'.nodes levels (8 * key + 30)
    rw [← relevelled, System.layer, System.layer, apps]
  rw [quiet]
  refine ⟨_, finishing.next moves helper (fun op same => apps ▸ same) ?_
    (Nat.le_of_eq (congrArg (· + 0) shares))⟩
  rw [System.pending, System.pending, apps, Function.update_self]
  cases app : s.apps act.enclave with
  | searching op pc =>
      have bound := fewer op pc app
      simp only
      omega
  | idle | traversing _ | offering _ => exact Nat.le_refl _

theorem Finishing.run (acts : List SystemAct) : ∀ s linked inner left,
    Finishing machine threads key s linked inner left →
    (∀ act ∈ acts, ∀ i optype key, act ≠ .call i optype key) →
    Runs.Along (System.turn machine) (fun state act => ∀ s, state = some s → s.Undisturbed machine act)
      (some s) acts →
    along (System.turn machine) (fun state act => state.elim 0 (·.accesses act)) (some s) acts ≤
      s.toCome machine.head threads key left := by
  induction acts with
  | nil => exact fun s _ _ left _ _ _ => Nat.zero_le _
  | cons act rest ih =>
      rintro s linked inner left finishing noCalls ⟨now, later⟩
      obtain ⟨s', linked', inner', acted, moves, _⟩ := finishing.ok.act_goes act (now s rfl)
      have turned : System.turn machine (some s) act = some s' := acted
      have noCall := noCalls act List.mem_cons_self
      have stepped : ∃ left', Finishing machine threads key s' linked' inner' left' ∧
          s'.toCome machine.head threads key left' + s.accesses act ≤ s.toCome machine.head threads key left := by
        cases act with
        | app i malloc => exact finishing.app_step malloc moves acted
        | call i optype key => exact absurd rfl (noCall i optype key)
        | remove _ | pass _ | reset _ =>
            exact finishing.quiet_step (fun _ _ => SystemAct.noConfusion) noCall moves acted
      obtain ⟨left', finishing', falls⟩ := stepped
      rw [turned] at later
      have rest := ih s' linked' inner' left' finishing'
        (fun other member => noCalls other (List.mem_cons_of_mem _ member)) later
      rw [along, turned]
      exact Nat.le_trans (Nat.add_le_add_left rest _) (Nat.le_trans (Nat.le_of_eq (Nat.add_comm _ _)) falls)

end Finishing

/-- From every state that the program reaches: once no thread begins another operation, as when `stop` is
set, the application threads make no more than so many accesses inside `sl_do_operation`, in whatever order
and whatever the helpers do meanwhile, so that all of them come out of it. -/
theorem operations_end (machine : Machine) {before : List SystemAct} (undisturbed : machine.Undisturbed before) :
    ∃ s, machine.runSystem before = some s ∧ ∀ threads : Finset Nat,
      (∀ i, (s.apps i).op ≠ none → i ∈ threads) → ∃ bound, ∀ during,
        (∀ act ∈ during, ∀ i optype key, act ≠ .call i optype key) → machine.Undisturbed (before ++ during) →
        along (System.turn machine) (fun state act => state.elim 0 (·.accesses act)) (some s) during ≤
          bound := by
  obtain ⟨s, linked, inner, ran, ok, _⟩ :=
    SystemOk.run before machine.startSystem [machine.head] _ (SystemOk.initial machine undisturbed.1)
      undisturbed.2
  refine ⟨s, ran, fun threads all => ?_⟩
  choose left searches using fun i => (ok.helpers i).at
  let wanted := fun i => ((s.apps i).op.map Operation.key).getD 0
  have finishing : Finishing machine threads (threads.sup wanted) s linked inner left := by
    refine ⟨ok, searches, fun i op running => ?_⟩
    have member := all i (by rw [running]; exact Option.some_ne_none op)
    refine ⟨member, ?_⟩
    have isKey : wanted i = op.key := by simp only [wanted, running, Option.map_some, Option.getD_some]
    rw [← isKey]
    exact Finset.le_sup member
  refine ⟨s.toCome machine.head threads (threads.sup wanted) left, fun during noCalls later => ?_⟩
  have laterRun := later.2.second
  rw [show Runs.run (System.turn machine) (some machine.startSystem) before = some s from ran] at laterRun
  exact finishing.run during s linked inner left noCalls laterRun

theorem raisedDuringContains_ends : ∃ s, numaMachine.runSystem raisedDuringContains = some s ∧
    ∀ threads : Finset Nat, (∀ i, (s.apps i).op ≠ none → i ∈ threads) → ∃ bound, ∀ during,
      (∀ act ∈ during, ∀ i optype key, act ≠ .call i optype key) →
      numaMachine.Undisturbed (raisedDuringContains ++ during) →
      along (System.turn numaMachine) (fun state act => state.elim 0 (·.accesses act)) (some s) during ≤ bound :=
  operations_end numaMachine raisedDuringContains_undisturbed

end Hosk
