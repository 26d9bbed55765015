import Hosk.DataLayerSteps

/-! All threads together: the data layer is linearizable as a set of keys. -/

namespace Hosk

open Linearizability

section Calls

variable {nodes : Nodes} {linked : List Nat}

theorem mem_of_onList {fuel start target : Nat} (chain : Chain (nextOf nodes) start linked)
    (met : onList nodes fuel start target = true) : target ∈ linked := by
  induction fuel generalizing start linked with
  | zero => exact absurd met Bool.false_ne_true
  | succ fuel ih =>
      cases stored : Store.get nodes start with
      | none => simp [onList, stored] at met
      | some node =>
          have facts : start ≠ 0 ∧ (start = target ∨ onList nodes fuel node.next target = true) := by
            simpa [onList, stored] using met
          cases linked with
          | nil => exact absurd chain facts.1
          | cons address rest =>
              obtain ⟨same, _, successor, next, later⟩ := chain
              rw [← same, nextOf_found stored] at next
              obtain rfl := Option.some.inj next
              rcases facts.2 with found | onward
              · rw [← same, found]
                exact List.mem_cons_self
              · exact List.mem_cons_of_mem _ (ih later onward)

theorem onList_of_mem {fuel start target : Nat} (chain : Chain (nextOf nodes) start linked)
    (inside : target ∈ linked) (enough : linked.length ≤ fuel) :
    onList nodes fuel start target = true := by
  induction linked generalizing fuel start with
  | nil => exact absurd inside List.not_mem_nil
  | cons address rest ih =>
      obtain ⟨rfl, nonzero, successor, next, later⟩ := chain
      rw [nextOf, Option.map_eq_some_iff] at next
      obtain ⟨node, stored, rfl⟩ := next
      cases fuel with
      | zero => exact absurd enough (Nat.not_succ_le_zero _)
      | succ fuel =>
          have bound : rest.length ≤ fuel := Nat.le_of_succ_le_succ enough
          rcases List.mem_cons.mp inside with rfl | inRest
          · simp [onList, stored, nonzero]
          · simp [onList, stored, nonzero, ih later inRest bound]

theorem ListOk.length_le {head : Nat} {keys : Finset Nat} (list : ListOk head nodes linked keys) :
    linked.length ≤ nodes.length := by
  have distinct : linked.Nodup :=
    list.sorted.imp fun {_ _} smaller => fun same => Nat.ne_of_lt smaller (congrArg (keyAt nodes) same)
  have inside : linked ⊆ nodes.map Prod.fst := by
    intro address member
    obtain ⟨node, stored, _⟩ := list.found member
    exact Store.mem_of_get stored
  have bound := (distinct.subperm inside).length_le
  rwa [List.length_map] at bound

theorem mayCall_iff {layer : DataLayer} {keys : Finset Nat} {op : Operation} {entry : Nat}
    (list : ListOk layer.head layer.nodes linked keys) :
    layer.mayCall op entry = true ↔
      1 ≤ op.key ∧ op.val ≠ 0 ∧ entry ∈ linked ∧ keyAt layer.nodes entry ≤ op.key := by
  have met : onList layer.nodes layer.nodes.length layer.head entry = true ↔ entry ∈ linked :=
    ⟨mem_of_onList list.chain, fun inside => onList_of_mem list.chain inside list.length_le⟩
  simp only [DataLayer.mayCall, Bool.and_eq_true, decide_eq_true_eq, met, and_assoc]
  refine and_congr_right fun _ => and_congr_right fun _ => and_congr_right fun inside => ?_
  obtain ⟨node, stored, _⟩ := list.found inside
  simp [stored, keyAt]

end Calls

/-- The layer and the atomic set agree: on the keys, and on how far each thread is. -/
structure Agrees (layer : DataLayer) (linked : List Nat)
    (atomic : AtomicState (Finset Nat) Operation Nat) : Prop where
  list : ListOk layer.head layer.nodes linked atomic.value
  outside : ∀ thread, layer.threads thread = none → atomic.status thread = .idle
  inside : ∀ thread state, layer.threads thread = some state →
    ThreadOk layer.nodes linked (atomic.status thread) state
  owns : ∀ thread state address, layer.threads thread = some state → owned state = some address →
    address ∉ linked ∧ (Store.get layer.nodes address).isSome
  apart : ∀ thread other state state' address, thread ≠ other →
    layer.threads thread = some state → layer.threads other = some state' →
    owned state = some address → owned state' ≠ some address

namespace Agrees

variable {layer : DataLayer} {linked : List Nat} {atomic : AtomicState (Finset Nat) Operation Nat}

theorem initial {head : Nat} (nonzero : head ≠ 0) :
    Agrees (DataLayer.new head) [head] (atomicInitial keySet) := by
  refine ⟨ListOk.initial nonzero, fun _ _ => rfl, ?_, ?_, ?_⟩
  · intro thread state running
    exact absurd running (Option.some_ne_none state).symm
  · intro thread state address running
    exact absurd running (Option.some_ne_none state).symm
  · intro thread other state state' address _ running
    exact absurd running (Option.some_ne_none state).symm

theorem advance {thread : Nat} {state : Local} {nodes' : Nodes} {linked' : List Nat}
    {keys' : Finset Nat} {status' : Status Operation Nat} {state' : Local}
    (agrees : Agrees layer linked atomic) (running : layer.threads thread = some state)
    (advances : Advances layer.head layer.nodes linked atomic.value (atomic.status thread) state
      nodes' linked' keys' status' state') :
    Agrees ({ layer with nodes := nodes' }.setThread thread (some state')) linked'
      (AtomicState.setStatus { atomic with value := keys' } thread status') := by
  have threads : ∀ other, other ≠ thread →
      ({ layer with nodes := nodes' }.setThread thread (some state')).threads other =
        layer.threads other := fun other different => Function.update_of_ne different _ _
  have mine : ({ layer with nodes := nodes' }.setThread thread (some state')).threads thread =
      some state' := Function.update_self _ _ _
  have notMine : ∀ other otherState address, other ≠ thread →
      layer.threads other = some otherState → owned otherState = some address →
      some address ≠ owned state := by
    intro other otherState address different located owner same
    exact agrees.apart other thread otherState state address different located running owner same.symm
  have others : ∀ other otherState address, other ≠ thread →
      layer.threads other = some otherState → owned otherState = some address →
      address ∉ linked' ∧ Store.get nodes' address = Store.get layer.nodes address := by
    intro other otherState address different located owner
    have facts := agrees.owns other otherState address located owner
    exact advances.frames.others address facts.1 facts.2
      (notMine other otherState address different located owner)
  have newOwner : ∀ other otherState address, other ≠ thread →
      layer.threads other = some otherState → owned otherState = some address →
      owned state' ≠ some address := by
    intro other otherState address different located owner mineToo
    rcases (advances.owns address mineToo).2.2 with before | fresh
    · exact notMine other otherState address different located owner before.symm
    · have present := (agrees.owns other otherState address located owner).2
      rw [fresh] at present
      exact absurd present Bool.false_ne_true
  refine ⟨advances.list, ?_, ?_, ?_, ?_⟩
  · intro other idle
    by_cases same : other = thread
    · subst other
      rw [mine] at idle
      exact absurd idle (Option.some_ne_none state')
    · rw [threads other same] at idle
      rw [AtomicState.setStatus_other _ _ same]
      exact agrees.outside other idle
  · intro other otherState located
    by_cases same : other = thread
    · subst other
      rw [mine] at located
      obtain rfl := Option.some.inj located
      rw [AtomicState.setStatus_same]
      exact advances.thread
    · rw [threads other same] at located
      rw [AtomicState.setStatus_other _ _ same]
      exact (agrees.inside other otherState located).stable advances.frames
        fun address owner => (others other otherState address same located owner).2
  · intro other otherState address located owner
    by_cases same : other = thread
    · subst other
      rw [mine] at located
      obtain rfl := Option.some.inj located
      have facts := advances.owns address owner
      exact ⟨facts.1, facts.2.1⟩
    · rw [threads other same] at located
      have facts := others other otherState address same located owner
      have present := (agrees.owns other otherState address located owner).2
      exact ⟨facts.1, facts.2 ▸ present⟩
  · intro first second firstState secondState address different atFirst atSecond firstOwner
    by_cases isFirst : first = thread
    · subst first
      rw [mine] at atFirst
      obtain rfl := Option.some.inj atFirst
      rw [threads second (Ne.symm different)] at atSecond
      intro secondOwner
      exact newOwner second secondState address (Ne.symm different) atSecond secondOwner firstOwner
    · rw [threads first isFirst] at atFirst
      by_cases isSecond : second = thread
      · subst second
        rw [mine] at atSecond
        obtain rfl := Option.some.inj atSecond
        exact newOwner first firstState address isFirst atFirst firstOwner
      · rw [threads second isSecond] at atSecond
        exact agrees.apart first second firstState secondState address different atFirst atSecond
          firstOwner

theorem replace {thread : Nat} {state : Option Local} {status : Status Operation Nat}
    (agrees : Agrees layer linked atomic)
    (outside : state = none → status = .idle)
    (inside : ∀ locals, state = some locals →
      ThreadOk layer.nodes linked status locals ∧ owned locals = none) :
    Agrees (layer.setThread thread state) linked (atomic.setStatus thread status) := by
  have threads : ∀ other, other ≠ thread →
      (layer.setThread thread state).threads other = layer.threads other :=
    fun other different => Function.update_of_ne different _ _
  have mine : (layer.setThread thread state).threads thread = state := Function.update_self _ _ _
  have otherThread : ∀ other otherState address,
      (layer.setThread thread state).threads other = some otherState →
      owned otherState = some address → other ≠ thread := by
    rintro other otherState address located owner rfl
    rw [mine] at located
    rw [(inside otherState located).2] at owner
    exact absurd owner (Option.some_ne_none address).symm
  refine ⟨agrees.list, ?_, ?_, ?_, ?_⟩
  · intro other idle
    by_cases same : other = thread
    · subst other
      rw [AtomicState.setStatus_same]
      exact outside (mine.symm.trans idle)
    · rw [threads other same] at idle
      rw [AtomicState.setStatus_other _ _ same]
      exact agrees.outside other idle
  · intro other otherState located
    by_cases same : other = thread
    · subst other
      rw [AtomicState.setStatus_same]
      exact (inside otherState (mine.symm.trans located)).1
    · rw [threads other same] at located
      rw [AtomicState.setStatus_other _ _ same]
      exact agrees.inside other otherState located
  · intro other otherState address located owner
    rw [threads other (otherThread other otherState address located owner)] at located
    exact agrees.owns other otherState address located owner
  · intro first second firstState secondState address different atFirst atSecond firstOwner
      secondOwner
    rw [threads first (otherThread first firstState address atFirst firstOwner)] at atFirst
    rw [threads second (otherThread second secondState address atSecond secondOwner)] at atSecond
    exact agrees.apart first second firstState secondState address different atFirst atSecond
      firstOwner secondOwner

end Agrees

def Related (layer : DataLayer) (atomic : AtomicState (Finset Nat) Operation Nat) : Prop :=
  ∃ linked, Agrees layer linked atomic

variable {layer : DataLayer} {atomic : AtomicState (Finset Nat) Operation Nat}

inductive Acts (layer : DataLayer) (linked : List Nat)
    (atomic : AtomicState (Finset Nat) Operation Nat) :
    DataAction → DataLayer → List (Event Operation Nat) → Prop where
  | nothing (action) :
      (∀ thread malloc state, action = .step thread malloc → layer.threads thread = some state →
        assumed malloc layer.nodes state = false) →
      Acts layer linked atomic action layer []
  | call (thread op entry) : layer.threads thread = none →
      ThreadOk layer.nodes linked (.pending op) (slTraverseData entry op) →
      Acts layer linked atomic (.call thread op entry)
        (layer.setThread thread (some (slTraverseData entry op))) [.call thread op]
  | ret (thread malloc result f) : layer.threads thread = some ⟨.returned result, f⟩ →
      Acts layer linked atomic (.step thread malloc) (layer.setThread thread none)
        [.ret thread result]
  | step (thread malloc state nodes' state' linked' keys' status') :
      layer.threads thread = some state → assumed malloc layer.nodes state = true →
      dataStep malloc layer.nodes state = some (nodes', state') →
      Advances layer.head layer.nodes linked atomic.value (atomic.status thread) state nodes' linked'
        keys' status' state' →
      Acts layer linked atomic (.step thread malloc)
        ({ layer with nodes := nodes' }.setThread thread (some state')) []

theorem call_acts {linked : List Nat} (agrees : Agrees layer linked atomic) (thread : Nat)
    (op : Operation) (entry : Nat) : Acts layer linked atomic (.call thread op entry)
      (layer.act (.call thread op entry)) (layer.emits (.call thread op entry)) := by
  have nothing : Acts layer linked atomic (.call thread op entry) layer [] :=
    .nothing _ fun _ _ _ wrong => by cases wrong
  cases running : layer.threads thread with
  | some state =>
      simp only [DataLayer.emits, DataLayer.act, running]
      exact nothing
  | none =>
      by_cases may : layer.mayCall op entry = true
      · obtain ⟨positive, value, entryLinked, notPast⟩ := (mayCall_iff agrees.list).mp may
        simp only [DataLayer.emits, DataLayer.act, running, may, if_true]
        exact .call thread op entry running ⟨⟨entryLinked, notPast, positive, value, rfl⟩, rfl⟩
      · simp only [DataLayer.emits, DataLayer.act, running, may]
        exact nothing

theorem step_acts {linked : List Nat} (agrees : Agrees layer linked atomic) (thread : Nat)
    (malloc : Malloc) : Acts layer linked atomic (.step thread malloc)
      (layer.act (.step thread malloc)) (layer.emits (.step thread malloc)) := by
  cases running : layer.threads thread with
  | none =>
      simp only [DataLayer.emits, DataLayer.act, running]
      refine .nothing _ fun other _ state same found => ?_
      obtain ⟨rfl, _⟩ := DataAction.step.inj same
      exact absurd (running.symm.trans found) (Option.some_ne_none state).symm
  | some state =>
      by_cases done : ∃ result, state.pc = .returned result
      · obtain ⟨result, located⟩ := done
        obtain ⟨pc, f⟩ := state
        subst located
        simp only [DataLayer.emits, DataLayer.act, running]
        exact .ret thread malloc result f running
      · have going : ∀ result, state.pc ≠ .returned result := fun result located => done ⟨result, located⟩
        have silent : layer.emits (.step thread malloc) = [] := by
          obtain ⟨pc, f⟩ := state
          cases pc with
          | returned result => exact absurd rfl (going result)
          | _ => simp only [DataLayer.emits, running]
        have acts : layer.act (.step thread malloc) = layer.takeStep thread malloc state := by
          obtain ⟨pc, f⟩ := state
          cases pc with
          | returned result => exact absurd rfl (going result)
          | _ => simp only [DataLayer.act, running]
        rw [silent, acts, DataLayer.takeStep]
        by_cases assumption : assumed malloc layer.nodes state = true
        · obtain ⟨nodes', state', taken, linked', keys', status', advances⟩ :=
            dataStep_steps agrees.list (agrees.inside thread state running)
              (fun address owner => (agrees.owns thread state address running owner).1) assumption
              going
          rw [if_pos assumption, taken]
          exact .step thread malloc state nodes' state' linked' keys' status' running assumption taken
            advances
        · rw [if_neg assumption]
          refine .nothing _ fun other malloc' state' same found => ?_
          obtain ⟨rfl, rfl⟩ := DataAction.step.inj same
          obtain rfl := Option.some.inj (running.symm.trans found)
          exact Bool.eq_false_iff.mpr assumption

theorem act_acts {linked : List Nat} (agrees : Agrees layer linked atomic) (action : DataAction) :
    Acts layer linked atomic action (layer.act action) (layer.emits action) := by
  cases action with
  | call thread op entry => exact call_acts agrees thread op entry
  | step thread malloc => exact step_acts agrees thread malloc

theorem related_step (action : DataAction) (related : Related layer atomic) :
    ∃ next, AtomicRun keySet atomic (layer.emits action) next ∧ Related (layer.act action) next := by
  obtain ⟨linked, agrees⟩ := related
  have acts := act_acts agrees action
  generalize layer.act action = after, layer.emits action = events at acts ⊢
  cases acts with
  | nothing => exact ⟨atomic, .done atomic, linked, agrees⟩
  | call thread op entry outside ok =>
      refine ⟨_, .call thread op (agrees.outside thread outside) (.done _), linked, ?_⟩
      apply agrees.replace
      · intro noState
        exact absurd noState (Option.some_ne_none _)
      · intro locals same
        obtain rfl := Option.some.inj same
        exact ⟨ok, rfl⟩
  | ret thread malloc result f running =>
      refine ⟨_, .ret thread result (agrees.inside thread _ running).1 (.done _), linked, ?_⟩
      exact agrees.replace (fun _ => rfl) fun locals same =>
        absurd same (Option.some_ne_none locals).symm
  | step thread malloc state nodes' state' linked' keys' status' running _ _ advances =>
      exact ⟨_, .silent advances.turn, linked', agrees.advance running advances⟩

theorem reachable_related {head : Nat} (nonzero : head ≠ 0) (schedule : List DataAction) :
    ∃ atomic, Related (Runs.run DataLayer.act (DataLayer.new head) schedule) atomic := by
  refine Runs.run_invariant (fun layer => ∃ atomic, Related layer atomic)
    ⟨_, [head], Agrees.initial nonzero⟩ ?_ schedule
  rintro layer action ⟨atomic, related⟩
  obtain ⟨next, _, kept⟩ := related_step action related
  exact ⟨next, kept⟩

/-- No run brings a thread to an access through an address that holds no node. -/
theorem running_thread_steps {head : Nat} (nonzero : head ≠ 0) (schedule : List DataAction)
    {thread : Nat} {state : Local} {malloc : Malloc}
    (running : (Runs.run DataLayer.act (DataLayer.new head) schedule).threads thread = some state)
    (notDone : ∀ result, state.pc ≠ .returned result)
    (assumption : assumed malloc (Runs.run DataLayer.act (DataLayer.new head) schedule).nodes state) :
    (dataStep malloc (Runs.run DataLayer.act (DataLayer.new head) schedule).nodes state).isSome := by
  obtain ⟨atomic, linked, agrees⟩ := reachable_related nonzero schedule
  obtain ⟨nodes', state', taken, _⟩ := dataStep_steps agrees.list
    (agrees.inside thread state running)
    (fun address owner => (agrees.owns thread state address running owner).1) assumption notDone
  rw [taken]
  exact Option.isSome_some

/-- Every history of calls and returns of the data layer is one of an atomic set of keys. -/
theorem data_layer_linearizable (head : Nat) (nonzero : head ≠ 0) (schedule : List DataAction) :
    Linearizable keySet
      (history DataLayer.act DataLayer.emits (DataLayer.new head) schedule) := by
  apply linearizable_of_simulation Related ⟨[head], Agrees.initial nonzero⟩
  intro layer atomic action related
  exact related_step action related

-- one thread inserts 5 while another, called before that, looks for it
def insertDuringContains : List DataAction :=
  [.call 1 ⟨.contains, 5, 1⟩ 16, .call 0 ⟨.insert, 5, 7⟩ 16, .step 1 ⟨0, ⟨0, 0, 0, 0, 0⟩⟩] ++
    List.replicate 11 (.step 0 ⟨32, ⟨0, 0, 0, 0, 0⟩⟩) ++
    List.replicate 9 (.step 1 ⟨0, ⟨0, 0, 0, 0, 0⟩⟩)

theorem insertDuringContains_linearizable :
    (16 : Nat) ≠ 0 ∧
      history DataLayer.act DataLayer.emits (DataLayer.new 16) insertDuringContains =
        [.call 1 ⟨.contains, 5, 1⟩, .call 0 ⟨.insert, 5, 7⟩, .ret 0 1, .ret 1 1] ∧
      Linearizable keySet
        (history DataLayer.act DataLayer.emits (DataLayer.new 16) insertDuringContains) :=
  ⟨by decide, by decide, data_layer_linearizable 16 (by decide) insertDuringContains⟩

end Hosk
