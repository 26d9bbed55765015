import Hosk.DataLayerLinearizable

/-! One whole `sl_traverse_data` with no other thread on the list: it ends, and does what the
operation does to the set. -/

namespace Hosk

open Linearizability

/-- Steps to the end; the memory, the result and what `*pnode` was set to. -/
def traverseAlone (malloc : Malloc) : Nat → Nodes → Local → Option (Nodes × Nat × Nat)
  | 0, _, _ => none
  | fuel + 1, nodes, state =>
      match state.pc with
      | .returned result => some (nodes, result, state.frame.pnode)
      | _ => do
          let (nodes, state) ← dataStep malloc nodes state
          traverseAlone malloc fuel nodes state

def assumedAlone (malloc : Malloc) : Nat → Nodes → Local → Bool
  | 0, _, _ => true
  | fuel + 1, nodes, state =>
      assumed malloc nodes state &&
        match dataStep malloc nodes state with
        | some (nodes, state) => assumedAlone malloc fuel nodes state
        | none => true

def Unraced (nodes : Nodes) (state : Local) : Prop :=
  let f := state.frame
  match state.pc with
  | .readNext | .insertCasVal | .deleteCas => valAt nodes f.node = f.nodeVal
  | .readNextVal | .readNextKey | .containsKey | .deleteKey | .insertKey =>
      valAt nodes f.node = f.nodeVal ∧ nextOf nodes f.node = some f.next
  | .newNode _ | .insertCasNext => nextOf nodes f.node = some f.next
  | .freeNode => False
  | _ => True

def beyond (nodes : Nodes) (key : Nat) : Nat := nodes.countP fun cell => key < cell.2.key

theorem beyond_lt {nodes : Nodes} {address key : Nat} {node : Node}
    (stored : Store.get nodes address = some node) (greater : key < node.key) :
    beyond nodes node.key < beyond nodes key := by
  have member : (address, node) ∈ nodes.filter fun cell => key < cell.2.key :=
    List.mem_filter.mpr ⟨Store.cell_mem_of_get stored, decide_eq_true greater⟩
  have inside : beyond nodes node.key =
      (nodes.filter fun cell => key < cell.2.key).countP fun cell => node.key < cell.2.key := by
    rw [List.countP_filter]
    apply List.countP_congr
    intro cell _
    simp only [Bool.and_eq_true, decide_eq_true_eq]
    omega
  calc beyond nodes node.key
      = (nodes.filter fun cell => key < cell.2.key).countP fun cell => node.key < cell.2.key := inside
    _ < (nodes.filter fun cell => key < cell.2.key).length :=
        List.countP_lt_length_iff.mpr ⟨_, member, by simp⟩
    _ = beyond nodes key := List.countP_eq_length_filter.symm

def stepsLeft (nodes : Nodes) (state : Local) : Nat :=
  let past := beyond nodes (keyAt nodes state.frame.node)
  match state.pc with
  | .readVal => 4 * past + 13
  | .readNext => 4 * past + 12
  | .readNextVal => 4 * past + 11
  | .readNextKey => 4 * past + 10
  | .containsKey | .deleteKey | .insertKey => 9
  | .newNode .malloc => 8
  | .newNode .key => 7
  | .newNode .val => 6
  | .newNode .prev => 5
  | .newNode .next => 4
  | .newNode .level => 3
  | .insertCasNext | .deleteVal => 2
  | .storePrev | .deleteCas | .insertCasVal => 1
  | _ => 0

section Step

variable {head : Nat} {nodes : Nodes} {linked : List Nat} {keys : Finset Nat}
  {status : Status Operation Nat} {malloc : Malloc}

theorem stepsLeft_finish (optype : OpType) (f : Frame) : stepsLeft nodes ⟨finishPc optype, f⟩ = 9 := by
  cases optype <;> rfl

theorem unraced_finish (optype : OpType) {f : Frame} (val : valAt nodes f.node = f.nodeVal)
    (next : nextOf nodes f.node = some f.next) : Unraced nodes ⟨finishPc optype, f⟩ := by
  cases optype <;> exact ⟨val, next⟩

/-- A step of a thread that is alone: no other store comes in between, and the end is nearer. -/
structure Nears (nodes : Nodes) (state : Local) (nodes' : Nodes) (state' : Local) : Prop where
  unraced : Unraced nodes' state'
  nearer : stepsLeft nodes' state' < stepsLeft nodes state
  sameOp : state'.frame.op = state.frame.op

section Reads

variable {f : Frame} {nodes' : Nodes} {state' : Local}

theorem readVal_nears (list : ListOk head nodes linked keys)
    (ok : ThreadOk nodes linked status ⟨.readVal, f⟩)
    (step : dataStep malloc nodes ⟨.readVal, f⟩ = some (nodes', state')) :
    Nears nodes ⟨.readVal, f⟩ nodes' state' := by
  have standing : AtNode nodes linked f := ok.1
  obtain ⟨node, stored, _⟩ := list.found standing.nodeLinked
  have notOwn : f.node ≠ node.val := fun same =>
    list.notOwn _ standing.nodeLinked ((valAt_found stored).trans same.symm)
  simp only [dataStep, stored, Option.bind_eq_bind, Option.bind_some, if_neg notOwn] at step
  obtain ⟨rfl, rfl⟩ := Prod.mk.inj (Option.some.inj step)
  exact ⟨valAt_found stored, Nat.lt_succ_self _, rfl⟩

theorem readNext_nears (list : ListOk head nodes linked keys)
    (ok : ThreadOk nodes linked status ⟨.readNext, f⟩) (unraced : Unraced nodes ⟨.readNext, f⟩)
    (step : dataStep malloc nodes ⟨.readNext, f⟩ = some (nodes', state')) :
    Nears nodes ⟨.readNext, f⟩ nodes' state' := by
  have standing : AtNode nodes linked f := ok.1
  have val : valAt nodes f.node = f.nodeVal := unraced
  obtain ⟨node, stored, _⟩ := list.found standing.nodeLinked
  simp only [dataStep, stored, Option.bind_eq_bind, Option.bind_some] at step
  obtain ⟨rfl, rfl⟩ := Prod.mk.inj (Option.some.inj step)
  by_cases last : node.next = 0
  · rw [if_neg (not_not_intro last)]
    refine ⟨unraced_finish _ val (nextOf_found stored), ?_, rfl⟩
    rw [stepsLeft_finish]
    exact Nat.lt_of_lt_of_le (by omega : 9 < 12) (Nat.le_add_left 12 _)
  · rw [if_pos last]
    exact ⟨⟨val, nextOf_found stored⟩, Nat.lt_succ_self _, rfl⟩

theorem readNextVal_nears (list : ListOk head nodes linked keys)
    (ok : ThreadOk nodes linked status ⟨.readNextVal, f⟩) (unraced : Unraced nodes ⟨.readNextVal, f⟩)
    (step : dataStep malloc nodes ⟨.readNextVal, f⟩ = some (nodes', state')) :
    Nears nodes ⟨.readNextVal, f⟩ nodes' state' := by
  have standing : AtNext nodes linked f := ok.1
  obtain ⟨next, stored, _⟩ := list.found standing.nextLinked
  have notOwn : next.val ≠ f.next := fun same =>
    list.notOwn _ standing.nextLinked ((valAt_found stored).trans same)
  simp only [dataStep, stored, Option.bind_eq_bind, Option.bind_some, if_neg notOwn] at step
  obtain ⟨rfl, rfl⟩ := Prod.mk.inj (Option.some.inj step)
  exact ⟨unraced, Nat.lt_succ_self _, rfl⟩

theorem readNextKey_nears (list : ListOk head nodes linked keys)
    (ok : ThreadOk nodes linked status ⟨.readNextKey, f⟩) (unraced : Unraced nodes ⟨.readNextKey, f⟩)
    (step : dataStep malloc nodes ⟨.readNextKey, f⟩ = some (nodes', state')) :
    Nears nodes ⟨.readNextKey, f⟩ nodes' state' := by
  have standing : AtNext nodes linked f := ok.1
  obtain ⟨val, nextIs⟩ : valAt nodes f.node = f.nodeVal ∧ nextOf nodes f.node = some f.next := unraced
  obtain ⟨next, stored, _⟩ := list.found standing.nextLinked
  have nextKey := keyAt_found stored
  simp only [dataStep, stored, Option.bind_eq_bind, Option.bind_some] at step
  have onward := standing.onward
  rw [nextKey] at onward
  have fewer := beyond_lt stored onward
  split at step
  · obtain ⟨rfl, rfl⟩ := Prod.mk.inj (Option.some.inj step)
    refine ⟨unraced_finish _ val nextIs, ?_, rfl⟩
    rw [stepsLeft_finish]
    exact Nat.lt_of_lt_of_le (by omega : 9 < 10) (Nat.le_add_left 10 _)
  · obtain ⟨rfl, rfl⟩ := Prod.mk.inj (Option.some.inj step)
    refine ⟨trivial, ?_, rfl⟩
    simp only [stepsLeft, nextKey]
    omega

theorem containsKey_nears (list : ListOk head nodes linked keys)
    (ok : ThreadOk nodes linked status ⟨.containsKey, f⟩)
    (step : dataStep malloc nodes ⟨.containsKey, f⟩ = some (nodes', state')) :
    Nears nodes ⟨.containsKey, f⟩ nodes' state' := by
  have gap : AtGap nodes linked f := ok.1
  obtain ⟨node, stored, _⟩ := list.found gap.nodeLinked
  simp only [dataStep, stored, Option.bind_eq_bind, Option.bind_some] at step
  obtain ⟨rfl, rfl⟩ := Prod.mk.inj (Option.some.inj step)
  exact ⟨trivial, Nat.succ_pos 8, rfl⟩

theorem deleteKey_nears (list : ListOk head nodes linked keys)
    (ok : ThreadOk nodes linked status ⟨.deleteKey, f⟩)
    (step : dataStep malloc nodes ⟨.deleteKey, f⟩ = some (nodes', state')) :
    Nears nodes ⟨.deleteKey, f⟩ nodes' state' := by
  have gap : AtGap nodes linked f := ok.1
  obtain ⟨node, stored, _⟩ := list.found gap.nodeLinked
  simp only [dataStep, stored, Option.bind_eq_bind, Option.bind_some] at step
  split at step
  · obtain ⟨rfl, rfl⟩ := Prod.mk.inj (Option.some.inj step)
    exact ⟨trivial, Nat.succ_pos 8, rfl⟩
  · split at step
    · obtain ⟨rfl, rfl⟩ := Prod.mk.inj (Option.some.inj step)
      exact ⟨trivial, (by omega : 2 < 9), rfl⟩
    · obtain ⟨rfl, rfl⟩ := Prod.mk.inj (Option.some.inj step)
      exact ⟨trivial, Nat.succ_pos 8, rfl⟩

theorem deleteVal_nears (list : ListOk head nodes linked keys)
    (ok : ThreadOk nodes linked status ⟨.deleteVal, f⟩)
    (step : dataStep malloc nodes ⟨.deleteVal, f⟩ = some (nodes', state')) :
    Nears nodes ⟨.deleteVal, f⟩ nodes' state' := by
  have standing : AtNode nodes linked f := ok.1
  obtain ⟨node, stored, _⟩ := list.found standing.nodeLinked
  simp only [dataStep, stored, Option.bind_eq_bind, Option.bind_some] at step
  obtain ⟨rfl, rfl⟩ := Prod.mk.inj (Option.some.inj step)
  split
  · exact ⟨trivial, Nat.succ_pos 1, rfl⟩
  · exact ⟨valAt_found stored, Nat.lt_succ_self 1, rfl⟩

theorem ListOk.found_unraced (list : ListOk head nodes linked keys) (standing : AtNode nodes linked f)
    (unraced : valAt nodes f.node = f.nodeVal) :
    ∃ node, Store.get nodes f.node = some node ∧ node.val = f.nodeVal := by
  obtain ⟨node, stored, _⟩ := list.found standing.nodeLinked
  exact ⟨node, stored, (valAt_found stored).symm.trans unraced⟩

theorem deleteCas_nears (list : ListOk head nodes linked keys)
    (ok : ThreadOk nodes linked status ⟨.deleteCas, f⟩) (unraced : Unraced nodes ⟨.deleteCas, f⟩)
    (step : dataStep malloc nodes ⟨.deleteCas, f⟩ = some (nodes', state')) :
    Nears nodes ⟨.deleteCas, f⟩ nodes' state' := by
  have standing : AtNode nodes linked f := ok.1
  obtain ⟨node, stored, val⟩ := list.found_unraced standing unraced
  simp only [dataStep, stored, Option.bind_eq_bind, Option.bind_some, if_pos val] at step
  obtain ⟨rfl, rfl⟩ := Prod.mk.inj (Option.some.inj step)
  exact ⟨trivial, Nat.succ_pos 0, rfl⟩

theorem insertKey_nears (list : ListOk head nodes linked keys)
    (ok : ThreadOk nodes linked status ⟨.insertKey, f⟩) (unraced : Unraced nodes ⟨.insertKey, f⟩)
    (step : dataStep malloc nodes ⟨.insertKey, f⟩ = some (nodes', state')) :
    Nears nodes ⟨.insertKey, f⟩ nodes' state' := by
  have gap : AtGap nodes linked f := ok.1
  obtain ⟨val, nextIs⟩ : valAt nodes f.node = f.nodeVal ∧ nextOf nodes f.node = some f.next := unraced
  obtain ⟨node, stored, _⟩ := list.found gap.nodeLinked
  simp only [dataStep, stored, Option.bind_eq_bind, Option.bind_some] at step
  split at step
  · obtain ⟨rfl, rfl⟩ := Prod.mk.inj (Option.some.inj step)
    split
    · exact ⟨val, (by omega : 1 < 9), rfl⟩
    · exact ⟨trivial, Nat.succ_pos 8, rfl⟩
  · obtain ⟨rfl, rfl⟩ := Prod.mk.inj (Option.some.inj step)
    exact ⟨nextIs, Nat.lt_succ_self 8, rfl⟩

theorem insertCasVal_nears (list : ListOk head nodes linked keys)
    (ok : ThreadOk nodes linked status ⟨.insertCasVal, f⟩)
    (unraced : Unraced nodes ⟨.insertCasVal, f⟩)
    (step : dataStep malloc nodes ⟨.insertCasVal, f⟩ = some (nodes', state')) :
    Nears nodes ⟨.insertCasVal, f⟩ nodes' state' := by
  have standing : AtNode nodes linked f := ok.1
  obtain ⟨node, stored, val⟩ := list.found_unraced standing unraced
  simp only [dataStep, stored, Option.bind_eq_bind, Option.bind_some, if_pos val] at step
  obtain ⟨rfl, rfl⟩ := Prod.mk.inj (Option.some.inj step)
  exact ⟨trivial, Nat.succ_pos 0, rfl⟩

end Reads

section Insertion

variable {f : Frame} {nodes' : Nodes} {state' : Local}

theorem nextOf_set_other {address : Nat} (node : Node) (apart : address ≠ f.node) :
    nextOf (Store.set nodes address node) f.node = nextOf nodes f.node := by
  rw [nextOf, nextOf, Store.get_set_other _ apart]

theorem newNode_nears (list : ListOk head nodes linked keys) {stage : NewPc}
    (ok : ThreadOk nodes linked status ⟨.newNode stage, f⟩)
    (notLinked : ∀ address, owned ⟨.newNode stage, f⟩ = some address → address ∉ linked)
    (assumption : assumed malloc nodes ⟨.newNode stage, f⟩ = true)
    (unraced : Unraced nodes ⟨.newNode stage, f⟩)
    (step : dataStep malloc nodes ⟨.newNode stage, f⟩ = some (nodes', state')) :
    Nears nodes ⟨.newNode stage, f⟩ nodes' state' := by
  have nextIs : nextOf nodes f.node = some f.next := unraced
  cases stage with
  | malloc =>
      have inserting : Inserting nodes linked status f := ok
      have free : Store.get nodes malloc.address = none := by
        simp [assumed] at assumption
        exact assumption.1.2
      have apart : malloc.address ≠ f.node := by
        intro same
        obtain ⟨node, stored, _⟩ := list.found inserting.nodeLinked
        rw [same, stored] at free
        exact absurd free (Option.some_ne_none node)
      simp only [dataStep] at step
      obtain ⟨rfl, rfl⟩ := Prod.mk.inj (Option.some.inj step)
      exact ⟨(nextOf_set_other malloc.content apart).trans nextIs, Nat.lt_succ_self 7, rfl⟩
  | key | val | prev | next | level =>
      obtain ⟨inserting, _, _, node, stored, _⟩ := ok
      have apart : f.newNode ≠ f.node := fun same =>
        notLinked _ rfl (same ▸ inserting.nodeLinked)
      simp only [dataStep, newStep, stored, Option.bind_eq_bind, Option.bind_some] at step
      obtain ⟨rfl, rfl⟩ := Prod.mk.inj (Option.some.inj step)
      exact ⟨(nextOf_set_other _ apart).trans nextIs, Nat.lt_succ_self _, rfl⟩

theorem insertCasNext_nears (list : ListOk head nodes linked keys)
    (ok : ThreadOk nodes linked status ⟨.insertCasNext, f⟩)
    (unraced : Unraced nodes ⟨.insertCasNext, f⟩)
    (step : dataStep malloc nodes ⟨.insertCasNext, f⟩ = some (nodes', state')) :
    Nears nodes ⟨.insertCasNext, f⟩ nodes' state' := by
  have building : Building nodes linked status f (Linkable f) := ok
  have nextIs : nextOf nodes f.node = some f.next := unraced
  obtain ⟨node, stored, _⟩ := list.found building.nodeLinked
  rw [nextOf_found stored] at nextIs
  simp only [dataStep, stored, Option.bind_eq_bind, Option.bind_some,
    if_pos (Option.some.inj nextIs)] at step
  split at step
  · obtain ⟨rfl, rfl⟩ := Prod.mk.inj (Option.some.inj step)
    exact ⟨trivial, Nat.lt_succ_self 1, rfl⟩
  · obtain ⟨rfl, rfl⟩ := Prod.mk.inj (Option.some.inj step)
    exact ⟨trivial, Nat.succ_pos 1, rfl⟩

theorem storePrev_nears (list : ListOk head nodes linked keys)
    (ok : ThreadOk nodes linked status ⟨.storePrev, f⟩)
    (step : dataStep malloc nodes ⟨.storePrev, f⟩ = some (nodes', state')) :
    Nears nodes ⟨.storePrev, f⟩ nodes' state' := by
  obtain ⟨next, stored, _⟩ := list.found ok.2.1
  simp only [dataStep, stored, Option.bind_eq_bind, Option.bind_some] at step
  obtain ⟨rfl, rfl⟩ := Prod.mk.inj (Option.some.inj step)
  exact ⟨trivial, Nat.succ_pos 0, rfl⟩

end Insertion

theorem dataStep_nears {state state' : Local} {nodes' : Nodes} (list : ListOk head nodes linked keys)
    (ok : ThreadOk nodes linked status state)
    (notLinked : ∀ address, owned state = some address → address ∉ linked)
    (assumption : assumed malloc nodes state = true) (unraced : Unraced nodes state)
    (step : dataStep malloc nodes state = some (nodes', state')) : Nears nodes state nodes' state' := by
  obtain ⟨pc, f⟩ := state
  cases pc with
  | readVal => exact readVal_nears list ok step
  | readNext => exact readNext_nears list ok unraced step
  | readNextVal => exact readNextVal_nears list ok unraced step
  | readNextKey => exact readNextKey_nears list ok unraced step
  | containsKey => exact containsKey_nears list ok step
  | deleteKey => exact deleteKey_nears list ok step
  | deleteVal => exact deleteVal_nears list ok step
  | deleteCas => exact deleteCas_nears list ok unraced step
  | insertKey => exact insertKey_nears list ok unraced step
  | insertCasVal => exact insertCasVal_nears list ok unraced step
  | newNode stage => exact newNode_nears list ok notLinked assumption unraced step
  | insertCasNext => exact insertCasNext_nears list ok unraced step
  | storePrev => exact storePrev_nears list ok step
  | freeNode => exact unraced.elim
  | returned result => exact absurd step (Option.some_ne_none _).symm
  | readPrev | removeVal | removeKey | removeNext | removeTest | newMarker | markerVal | markerCas
    | reloadNext | prevNext | prevKey | prevPrev | ptrNext | removeCas => exact ok.elim

/-- What one operation leaves behind: the list with all its nodes, the set and result of the operation,
the node for the job. -/
structure Concludes (head : Nat) (nodes : Nodes) (linked : List Nat) (keys : Finset Nat)
    (status : Status Operation Nat) (op : Operation) (nodes' : Nodes) (linked' : List Nat)
    (keys' : Finset Nat) (result pnode : Nat) : Prop where
  list : ListOk head nodes' linked' keys'
  stays : ∀ address ∈ linked, address ∈ linked'
  sameKeys : ∀ address ∈ linked, keyAt nodes' address = keyAt nodes address
  turn : SilentTurn keySet keys status keys' (.finished result)
  pnodeOk : pnode = 0 ∨ pnode ∈ linked' ∧ keyAt nodes' pnode = op.key

theorem traverseAlone_concludes (fuel : Nat) : ∀ nodes linked keys status state,
    ListOk head nodes linked keys → ThreadOk nodes linked status state →
    (∀ address, owned state = some address → address ∉ linked) → Unraced nodes state →
    assumedAlone malloc fuel nodes state = true → stepsLeft nodes state < fuel →
    ∃ nodes' linked' keys' result pnode,
      traverseAlone malloc fuel nodes state = some (nodes', result, pnode) ∧
      Concludes head nodes linked keys status state.frame.op nodes' linked' keys' result pnode := by
  induction fuel with
  | zero => exact fun _ _ _ _ _ _ _ _ _ _ bound => absurd bound (Nat.not_lt_zero _)
  | succ fuel ih =>
      intro nodes linked keys status state list ok notLinked unraced assumption bound
      by_cases done : ∃ result, state.pc = .returned result
      · obtain ⟨result, located⟩ := done
        obtain ⟨pc, f⟩ := state
        subst located
        obtain ⟨finished, pnodeOk⟩ : status = .finished result ∧ PnodeOk nodes linked f := ok
        refine ⟨nodes, linked, keys, result, f.pnode, rfl, list, fun _ => id, fun _ _ => rfl, ?_, pnodeOk⟩
        rw [finished]
        exact SilentTurn.stay _ _
      · have going : ∀ result, state.pc ≠ .returned result := fun result located =>
          done ⟨result, located⟩
        rw [assumedAlone, Bool.and_eq_true] at assumption
        obtain ⟨middle, state₁, taken, linked₁, keys₁, status₁, advances⟩ :=
          dataStep_steps list ok notLinked assumption.1 going
        have nears := dataStep_nears list ok notLinked assumption.1 unraced taken
        have later := assumption.2
        rw [taken] at later
        have nearer := nears.nearer
        obtain ⟨nodes', linked', keys', result, pnode, ran, concludes⟩ := ih middle linked₁ keys₁
          status₁ state₁ advances.list advances.thread
          (fun address owner => (advances.owns address owner).1) nears.unraced later (by omega)
        have unfolded : traverseAlone malloc (fuel + 1) nodes state =
            traverseAlone malloc fuel middle state₁ := by
          obtain ⟨pc, f⟩ := state
          cases pc with
          | returned result => exact absurd rfl (going result)
          | _ => simp only [traverseAlone, taken, Option.bind_eq_bind, Option.bind_some]
        refine ⟨nodes', linked', keys', result, pnode, unfolded.trans ran, concludes.list, ?_, ?_,
          advances.turn.trans concludes.turn, nears.sameOp ▸ concludes.pnodeOk⟩
        · exact fun address member => concludes.stays address (advances.frames.stays address member)
        · intro address member
          rw [concludes.sameKeys address (advances.frames.stays address member),
            advances.frames.keys address member]

def enoughSteps (nodes : Nodes) : Nat := 4 * nodes.length + 14

theorem slTraverseData_concludes (list : ListOk head nodes linked keys) {entry : Nat} {op : Operation}
    (entryLinked : entry ∈ linked) (notPast : keyAt nodes entry ≤ op.key) (positive : 1 ≤ op.key)
    (value : op.val ≠ 0)
    (assumption : assumedAlone malloc (enoughSteps nodes) nodes (slTraverseData entry op) = true) :
    ∃ nodes' linked' result pnode,
      traverseAlone malloc (enoughSteps nodes) nodes (slTraverseData entry op) =
        some (nodes', result, pnode) ∧ (keySet.apply op keys).2 = result ∧
      Concludes head nodes linked keys (.pending op) op nodes' linked' (keySet.apply op keys).1 result
        pnode := by
  have short : stepsLeft nodes (slTraverseData entry op) < enoughSteps nodes := by
    have bound : beyond nodes (keyAt nodes entry) ≤ nodes.length := List.countP_le_length
    simp only [stepsLeft, slTraverseData, enoughSteps]
    omega
  obtain ⟨nodes', linked', keys', result, pnode, ran, concludes⟩ := traverseAlone_concludes
    (enoughSteps nodes) nodes linked keys (.pending op) (slTraverseData entry op) list
    ⟨⟨entryLinked, notPast, positive, value, rfl⟩, rfl⟩
    (fun address owner => absurd owner (Option.some_ne_none address).symm) trivial assumption short
  rcases concludes.turn with ⟨_, wrong⟩ | ⟨other, same, rfl, finished⟩
  · cases wrong
  · cases same
    obtain rfl := Status.finished.inj finished
    exact ⟨nodes', linked', _, pnode, ran, rfl, concludes⟩

end Step

end Hosk
