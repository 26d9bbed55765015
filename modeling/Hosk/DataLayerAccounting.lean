import Mathlib.Algebra.BigOperators.Group.Finset.Basic
import Hosk.DataLayerLinearizable

/-!
What the data layer keeps in every state of every interleaving, and the successes of its operations
against the values in its nodes and against `data_layer_size`.
-/

namespace Hosk

open Linearizability

def dataLayerSizeLoop (nodes : Nodes) (flag : Bool) : Nat → Nat → Nat → Option Nat
  | 0, _, _ => none
  | fuel + 1, node, size =>
      if node = 0 then some size
      else do
        let found ← Store.get nodes node
        let counts := if flag then found.val ≠ 0 ∧ node ≠ found.val else found.key ≠ 0
        dataLayerSizeLoop nodes flag fuel found.next (if counts then size + 1 else size)

def dataLayerSize (nodes : Nodes) (head : Nat) (flag : Bool) : Option Nat := do
  let sentinel ← Store.get nodes head
  dataLayerSizeLoop nodes flag (nodes.length + 1) sentinel.next 0

def sign : OpType → Int
  | .contains => 0
  | .insert => 1
  | .delete => -1

def casSucceeds (nodes : Nodes) (state : Local) : Bool :=
  let f := state.frame
  match state.pc with
  | .deleteCas | .insertCasVal => valAt nodes f.node = f.nodeVal
  | .insertCasNext => nextOf nodes f.node = some f.next
  | _ => false

namespace DataLayer

def success (layer : DataLayer) : DataAction → Option Operation
  | .call _ _ _ => none
  | .step thread malloc => do
      let state ← layer.threads thread
      if assumed malloc layer.nodes state && casSucceeds layer.nodes state then some state.frame.op
      else none

/-- Successes for a key, deletions counted as -1. -/
def successes (key : Nat) (layer : DataLayer) (action : DataAction) : Int :=
  (layer.success action).elim 0 fun op => if op.key = key then sign op.optype else 0

def gained (layer : DataLayer) (action : DataAction) : Int :=
  (layer.success action).elim 0 fun op => sign op.optype

/-- What `added` minus `removed` of the threads grows by, when an operation returns 1. -/
def counted (layer : DataLayer) : DataAction → Int
  | .call _ _ _ => 0
  | .step thread _ =>
      match layer.threads thread with
      | some ⟨.returned result, f⟩ => if result = 1 then sign f.op.optype else 0
      | _ => 0

def Stopped (layer : DataLayer) : Prop := ∀ thread, layer.threads thread = none

end DataLayer

/-- The list from the sentinel: finite, increasing, each node's prev linked with a smaller key. -/
structure ListShape (head : Nat) (nodes : Nodes) (linked : List Nat) : Prop where
  chain : Chain (nextOf nodes) head linked
  increasing : linked.Pairwise fun before after => keyAt nodes before < keyAt nodes after
  prevs : ∀ address ∈ linked, address ≠ head →
    prevAt nodes address ∈ linked ∧ keyAt nodes (prevAt nodes address) < keyAt nodes address

theorem ListOk.shape {head : Nat} {nodes : Nodes} {linked : List Nat} {keys : Finset Nat}
    (list : ListOk head nodes linked keys) : ListShape head nodes linked :=
  ⟨list.chain, list.sorted, list.prevs⟩

def membership (keys : Finset Nat) (key : Nat) : Int := if key ∈ keys then 1 else 0

def credit (optype : OpType) : Status Operation Nat → Int
  | .finished 1 => sign optype
  | _ => 0

section Operations

theorem apply_membership (op : Operation) (keys : Finset Nat) (key : Nat) :
    membership (keySet.apply op keys).1 key = membership keys key +
      if op.key = key then credit op.optype (.finished (keySet.apply op keys).2) else 0 := by
  obtain ⟨optype, wanted, val⟩ := op
  by_cases present : wanted ∈ keys <;> by_cases same : wanted = key <;> cases optype <;>
    subst_vars <;> simp [membership, keySet, credit, sign, *] <;> simp [Ne.symm same]

theorem apply_card (op : Operation) (keys : Finset Nat) : ((keySet.apply op keys).1.card : Int) =
    keys.card + credit op.optype (.finished (keySet.apply op keys).2) := by
  obtain ⟨optype, wanted, val⟩ := op
  by_cases present : wanted ∈ keys
  · have some := Finset.card_pos.mpr ⟨wanted, present⟩
    cases optype <;> simp [keySet, credit, sign, present]
    omega
  · cases optype <;> simp [keySet, credit, sign, present]

end Operations

section Steps

variable {head : Nat} {nodes nodes' : Nodes} {linked linked' : List Nat} {keys keys' : Finset Nat}
  {status status' : Status Operation Nat} {malloc : Malloc} {state state' : Local}

theorem dataStep_op (ok : ThreadOk nodes linked status state)
    (step : dataStep malloc nodes state = some (nodes', state')) : state'.frame.op = state.frame.op := by
  obtain ⟨pc, f⟩ := state
  cases pc with
  | newNode stage =>
      cases stage <;> simp [dataStep, newStep, Option.bind_eq_some_iff] at step <;> grind
  | returned result => exact absurd step (Option.some_ne_none _).symm
  | readPrev | removeVal | removeKey | removeNext | removeTest | newMarker | markerVal | markerCas
    | reloadNext | prevNext | prevKey | prevPrev | ptrNext | removeCas => exact ok.elim
  | _ =>
      simp only [dataStep, Option.bind_eq_bind, Option.bind_eq_some_iff] at step
      grind

def Unsettled (op : Operation) (status : Status Operation Nat) : Prop :=
  credit op.optype status = 0 ∧ ∀ op', status = .pending op' → op' = op

theorem unsettled_pending (op : Operation) : Unsettled op (.pending op) :=
  ⟨rfl, fun _ same => (Status.pending.inj same).symm⟩

theorem unsettled_judged (op : Operation) (nodeVal : Nat) : Unsettled op (judged op nodeVal) := by
  obtain ⟨optype, key, val⟩ := op
  by_cases null : nodeVal = 0 <;> cases optype <;>
    simp [Unsettled, judged, credit, sign, null, eq_comm]

theorem unsettled_passed (op : Operation) : Unsettled op (passed op) := by
  obtain ⟨optype, key, val⟩ := op
  cases optype <;> simp [Unsettled, passed, credit, eq_comm]

theorem unsettled_sawVal (nodes : Nodes) (f : Frame) : Unsettled f.op (sawVal nodes f) := by
  rw [sawVal]
  split
  · exact unsettled_judged f.op f.nodeVal
  · exact unsettled_pending f.op

theorem unsettled_decided (nodes : Nodes) (f : Frame) : Unsettled f.op (decided nodes f) := by
  rw [decided]
  split
  · exact unsettled_judged f.op f.nodeVal
  · exact unsettled_passed f.op

theorem unsettled_sawNext (nodes : Nodes) (f : Frame) : Unsettled f.op (sawNext nodes f) := by
  rw [sawNext]
  split
  · exact unsettled_decided nodes f
  · exact unsettled_sawVal nodes f

/-- Whether a success is behind a thread, seen from where it stands. -/
def pcCredit (state : Local) : Int :=
  match state.pc with
  | .storePrev => sign state.frame.op.optype
  | .returned result => if result = 1 then sign state.frame.op.optype else 0
  | _ => 0

theorem credit_eq (ok : ThreadOk nodes linked status state) :
    credit state.frame.op.optype status = pcCredit state ∧
      ∀ op, status = .pending op → op = state.frame.op := by
  obtain ⟨pc, f⟩ := state
  have finished : ∀ result, status = .finished result → ∀ op, status = .pending op → op = f.op := by
    rintro result rfl op wrong
    cases wrong
  cases pc with
  | readVal => rw [ok.2]; exact unsettled_pending f.op
  | readNext => rw [ok.2]; exact unsettled_sawVal nodes f
  | readNextVal | readNextKey => rw [ok.2]; exact unsettled_sawNext nodes f
  | containsKey | deleteKey | insertKey => rw [ok.2.1]; exact unsettled_decided nodes f
  | deleteVal | deleteCas | insertCasVal => rw [ok.2.2.1]; exact unsettled_pending f.op
  | newNode stage =>
      cases stage with
      | malloc => rw [Inserting.pending ok]; exact unsettled_pending f.op
      | key | val | prev | next | level =>
          rw [(Building.toInserting ok).pending]; exact unsettled_pending f.op
  | insertCasNext => rw [(Building.toInserting ok).pending]; exact unsettled_pending f.op
  | freeNode => rw [Inserting.pending ok]; exact unsettled_pending f.op
  | storePrev => exact ⟨by rw [ok.1]; rfl, finished 1 ok.1⟩
  | returned result =>
      refine ⟨?_, finished result ok.1⟩
      rw [ok.1]
      by_cases one : result = 1
      · rw [one]; rfl
      · simp [credit, pcCredit, one]
  | readPrev | removeVal | removeKey | removeNext | removeTest | newMarker | markerVal | markerCas
    | reloadNext | prevNext | prevKey | prevPrev | ptrNext | removeCas => exact ok.elim

theorem pcCredit_step (ok : ThreadOk nodes linked status state)
    (step : dataStep malloc nodes state = some (nodes', state')) : pcCredit state' =
      pcCredit state + if casSucceeds nodes state = true then sign state.frame.op.optype else 0 := by
  obtain ⟨pc, f⟩ := state
  cases pc with
  | containsKey =>
      have isContains : f.op.optype = .contains := ok.2.2
      simp only [dataStep, Option.bind_eq_bind, Option.bind_eq_some_iff] at step
      obtain ⟨node, _, same⟩ := step
      obtain ⟨rfl, rfl⟩ := Prod.mk.inj (Option.some.inj same)
      simp [pcCredit, casSucceeds, isContains, sign]
  | deleteCas | insertCasVal =>
      simp only [dataStep, Option.bind_eq_bind, Option.bind_eq_some_iff] at step
      obtain ⟨node, found, same⟩ := step
      simp only [casSucceeds, valAt_found found]
      split at same
      · obtain ⟨rfl, rfl⟩ := Prod.mk.inj (Option.some.inj same)
        simp [pcCredit, *]
      · obtain ⟨rfl, rfl⟩ := Prod.mk.inj (Option.some.inj same)
        simp [pcCredit, *]
  | insertCasNext =>
      simp only [dataStep, Option.bind_eq_bind, Option.bind_eq_some_iff] at step
      obtain ⟨node, found, same⟩ := step
      simp only [casSucceeds, nextOf_found found]
      split at same
      · split at same <;> obtain ⟨rfl, rfl⟩ := Prod.mk.inj (Option.some.inj same) <;> simp [pcCredit, *]
      · obtain ⟨rfl, rfl⟩ := Prod.mk.inj (Option.some.inj same)
        simp [pcCredit, *]
  | storePrev =>
      simp only [dataStep, Option.bind_eq_bind, Option.bind_eq_some_iff] at step
      obtain ⟨next, _, same⟩ := step
      obtain ⟨rfl, rfl⟩ := Prod.mk.inj (Option.some.inj same)
      simp [pcCredit, casSucceeds]
  | newNode stage =>
      cases stage <;> simp [dataStep, newStep, Option.bind_eq_some_iff] at step <;>
        grind [pcCredit, casSucceeds]
  | readVal | readNext | readNextVal | readNextKey | deleteKey | deleteVal | insertKey | freeNode =>
      simp only [dataStep, finishPc, Option.bind_eq_bind, Option.bind_eq_some_iff] at step
      grind [pcCredit, casSucceeds]
  | returned result => exact absurd step (Option.some_ne_none _).symm
  | readPrev | removeVal | removeKey | removeNext | removeTest | newMarker | markerVal | markerCas
    | reloadNext | prevNext | prevKey | prevPrev | ptrNext | removeCas => exact ok.elim

/-- A step changes the set as its own success says. -/
theorem advances_membership (ok : ThreadOk nodes linked status state)
    (step : dataStep malloc nodes state = some (nodes', state'))
    (advances : Advances head nodes linked keys status state nodes' linked' keys' status' state')
    (key : Nat) : membership keys' key = membership keys key +
      (if state.frame.op.key = key then
        (if casSucceeds nodes state = true then sign state.frame.op.optype else 0) else 0) ∧
    (keys'.card : Int) = keys.card +
      if casSucceeds nodes state = true then sign state.frame.op.optype else 0 := by
  have before := (credit_eq ok).1
  have after := (credit_eq advances.thread).1
  have change := pcCredit_step ok step
  rw [dataStep_op ok step] at after
  rcases advances.turn with ⟨rfl, rfl⟩ | ⟨op, rfl, rfl, rfl⟩
  · have none : (if casSucceeds nodes state = true then sign state.frame.op.optype else 0) = 0 := by
      omega
    rw [none]
    simp
  · obtain rfl := (credit_eq ok).2 op rfl
    have gained : credit state.frame.op.optype (.finished (keySet.apply state.frame.op keys).2) =
        if casSucceeds nodes state = true then sign state.frame.op.optype else 0 := by
      have zero : credit state.frame.op.optype (.pending state.frame.op) = 0 := rfl
      omega
    rw [← gained]
    exact ⟨apply_membership _ keys key, apply_card _ keys⟩

theorem casSucceeds_positive (ok : ThreadOk nodes linked status state)
    (succeeds : casSucceeds nodes state = true) : 1 ≤ state.frame.op.key := by
  obtain ⟨pc, f⟩ := state
  cases pc with
  | deleteCas | insertCasVal => exact ok.1.positive
  | insertCasNext => exact (Building.toInserting ok).positive
  | _ => exact absurd succeeds Bool.false_ne_true

theorem advances_positive (ok : ThreadOk nodes linked status state)
    (step : dataStep malloc nodes state = some (nodes', state'))
    (advances : Advances head nodes linked keys status state nodes' linked' keys' status' state')
    (positive : ∀ key ∈ keys, 1 ≤ key) : ∀ key ∈ keys', 1 ≤ key := by
  intro key member
  have change := (advances_membership ok step advances key).1
  by_cases old : key ∈ keys
  · exact positive key old
  · rw [membership, membership, if_pos member, if_neg old] at change
    split at change
    · rename_i same
      split at change
      · rename_i succeeds
        exact same ▸ casSucceeds_positive ok succeeds
      · exact absurd change (by omega)
    · exact absurd change (by omega)

end Steps

section Size

variable {head : Nat} {nodes : Nodes} {linked : List Nat} {keys : Finset Nat}

theorem dataLayerSizeLoop_returns (addresses : List Nat) : ∀ fuel start size,
    Chain (nextOf nodes) start addresses → (∀ address ∈ addresses, valAt nodes address ≠ address) →
    addresses.length < fuel → dataLayerSizeLoop nodes true fuel start size =
      some (size + addresses.countP fun address => valAt nodes address ≠ 0) := by
  induction addresses with
  | nil =>
      intro fuel start size chain _ bound
      obtain rfl : start = 0 := chain
      obtain ⟨fuel, rfl⟩ := Nat.exists_eq_succ_of_ne_zero (Nat.ne_of_gt bound)
      rfl
  | cons address rest ih =>
      intro fuel start size chain notOwn bound
      obtain ⟨fuel, rfl⟩ := Nat.exists_eq_succ_of_ne_zero (Nat.ne_of_gt (Nat.zero_lt_of_lt bound))
      obtain ⟨rfl, nonzero, successor, next, later⟩ := chain
      obtain ⟨node, found, rfl⟩ := Option.map_eq_some_iff.mp next
      have val := valAt_found found
      have own : start ≠ node.val := fun same => notOwn start List.mem_cons_self (val.trans same.symm)
      have onward := fun size => ih fuel node.next size later
        (fun other member => notOwn other (List.mem_cons_of_mem _ member))
        (Nat.lt_of_succ_lt_succ bound)
      rw [dataLayerSizeLoop, if_neg nonzero, found]
      simp only [Option.bind_eq_bind, Option.bind_some, if_true, own, ne_eq, not_false_eq_true,
        and_true, onward, List.countP_cons, val, decide_not]
      by_cases null : node.val = 0
      · simp [null]
      · simp [null]
        omega

theorem dataLayerSize_returns (list : ListOk head nodes linked keys)
    (positive : ∀ key ∈ keys, 1 ≤ key) : dataLayerSize nodes head true = some keys.card := by
  have chain := list.chain
  cases split : linked with
  | nil =>
      have member := list.headLinked
      rw [split] at member
      exact absurd member List.not_mem_nil
  | cons first rest =>
      rw [split] at chain
      obtain ⟨rfl, _, successor, next, later⟩ := chain
      obtain ⟨sentinel, found, rfl⟩ := Option.map_eq_some_iff.mp next
      have sorted := list.sorted
      rw [split, List.pairwise_cons] at sorted
      have inLinked : ∀ address ∈ rest, address ∈ linked := by
        intro address member
        rw [split]
        exact List.mem_cons_of_mem _ member
      have size := list.length_le
      rw [split, List.length_cons] at size
      rw [dataLayerSize, found]
      simp only [Option.bind_eq_bind, Option.bind_some]
      rw [dataLayerSizeLoop_returns rest _ _ _ later
        (fun address member => list.notOwn address (inLinked address member)) (by omega)]
      have nodup : ((rest.filter fun address => valAt nodes address ≠ 0).map (keyAt nodes)).Nodup :=
        List.pairwise_map.mpr ((sorted.2.sublist List.filter_sublist).imp Nat.ne_of_lt)
      have same : ((rest.filter fun address => valAt nodes address ≠ 0).map (keyAt nodes)).toFinset =
          keys := by
        ext key
        rw [List.mem_toFinset, List.mem_map]
        constructor
        · rintro ⟨address, member, rfl⟩
          obtain ⟨inRest, present⟩ := List.mem_filter.mp member
          have above := sorted.1 address inRest
          exact (list.mem_iff (inLinked address inRest) (by omega)).mpr (of_decide_eq_true present)
        · intro member
          obtain ⟨address, isLinked, sameKey, present⟩ :=
            (list.members key (positive key member)).mp member
          refine ⟨address, List.mem_filter.mpr ⟨?_, decide_eq_true present⟩, sameKey⟩
          rw [split] at isLinked
          rcases List.mem_cons.mp isLinked with rfl | inRest
          · have above := positive key member
            have ground := list.headKey
            omega
          · exact inRest
      rw [← same, List.toFinset_card_of_nodup nodup, List.length_map, List.countP_eq_length_filter,
        Nat.zero_add]

end Size

def DataAction.thread : DataAction → Nat
  | .call thread _ _ => thread
  | .step thread _ => thread

def openCredit (layer : DataLayer) (threads : Finset Nat) : Int :=
  ∑ thread ∈ threads, (layer.threads thread).elim 0 pcCredit

theorem openCredit_set (layer : DataLayer) {threads : Finset Nat} {thread : Nat} (state : Option Local)
    (member : thread ∈ threads) : openCredit (layer.setThread thread state) threads =
      openCredit layer threads - (layer.threads thread).elim 0 pcCredit + state.elim 0 pcCredit := by
  have others : ∑ other ∈ threads.erase thread,
      ((layer.setThread thread state).threads other).elim 0 pcCredit =
        ∑ other ∈ threads.erase thread, (layer.threads other).elim 0 pcCredit := by
    apply Finset.sum_congr rfl
    intro other inside
    have same : (layer.setThread thread state).threads other = layer.threads other :=
      Function.update_of_ne (Finset.ne_of_mem_erase inside) _ _
    rw [same]
  have mine : (layer.setThread thread state).threads thread = state := Function.update_self _ _ _
  rw [openCredit, openCredit, ← Finset.add_sum_erase threads _ member,
    ← Finset.add_sum_erase threads _ member, others, mine]
  omega

theorem openCredit_stopped {layer : DataLayer} (stopped : layer.Stopped) (threads : Finset Nat) :
    openCredit layer threads = 0 := by
  apply Finset.sum_eq_zero
  intro thread _
  rw [stopped thread]
  rfl

/-- What actions leave of the list and the set, and how they account for it. -/
structure Accounts (threads : Finset Nat) (layer : DataLayer) (linked : List Nat) (keys : Finset Nat)
    (schedule : List DataAction) (layer' : DataLayer) (linked' : List Nat) (keys' : Finset Nat) :
    Prop where
  head : layer'.head = layer.head
  stays : ∀ address ∈ linked, address ∈ linked'
  sameKeys : ∀ address ∈ linked, keyAt layer'.nodes address = keyAt layer.nodes address
  positive : (∀ key ∈ keys, 1 ≤ key) → ∀ key ∈ keys', 1 ≤ key
  memberships : ∀ key, membership keys' key =
    membership keys key + Runs.total DataLayer.act (DataLayer.successes key) layer schedule
  card : (keys'.card : Int) = keys.card + Runs.total DataLayer.act DataLayer.gained layer schedule
  returned : openCredit layer' threads + Runs.total DataLayer.act DataLayer.counted layer schedule =
    openCredit layer threads + Runs.total DataLayer.act DataLayer.gained layer schedule

section Runs

variable {threads : Finset Nat} {layer : DataLayer} {linked : List Nat}
  {atomic : AtomicState (Finset Nat) Operation Nat}

theorem counted_running {thread : Nat} {malloc : Malloc} {state : Local}
    (running : layer.threads thread = some state) (going : ∀ result, state.pc ≠ .returned result) :
    layer.counted (.step thread malloc) = 0 := by
  obtain ⟨pc, f⟩ := state
  cases pc with
  | returned result => exact absurd rfl (going result)
  | _ => simp [DataLayer.counted, running]

theorem accounts_quiet {action : DataAction} {layer' : DataLayer} (noSuccess : layer.success action = none)
    (head : layer'.head = layer.head) (nodes : layer'.nodes = layer.nodes)
    (returned : openCredit layer' threads + layer.counted action = openCredit layer threads) :
    Accounts threads layer linked atomic.value [action] layer' linked atomic.value := by
  have gained : layer.gained action = 0 := by rw [DataLayer.gained, noSuccess]; rfl
  refine ⟨head, fun _ => id, fun _ _ => by rw [nodes], id, fun key => ?_, ?_, ?_⟩
  · simp [Runs.total, DataLayer.successes, noSuccess]
  · simp [Runs.total, gained]
  · simpa [Runs.total, gained] using returned

theorem act_accounts (agrees : Agrees layer linked atomic) {action : DataAction}
    (member : action.thread ∈ threads) : ∃ linked' next, Agrees (layer.act action) linked' next ∧
      Accounts threads layer linked atomic.value [action] (layer.act action) linked' next.value := by
  have acts := act_acts agrees action
  generalize layer.act action = after, layer.emits action = events at acts ⊢
  cases acts with
  | nothing _ idle =>
      refine ⟨linked, atomic, agrees, accounts_quiet ?_ rfl rfl ?_⟩
      · cases action with
        | call thread op entry => rfl
        | step thread malloc =>
            cases running : layer.threads thread with
            | none => simp [DataLayer.success, running]
            | some state => simp [DataLayer.success, running, idle thread malloc state rfl running]
      · have counted : layer.counted action = 0 := by
          cases action with
          | call thread op entry => rfl
          | step thread malloc =>
              cases running : layer.threads thread with
              | none => simp [DataLayer.counted, running]
              | some state =>
                  refine counted_running running fun result returned => ?_
                  have wrong := idle thread malloc state rfl running
                  simp [assumed, returned] at wrong
        rw [counted, Int.add_zero]
  | call thread op entry outside ok =>
      refine ⟨linked, atomic.setStatus thread (.pending op), ?_, accounts_quiet rfl rfl rfl ?_⟩
      · apply agrees.replace
        · intro noState
          exact absurd noState (Option.some_ne_none _)
        · intro locals same
          obtain rfl := Option.some.inj same
          exact ⟨ok, rfl⟩
      · have inside : thread ∈ threads := member
        rw [openCredit_set layer _ inside, outside]
        simp [DataLayer.counted, slTraverseData, pcCredit]
  | ret thread malloc result f running =>
      refine ⟨linked, atomic.setStatus thread .idle, ?_, accounts_quiet ?_ rfl rfl ?_⟩
      · exact agrees.replace (fun _ => rfl) fun locals same =>
          absurd same (Option.some_ne_none locals).symm
      · simp [DataLayer.success, running, casSucceeds]
      · have inside : thread ∈ threads := member
        rw [openCredit_set layer _ inside]
        simp [DataLayer.counted, running, pcCredit]
  | step thread malloc state nodes' state' linked' keys' status' running assumption step advances =>
      have ok := agrees.inside thread state running
      have success : layer.success (.step thread malloc) =
          if casSucceeds layer.nodes state = true then some state.frame.op else none := by
        simp [DataLayer.success, running, assumption]
      have gained : layer.gained (.step thread malloc) =
          if casSucceeds layer.nodes state = true then sign state.frame.op.optype else 0 := by
        rw [DataLayer.gained, success]
        split <;> rfl
      refine ⟨linked', AtomicState.setStatus { atomic with value := keys' } thread status',
        agrees.advance running advances, rfl, advances.frames.stays, advances.frames.keys, ?_, ?_, ?_, ?_⟩
      · exact advances_positive ok step advances
      · intro key
        have change := (advances_membership ok step advances key).1
        simp only [Runs.total, DataLayer.successes, success]
        rw [AtomicState.setStatus_value, change]
        by_cases succeeds : casSucceeds layer.nodes state = true
        · simp [succeeds]
        · simp [succeeds]
      · have change := (advances_membership ok step advances 0).2
        simp only [Runs.total, gained]
        rw [AtomicState.setStatus_value, change, Int.add_zero]
      · have going : ∀ result, state.pc ≠ .returned result := by
          rintro result returned
          obtain ⟨pc, f⟩ := state
          obtain rfl : pc = .returned result := returned
          exact absurd step (Option.some_ne_none _).symm
        have inside : thread ∈ threads := member
        have change := pcCredit_step ok step
        have moved := openCredit_set { layer with nodes := nodes' } (some state') inside
        have same : openCredit { layer with nodes := nodes' } threads = openCredit layer threads := rfl
        simp only [same, running, Option.elim_some] at moved
        simp only [Runs.total, gained, counted_running running going]
        omega

theorem run_accounts (schedule : List DataAction) : ∀ layer linked atomic, Agrees layer linked atomic →
    (∀ action ∈ schedule, action.thread ∈ threads) → ∃ linked' next,
      Agrees (Runs.run DataLayer.act layer schedule) linked' next ∧
      Accounts threads layer linked atomic.value schedule (Runs.run DataLayer.act layer schedule) linked'
        next.value := by
  induction schedule with
  | nil =>
      intro layer linked atomic agrees _
      exact ⟨linked, atomic, agrees, rfl, fun _ => id, fun _ _ => rfl, id, fun _ => (Int.add_zero _).symm,
        (Int.add_zero _).symm, rfl⟩
  | cons action rest ih =>
      intro layer linked atomic agrees inside
      obtain ⟨linked₁, middle, agrees₁, first⟩ := act_accounts agrees (inside action List.mem_cons_self)
      obtain ⟨linked', next, agrees', later⟩ := ih (layer.act action) linked₁ middle agrees₁
        fun other member => inside other (List.mem_cons_of_mem _ member)
      refine ⟨linked', next, agrees', later.head.trans first.head, ?_, ?_,
        fun positive => later.positive (first.positive positive), ?_, ?_, ?_⟩
      · exact fun address member => later.stays address (first.stays address member)
      · exact fun address member =>
          (later.sameKeys address (first.stays address member)).trans (first.sameKeys address member)
      · intro key
        have now := first.memberships key
        have after := later.memberships key
        simp only [Runs.total] at now ⊢
        omega
      · have now := first.card
        have after := later.card
        simp only [Runs.total] at now ⊢
        omega
      · have now := first.returned
        have after := later.returned
        simp only [Runs.total] at now ⊢
        rw [Runs.run_cons]
        omega

end Runs

def DataLayer.after (head : Nat) (schedule : List DataAction) : DataLayer :=
  Runs.run DataLayer.act (DataLayer.new head) schedule

def Holds (nodes : Nodes) (linked : List Nat) (key : Nat) : Prop :=
  ∃ address ∈ linked, keyAt nodes address = key ∧ valAt nodes address ≠ 0

/-- In every state the list has its shape, no node was taken out of it, and the successes for each
key tell whether its node has a value; between two states in which all threads have stopped, the
size changes by what the threads have counted. -/
theorem data_layer_accounts (head : Nat) (nonzero : head ≠ 0) (before during : List DataAction) :
    let old := DataLayer.after head before
    let new := DataLayer.after head (before ++ during)
    ∃ linked linked', ListShape head old.nodes linked ∧ ListShape head new.nodes linked' ∧
      (∀ address ∈ linked, address ∈ linked' ∧ keyAt new.nodes address = keyAt old.nodes address) ∧
      (∀ key, 1 ≤ key → ∃ successes, successes = Runs.total DataLayer.act (DataLayer.successes key)
          (DataLayer.new head) (before ++ during) ∧
        (Holds new.nodes linked' key ∧ successes = 1 ∨
          ¬ Holds new.nodes linked' key ∧ successes = 0)) ∧
      (old.Stopped → new.Stopped → ∃ size size',
        dataLayerSize old.nodes head true = some size ∧
        dataLayerSize new.nodes head true = some size' ∧
        (size' : Int) = size + Runs.total DataLayer.act DataLayer.counted old during) := by
  intro old new
  let threads := ((before ++ during).map DataAction.thread).toFinset
  have inside : ∀ action ∈ before ++ during, action.thread ∈ threads := fun action member =>
    List.mem_toFinset.mpr (List.mem_map_of_mem member)
  obtain ⟨linked, atomic, agrees, first⟩ := run_accounts before (DataLayer.new head) [head]
    (atomicInitial keySet) (Agrees.initial nonzero) fun action member =>
      inside action (List.mem_append_left _ member)
  obtain ⟨linked', atomic', agrees', second⟩ := run_accounts during old linked atomic agrees
    fun action member => inside action (List.mem_append_right _ member)
  obtain ⟨linked₂, atomic₂, agrees₂, whole⟩ := run_accounts (before ++ during) (DataLayer.new head)
    [head] (atomicInitial keySet) (Agrees.initial nonzero) inside
  have oldHead : old.head = head := first.head
  have ran : new = Runs.run DataLayer.act old during := Runs.run_append _ _ _ _
  rw [← ran] at agrees' second
  have newHead : new.head = head := second.head.trans oldHead
  have positive := first.positive fun key (wrong : key ∈ (∅ : Finset Nat)) =>
    absurd wrong (Finset.notMem_empty key)
  have list := agrees.list
  have list' := agrees'.list
  have list₂ : ListOk new.head new.nodes linked₂ atomic₂.value := agrees₂.list
  change ListOk old.head old.nodes linked atomic.value at list
  rw [oldHead] at list
  rw [newHead] at list' list₂
  obtain rfl : linked₂ = linked' := list₂.chain.unique list'.chain
  refine ⟨linked, linked₂, list.shape, list'.shape, ?_, ?_, ?_⟩
  · exact fun address member => ⟨second.stays address member, second.sameKeys address member⟩
  · intro key atLeast
    refine ⟨_, rfl, ?_⟩
    have counts := whole.memberships key
    have none : membership (atomicInitial keySet).value key = 0 := rfl
    have holds : key ∈ atomic₂.value ↔ Holds new.nodes linked₂ key := list₂.members key atLeast
    rw [← holds]
    by_cases member : key ∈ atomic₂.value
    · rw [membership, if_pos member] at counts
      exact .inl ⟨member, by omega⟩
    · rw [membership, if_neg member] at counts
      exact .inr ⟨member, by omega⟩
  · intro stopped stopped'
    refine ⟨_, _, dataLayerSize_returns list positive,
      dataLayerSize_returns list' (second.positive positive), ?_⟩
    have card := second.card
    have returned := second.returned
    rw [openCredit_stopped stopped, openCredit_stopped stopped'] at returned
    omega

-- the two threads stop, another one deletes what the first has inserted
def insertThenDelete : List DataAction :=
  .call 2 ⟨.delete, 5, 1⟩ 16 :: List.replicate 12 (.step 2 ⟨0, ⟨0, 0, 0, 0, 0⟩⟩)

theorem insertThenDelete_accounts : (16 : Nat) ≠ 0 ∧
    dataLayerSize (DataLayer.after 16 insertDuringContains).nodes 16 true = some 1 ∧
    Runs.total DataLayer.act DataLayer.counted (DataLayer.after 16 insertDuringContains)
      insertThenDelete = -1 ∧
    ∃ linked', ListShape 16
        (DataLayer.after 16 (insertDuringContains ++ insertThenDelete)).nodes linked' ∧
      ∃ successes, successes = Runs.total DataLayer.act (DataLayer.successes 5) (DataLayer.new 16)
          (insertDuringContains ++ insertThenDelete) ∧
        (Holds (DataLayer.after 16 (insertDuringContains ++ insertThenDelete)).nodes linked' 5 ∧
            successes = 1 ∨
          ¬ Holds (DataLayer.after 16 (insertDuringContains ++ insertThenDelete)).nodes linked' 5 ∧
            successes = 0) := by
  obtain ⟨_, linked', _, shape, _, counts, _⟩ :=
    data_layer_accounts 16 (by decide) insertDuringContains insertThenDelete
  exact ⟨by decide, by decide, by decide, linked', shape, counts 5 (by decide)⟩

end Hosk
