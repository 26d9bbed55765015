import Hosk.DataLayerLockFree

/-!
One thread's own accesses, whatever the others do in between: a share for each call and one for each
compare-and-swap of its own that fails. `sl_contains` makes none, so that it is wait-free.
-/

namespace Hosk

open Linearizability
open Progress

namespace DataLayer

/-- The accesses of one thread inside its operations of one type. -/
def accessesIn (thread : Nat) (optype : OpType) (layer : DataLayer) : DataAction → Nat
  | .call _ _ _ => 0
  | .step other malloc => (layer.threads other).elim 0 fun state =>
      if other = thread ∧ state.frame.op.optype = optype ∧ assumed malloc layer.nodes state then 1 else 0

def allowance (thread : Nat) (optype : OpType) (layer : DataLayer) : DataAction → Nat
  | .call other op entry =>
      if other = thread ∧ op.optype = optype ∧ layer.threads other = none ∧ layer.mayCall op entry then
        4 * op.key + 14
      else 0
  | .step _ _ => 0

def retries (thread : Nat) (optype : OpType) (layer : DataLayer) : DataAction → Nat
  | .call _ _ _ => 0
  | .step other _ => (layer.threads other).elim 0 fun state =>
      if other = thread ∧ state.frame.op.optype = optype ∧ casFails layer.nodes state then
        4 * state.frame.op.key + 15
      else 0

def left (thread : Nat) (optype : OpType) (layer : DataLayer) : Nat :=
  (layer.threads thread).elim 0 fun state =>
    if state.frame.op.optype = optype then accessesLeft layer.nodes state else 0

end DataLayer

section Acts

variable {thread : Nat} {optype : OpType} {layer : DataLayer} {linked : List Nat}
  {atomic : AtomicState (Finset Nat) Operation Nat}

theorem accessesLeft_congr {nodes nodes' : Nodes} {status : Status Operation Nat} {state : Local}
    (ok : ThreadOk nodes linked status state)
    (sameKeys : ∀ address ∈ linked, keyAt nodes' address = keyAt nodes address) :
    accessesLeft nodes' state = accessesLeft nodes state := by
  obtain ⟨pc, f⟩ := state
  cases pc with
  | readVal | readNext | readNextVal | readNextKey =>
      simp only [accessesLeft, keysAhead, sameKeys _ ok.1.nodeLinked]
  | freeNode =>
      have inserting : Inserting nodes linked status f := ok
      simp only [accessesLeft, keysAhead, sameKeys _ inserting.nodeLinked]
  | newNode stage => cases stage <;> rfl
  | _ => rfl

/-- No compare-and-swap of `sl_contains` fails: it makes none. -/
theorem contains_retries {nodes : Nodes} {status : Status Operation Nat} {state : Local}
    (ok : ThreadOk nodes linked status state) (isContains : state.frame.op.optype = .contains) :
    casFails nodes state = false := by
  obtain ⟨pc, f⟩ := state
  have notInsert : f.op.optype ≠ .insert := by
    rw [isContains]
    exact OpType.noConfusion
  cases pc with
  | deleteCas =>
      have isDelete := ok.2.2.2.1
      rw [isContains] at isDelete
      exact OpType.noConfusion isDelete
  | insertCasVal => exact absurd ok.2.2.2.1 notInsert
  | insertCasNext =>
      have building : Building nodes linked status f (Linkable f) := ok
      exact absurd building.isInsert notInsert
  | _ => rfl

theorem left_other {nodes : Nodes} {mover : Nat} {state : Option Local} (different : thread ≠ mover) :
    ({ layer with nodes := nodes }.setThread mover state).left thread optype =
      { layer with nodes := nodes }.left thread optype := by
  have same : ({ layer with nodes := nodes }.setThread mover state).threads thread = layer.threads thread :=
    Function.update_of_ne different _ _
  rw [DataLayer.left, DataLayer.left, same]
  rfl

theorem left_set (thread : Nat) (optype : OpType) (nodes : Nodes) (state : Option Local) :
    ({ layer with nodes := nodes }.setThread thread state).left thread optype = state.elim 0 fun state =>
      if state.frame.op.optype = optype then accessesLeft nodes state else 0 := by
  have same : ({ layer with nodes := nodes }.setThread thread state).threads thread = state :=
    Function.update_self _ _ _
  rw [DataLayer.left, same]
  rfl

theorem act_left (thread : Nat) (optype : OpType) (agrees : Agrees layer linked atomic)
    (action : DataAction) :
    (layer.act action).left thread optype + layer.accessesIn thread optype action ≤
      layer.left thread optype + (layer.allowance thread optype action + layer.retries thread optype action) := by
  have acts := act_acts agrees action
  generalize layer.act action = after, layer.emits action = events at acts ⊢
  cases acts with
  | nothing action none =>
      have quiet : layer.accessesIn thread optype action = 0 := by
        cases action with
        | call other op entry => rfl
        | step other malloc =>
            cases running : layer.threads other with
            | none => simp [DataLayer.accessesIn, running]
            | some state => simp [DataLayer.accessesIn, running, none other malloc state rfl running]
      omega
  | call other op entry outside ok =>
      rw [show layer.accessesIn thread optype (.call other op entry) = 0 from rfl]
      by_cases same : thread = other
      · subst other
        have standing : AtNode layer.nodes linked (slTraverseData entry op).frame := ok.1
        have may : layer.mayCall op entry = true := (mayCall_iff agrees.list).mpr
          ⟨standing.positive, standing.value, standing.nodeLinked, standing.notPast⟩
        have ahead : keysAhead layer.nodes (slTraverseData entry op).frame ≤ op.key := Nat.sub_le _ _
        have most : accessesLeft layer.nodes (slTraverseData entry op) ≤ 4 * op.key + 14 :=
          Nat.add_le_add_right (Nat.mul_le_mul_left 4 ahead) 14
        have sameOp : (slTraverseData entry op).frame.op = op := rfl
        rw [left_set thread optype layer.nodes, Option.elim, sameOp]
        by_cases ofType : op.optype = optype
        · rw [DataLayer.allowance, if_pos ofType, if_pos ⟨rfl, ofType, outside, may⟩]
          omega
        · rw [if_neg ofType]
          exact Nat.zero_le _
      · rw [@left_other _ _ layer layer.nodes _ _ same]
        exact Nat.le_add_right _ _
  | ret other malloc result f running =>
      by_cases same : thread = other
      · subst other
        rw [left_set thread optype layer.nodes, DataLayer.left, DataLayer.accessesIn, running]
        simp only [Option.elim, accessesLeft]
        split <;> split <;> simp_all
      · rw [@left_other _ _ layer layer.nodes _ _ same, DataLayer.accessesIn, running, Option.elim,
          if_neg fun both => same both.1.symm]
        exact Nat.le_add_right _ _
  | step other malloc state nodes' state' linked' keys' status' running assumption taken advances =>
      have ok := agrees.inside other state running
      by_cases same : thread = other
      · subst other
        have nearer := dataStep_nearer agrees.list ok
          (fun address owner => (agrees.owns thread state address running owner).1) taken
        have sameOp := dataStep_op ok taken
        have ahead : keysAhead layer.nodes state.frame ≤ state.frame.op.key := Nat.sub_le _ _
        have some := accessesLeft_pos layer.nodes state
        rw [left_set, DataLayer.left, DataLayer.accessesIn, DataLayer.retries, running]
        simp only [Option.elim, sameOp, assumption, and_true, true_and]
        by_cases ofType : state.frame.op.optype = optype
        · by_cases fails : casFails layer.nodes state = true
          · rw [if_pos fails] at nearer
            simp only [if_pos ofType, if_pos (And.intro ofType fails)]
            omega
          · rw [if_neg fails] at nearer
            simp only [if_pos ofType]
            omega
        · simp only [if_neg ofType]
          omega
      · have unmoved : { layer with nodes := nodes' }.left thread optype = layer.left thread optype := by
          rw [DataLayer.left, DataLayer.left]
          cases located : layer.threads thread with
          | none => rfl
          | some otherState =>
              have left := accessesLeft_congr (agrees.inside thread otherState located) advances.frames.keys
              simp only [Option.elim, left]
        rw [left_other same, unmoved, DataLayer.accessesIn, running, Option.elim,
          if_neg fun both => same both.1.symm]
        exact Nat.le_add_right _ _

theorem act_retries (agrees : Agrees layer linked atomic) (action : DataAction) :
    layer.retries thread .contains action = 0 := by
  cases action with
  | call other op entry => rfl
  | step other malloc =>
      cases running : layer.threads other with
      | none => simp [DataLayer.retries, running]
      | some state =>
          have ok := agrees.inside other state running
          rw [DataLayer.retries, running, Option.elim, if_neg]
          rintro ⟨_, isContains, fails⟩
          exact Bool.false_ne_true ((contains_retries ok isContains).symm.trans fails)

end Acts

/-- However often the others come in between, and whatever they do to the list, a thread needs no more
accesses for its calls of `sl_contains` than their keys allow. -/
theorem contains_wait_free (head : Nat) (nonzero : head ≠ 0) (thread : Nat) (schedule : List DataAction) :
    along DataLayer.act (DataLayer.accessesIn thread .contains) (DataLayer.new head) schedule ≤
      along DataLayer.act (DataLayer.allowance thread .contains) (DataLayer.new head) schedule := by
  have keeps : ∀ layer action, (∃ atomic, Related layer atomic) → True →
      ∃ atomic, Related (layer.act action) atomic := by
    rintro layer action ⟨atomic, related⟩ _
    obtain ⟨next, _, kept⟩ := related_step action related
    exact ⟨next, kept⟩
  have pays : ∀ layer action, (∃ atomic, Related layer atomic) → True →
      (layer.act action).left thread .contains + layer.accessesIn thread .contains action ≤
        layer.left thread .contains + layer.allowance thread .contains action := by
    rintro layer action ⟨atomic, linked, agrees⟩ _
    have step := act_left thread .contains agrees action
    rwa [act_retries agrees, Nat.add_zero] at step
  have spent := spent_le (DataLayer.left thread .contains) (DataLayer.accessesIn thread .contains)
    (DataLayer.allowance thread .contains) _ keeps pays schedule (DataLayer.new head)
    ⟨_, [head], Agrees.initial nonzero⟩ fun _ _ => trivial
  have start : (DataLayer.new head).left thread .contains = 0 := rfl
  omega

-- another thread inserts 5 while the key is looked for
theorem insertDuringContains_wait_free : (16 : Nat) ≠ 0 ∧
    along DataLayer.act (DataLayer.accessesIn 1 .contains) (DataLayer.new 16) insertDuringContains = 8 ∧
    along DataLayer.act (DataLayer.accessesIn 1 .contains) (DataLayer.new 16) insertDuringContains ≤
      along DataLayer.act (DataLayer.allowance 1 .contains) (DataLayer.new 16) insertDuringContains :=
  ⟨by decide, by decide, contains_wait_free 16 (by decide) 1 insertDuringContains⟩

end Hosk
