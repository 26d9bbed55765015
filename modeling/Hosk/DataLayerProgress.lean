import Hosk.DataLayerAlone
import Hosk.DataLayerAccounting
import Hosk.Progress

/-!
How near a thread of the data layer is to the end of its operation. Keys increase along its way, so every
access brings it nearer but a compare-and-swap that fails, and only a success of another thread makes one
fail.
-/

namespace Hosk

open Linearizability

def keysAhead (nodes : Nodes) (f : Frame) : Nat := f.op.key - keyAt nodes f.node

/-- A bound on the accesses that are left to an operation, its return included, as long as no
compare-and-swap of it fails. -/
def accessesLeft (nodes : Nodes) (state : Local) : Nat :=
  let ahead := 4 * keysAhead nodes state.frame
  match state.pc with
  | .readVal => ahead + 14
  | .readNext => ahead + 13
  | .readNextVal => ahead + 12
  | .readNextKey => ahead + 11
  | .containsKey | .deleteKey | .insertKey => 10
  | .newNode .malloc => 9
  | .newNode .key => 8
  | .newNode .val => 7
  | .newNode .prev => 6
  | .newNode .next => 5
  | .newNode .level => 4
  | .insertCasNext | .deleteVal => 3
  | .storePrev | .deleteCas | .insertCasVal => 2
  | .freeNode => ahead + 15
  | _ => 1

def casFails (nodes : Nodes) (state : Local) : Bool :=
  let f := state.frame
  match state.pc with
  | .deleteCas | .insertCasVal => valAt nodes f.node ≠ f.nodeVal
  | .insertCasNext => nextOf nodes f.node ≠ some f.next
  | _ => false

def raced (nodes : Nodes) (state : Local) : Bool :=
  let f := state.frame
  match state.pc with
  | .readNext | .insertCasVal | .deleteCas => valAt nodes f.node ≠ f.nodeVal
  | .readNextVal | .readNextKey | .containsKey | .deleteKey | .insertKey =>
      valAt nodes f.node ≠ f.nodeVal ∨ nextOf nodes f.node ≠ some f.next
  | .newNode _ | .insertCasNext => nextOf nodes f.node ≠ some f.next
  | _ => false

section Steps

variable {head : Nat} {nodes nodes' : Nodes} {linked : List Nat} {keys : Finset Nat}
  {status : Status Operation Nat} {malloc : Malloc} {state state' : Local} {f : Frame}

theorem accessesLeft_finish (optype : OpType) (f : Frame) :
    accessesLeft nodes ⟨finishPc optype, f⟩ = 10 := by
  cases optype <;> rfl

theorem accessesLeft_pos (nodes : Nodes) (state : Local) : 1 ≤ accessesLeft nodes state := by
  obtain ⟨pc, f⟩ := state
  cases pc with
  | newNode stage => cases stage <;> simp [accessesLeft]
  | _ => simp [accessesLeft]

/-- A step that is no failed compare-and-swap brings the end nearer; after one that is, the operation goes
round again from the node where it stands. -/
theorem dataStep_nearer (list : ListOk head nodes linked keys) (ok : ThreadOk nodes linked status state)
    (notLinked : ∀ address, owned state = some address → address ∉ linked)
    (step : dataStep malloc nodes state = some (nodes', state')) :
    if casFails nodes state then accessesLeft nodes' state' ≤ 4 * keysAhead nodes state.frame + 15
    else accessesLeft nodes' state' < accessesLeft nodes state := by
  obtain ⟨pc, f⟩ := state
  cases pc with
  | readVal =>
      have standing : AtNode nodes linked f := ok.1
      obtain ⟨node, stored, _⟩ := list.found standing.nodeLinked
      have notOwn : f.node ≠ node.val := fun same =>
        list.notOwn _ standing.nodeLinked ((valAt_found stored).trans same.symm)
      simp only [dataStep, stored, Option.bind_eq_bind, Option.bind_some, if_neg notOwn] at step
      obtain ⟨rfl, rfl⟩ := Prod.mk.inj (Option.some.inj step)
      exact Nat.lt_succ_self _
  | readNext =>
      obtain ⟨node, stored, _⟩ := list.found ok.1.nodeLinked
      simp only [dataStep, stored, Option.bind_eq_bind, Option.bind_some] at step
      obtain ⟨rfl, rfl⟩ := Prod.mk.inj (Option.some.inj step)
      by_cases last : node.next = 0
      · rw [if_neg (not_not_intro last), accessesLeft_finish]
        exact Nat.lt_of_lt_of_le (by omega : 10 < 13) (Nat.le_add_left 13 _)
      · rw [if_pos last]
        exact Nat.lt_succ_self _
  | readNextVal =>
      have standing : AtNext nodes linked f := ok.1
      obtain ⟨next, stored, _⟩ := list.found standing.nextLinked
      have notOwn : next.val ≠ f.next := fun same =>
        list.notOwn _ standing.nextLinked ((valAt_found stored).trans same)
      simp only [dataStep, stored, Option.bind_eq_bind, Option.bind_some, if_neg notOwn] at step
      obtain ⟨rfl, rfl⟩ := Prod.mk.inj (Option.some.inj step)
      exact Nat.lt_succ_self _
  | readNextKey =>
      have standing : AtNext nodes linked f := ok.1
      obtain ⟨next, stored, _⟩ := list.found standing.nextLinked
      have nextKey := keyAt_found stored
      have onward := standing.onward
      simp only [dataStep, stored, Option.bind_eq_bind, Option.bind_some] at step
      split at step
      · obtain ⟨rfl, rfl⟩ := Prod.mk.inj (Option.some.inj step)
        rw [accessesLeft_finish]
        exact Nat.lt_of_lt_of_le (by omega : 10 < 11) (Nat.le_add_left 11 _)
      · obtain ⟨rfl, rfl⟩ := Prod.mk.inj (Option.some.inj step)
        simp only [casFails, accessesLeft, keysAhead, nextKey, Bool.false_eq_true, if_false]
        omega
  | containsKey | deleteKey | insertKey =>
      obtain ⟨node, stored, _⟩ := list.found ok.1.nodeLinked
      simp only [dataStep, stored, Option.bind_eq_bind, Option.bind_some] at step
      grind [accessesLeft, casFails]
  | deleteVal =>
      obtain ⟨node, stored, _⟩ := list.found ok.1.nodeLinked
      simp only [dataStep, stored, Option.bind_eq_bind, Option.bind_some] at step
      grind [accessesLeft, casFails]
  | deleteCas | insertCasVal =>
      obtain ⟨node, stored, _⟩ := list.found ok.1.nodeLinked
      have sameVal := valAt_found stored
      simp only [dataStep, stored, Option.bind_eq_bind, Option.bind_some] at step
      grind [accessesLeft, casFails]
  | newNode stage =>
      cases stage <;> simp [dataStep, newStep, Option.bind_eq_some_iff] at step <;>
        grind [accessesLeft, casFails]
  | insertCasNext =>
      have building : Building nodes linked status f (Linkable f) := ok
      obtain ⟨node, stored, _⟩ := list.found building.nodeLinked
      have sameNext := nextOf_found stored
      simp only [dataStep, stored, Option.bind_eq_bind, Option.bind_some] at step
      grind [accessesLeft, casFails]
  | storePrev =>
      simp only [dataStep, Option.bind_eq_bind, Option.bind_eq_some_iff] at step
      grind [accessesLeft, casFails]
  | freeNode =>
      have inserting : Inserting nodes linked status f := ok
      have apart : f.newNode ≠ f.node := fun same => notLinked _ rfl (same ▸ inserting.nodeLinked)
      obtain ⟨rfl, rfl⟩ := Prod.mk.inj (Option.some.inj step)
      have same : keyAt (Store.erase nodes f.newNode) f.node = keyAt nodes f.node := by
        rw [keyAt, keyAt, Store.get_erase_other apart]
      simp only [casFails, accessesLeft, keysAhead, same, Bool.false_eq_true, if_false]
      omega
  | returned result => exact absurd step (Option.some_ne_none _).symm
  | readPrev | removeVal | removeKey | removeNext | removeTest | newMarker | markerVal | markerCas
    | reloadNext | prevNext | prevKey | prevPrev | ptrNext | removeCas => exact ok.elim

theorem raced_of_fails (fails : casFails nodes state = true) : raced nodes state = true := by
  obtain ⟨pc, f⟩ := state
  cases pc <;> simp_all [casFails, raced]

theorem raced_iff (other : state.pc ≠ .freeNode) : raced nodes state = false ↔ Unraced nodes state := by
  obtain ⟨pc, f⟩ := state
  cases pc <;> simp_all [raced, Unraced]

theorem dataStep_node (ok : ThreadOk nodes linked status state)
    (step : dataStep malloc nodes state = some (nodes', state')) :
    state'.frame.node = state.frame.node ∨ state'.pc = .readVal := by
  obtain ⟨pc, f⟩ := state
  cases pc with
  | newNode stage =>
      cases stage <;> simp [dataStep, newStep, Option.bind_eq_some_iff] at step <;> grind
  | returned result => exact absurd step (Option.some_ne_none _).symm
  | readPrev | removeVal | removeKey | removeNext | removeTest | newMarker | markerVal | markerCas
    | reloadNext | prevNext | prevKey | prevPrev | ptrNext | removeCas => exact ok.elim
  | _ =>
      simp only [dataStep, Option.bind_eq_bind, Option.bind_eq_some_iff] at step
      grind

theorem dataStep_raced (list : ListOk head nodes linked keys) (ok : ThreadOk nodes linked status state)
    (notLinked : ∀ address, owned state = some address → address ∉ linked)
    (assumption : assumed malloc nodes state = true)
    (step : dataStep malloc nodes state = some (nodes', state')) (later : raced nodes' state' = true) :
    raced nodes state = true ∧ casFails nodes state = false ∧
      state'.frame.node = state.frame.node := by
  have notFree : ∀ nodes (state : Local), raced nodes state = true → state.pc ≠ .freeNode := by
    rintro nodes ⟨pc, f⟩ isRaced rfl
    exact Bool.false_ne_true isRaced
  have notFirst : state'.pc ≠ .readVal := by
    obtain ⟨pc, f⟩ := state'
    rintro rfl
    exact Bool.false_ne_true later
  have started : state.pc ≠ .freeNode := by
    obtain ⟨pc, f⟩ := state
    rintro rfl
    obtain ⟨rfl, rfl⟩ := Prod.mk.inj (Option.some.inj step)
    exact notFirst rfl
  have before : raced nodes state = true := by
    rw [← Bool.not_eq_false, raced_iff started]
    intro unraced
    have unraced' := (dataStep_nears list ok notLinked assumption unraced step).unraced
    rw [(raced_iff (notFree _ _ later)).mpr unraced'] at later
    exact Bool.false_ne_true later
  refine ⟨before, ?_, (dataStep_node ok step).resolve_right notFirst⟩
  rw [← Bool.not_eq_true]
  intro fails
  obtain ⟨pc, f⟩ := state
  cases pc with
  | deleteCas | insertCasVal | insertCasNext =>
      simp only [dataStep, Option.bind_eq_bind, Option.bind_eq_some_iff] at step
      grind [raced, casFails, valAt_found, nextOf_found]
  | _ => exact Bool.false_ne_true fails

/-- The accesses that are left, those of another round too if the compare-and-swap is bound to fail. -/
def work (nodes : Nodes) (state : Local) : Nat :=
  accessesLeft nodes state + if raced nodes state then 4 * keysAhead nodes state.frame + 15 else 0

theorem work_le (nodes : Nodes) (state : Local) : work nodes state ≤ 8 * state.frame.op.key + 30 := by
  have ahead : keysAhead nodes state.frame ≤ state.frame.op.key := Nat.sub_le _ _
  have left : accessesLeft nodes state ≤ 4 * keysAhead nodes state.frame + 15 := by
    obtain ⟨pc, f⟩ := state
    cases pc with
    | newNode stage => cases stage <;> simp only [accessesLeft] <;> omega
    | _ =>
        simp only [accessesLeft]
        omega
  rw [work]
  split <;> omega

theorem raced_linked (ok : ThreadOk nodes linked status state) (isRaced : raced nodes state = true) :
    state.frame.node ∈ linked := by
  obtain ⟨pc, f⟩ := state
  cases pc with
  | readNext | readNextVal | readNextKey | containsKey | deleteKey | insertKey | deleteCas
    | insertCasVal => exact ok.1.nodeLinked
  | newNode stage =>
      have inserting : Inserting nodes linked status f := by
        cases stage with
        | malloc => exact ok
        | key | val | prev | next | level => exact ok.1
      exact inserting.nodeLinked
  | insertCasNext =>
      have building : Building nodes linked status f (Linkable f) := ok
      exact building.nodeLinked
  | _ => exact absurd isRaced Bool.false_ne_true

theorem dataStep_work (list : ListOk head nodes linked keys) (ok : ThreadOk nodes linked status state)
    (notLinked : ∀ address, owned state = some address → address ∉ linked)
    (assumption : assumed malloc nodes state = true)
    (sameKeys : ∀ address ∈ linked, keyAt nodes' address = keyAt nodes address)
    (step : dataStep malloc nodes state = some (nodes', state')) :
    work nodes' state' < work nodes state := by
  have nearer := dataStep_nearer list ok notLinked step
  have positive := accessesLeft_pos nodes state
  by_cases later : raced nodes' state' = true
  · obtain ⟨before, notFails, sameNode⟩ := dataStep_raced list ok notLinked assumption step later
    have ahead : keysAhead nodes' state'.frame = keysAhead nodes state.frame := by
      rw [keysAhead, keysAhead, dataStep_op ok step, sameNode, sameKeys _ (raced_linked ok before)]
    rw [notFails, if_neg Bool.false_ne_true] at nearer
    rw [work, work, if_pos later, if_pos before, ahead]
    omega
  · rw [work, work, if_neg later]
    by_cases fails : casFails nodes state = true
    · rw [if_pos fails] at nearer
      rw [if_pos (raced_of_fails fails)]
      omega
    · rw [if_neg fails] at nearer
      omega

theorem dataStep_quiet (list : ListOk head nodes linked keys) (ok : ThreadOk nodes linked status state)
    (notLinked : ∀ address, owned state = some address → address ∉ linked)
    (assumption : assumed malloc nodes state = true) (noSuccess : casSucceeds nodes state = false)
    (step : dataStep malloc nodes state = some (nodes', state')) :
    ∀ address ∈ linked, valAt nodes' address = valAt nodes address ∧
      nextOf nodes' address = nextOf nodes address := by
  have unwritten : ∀ written (node : Node), written ∉ linked → ∀ address ∈ linked,
      valAt (Store.set nodes written node) address = valAt nodes address ∧
        nextOf (Store.set nodes written node) address = nextOf nodes address := by
    intro written node outside address inside
    have apart : written ≠ address := fun same => outside (same ▸ inside)
    rw [valAt, valAt, nextOf, nextOf, Store.get_set_other _ apart]
    exact ⟨rfl, rfl⟩
  obtain ⟨pc, f⟩ := state
  cases pc with
  | newNode stage =>
      cases stage with
      | malloc =>
          have fresh : malloc.address ∉ linked := by
            intro inside
            obtain ⟨node, stored, _⟩ := list.found inside
            simp [assumed, stored] at assumption
          obtain ⟨rfl, rfl⟩ := Prod.mk.inj (Option.some.inj step)
          exact unwritten _ _ fresh
      | key | val | prev | next | level =>
          simp [dataStep, newStep, Option.bind_eq_some_iff] at step
          obtain ⟨node, _, rfl, _⟩ := step
          exact unwritten _ _ (notLinked _ rfl)
  | deleteCas | insertCasVal | insertCasNext =>
      simp only [dataStep, Option.bind_eq_bind, Option.bind_eq_some_iff] at step
      grind [casSucceeds, valAt_found, nextOf_found]
  | storePrev =>
      simp only [dataStep, Option.bind_eq_bind, Option.bind_eq_some_iff] at step
      obtain ⟨next, stored, step⟩ := step
      obtain ⟨rfl, rfl⟩ := Prod.mk.inj (Option.some.inj step)
      intro address _
      by_cases same : f.next = address
      · subst same
        simp [valAt, nextOf, stored]
      · rw [valAt, valAt, nextOf, nextOf, Store.get_set_other _ same]
        exact ⟨rfl, rfl⟩
  | freeNode =>
      obtain ⟨rfl, rfl⟩ := Prod.mk.inj (Option.some.inj step)
      intro address inside
      have apart : f.newNode ≠ address := fun same => notLinked _ rfl (same ▸ inside)
      rw [valAt, valAt, nextOf, nextOf, Store.get_erase_other apart]
      exact ⟨rfl, rfl⟩
  | returned result => exact absurd step (Option.some_ne_none _).symm
  | readPrev | removeVal | removeKey | removeNext | removeTest | newMarker | markerVal | markerCas
    | reloadNext | prevNext | prevKey | prevPrev | ptrNext | removeCas => exact ok.elim
  | _ =>
      simp only [dataStep, Option.bind_eq_bind, Option.bind_eq_some_iff] at step
      obtain ⟨_, _, step⟩ := step
      grind

theorem work_congr (ok : ThreadOk nodes linked status state)
    (sameKeys : ∀ address ∈ linked, keyAt nodes' address = keyAt nodes address)
    (quiet : ∀ address ∈ linked, valAt nodes' address = valAt nodes address ∧
      nextOf nodes' address = nextOf nodes address) : work nodes' state = work nodes state := by
  obtain ⟨pc, f⟩ := state
  have same : f.node ∈ linked → work nodes' ⟨pc, f⟩ = work nodes ⟨pc, f⟩ := by
    intro inside
    have ahead : keysAhead nodes' f = keysAhead nodes f := by rw [keysAhead, keysAhead, sameKeys _ inside]
    have left : accessesLeft nodes' ⟨pc, f⟩ = accessesLeft nodes ⟨pc, f⟩ := by
      simp only [accessesLeft, ahead]
    have reads : raced nodes' ⟨pc, f⟩ = raced nodes ⟨pc, f⟩ := by
      cases pc <;> simp only [raced, quiet _ inside]
    rw [work, work, left, reads, ahead]
  cases pc with
  | readVal | readNext | readNextVal | readNextKey | containsKey | deleteKey | insertKey | deleteVal
    | deleteCas | insertCasVal => exact same ok.1.nodeLinked
  | newNode stage =>
      have inserting : Inserting nodes linked status f := by
        cases stage with
        | malloc => exact ok
        | key | val | prev | next | level => exact ok.1
      exact same inserting.nodeLinked
  | insertCasNext =>
      have building : Building nodes linked status f (Linkable f) := ok
      exact same building.nodeLinked
  | freeNode =>
      have inserting : Inserting nodes linked status f := ok
      exact same inserting.nodeLinked
  | storePrev | returned result => rfl
  | readPrev | removeVal | removeKey | removeNext | removeTest | newMarker | markerVal | markerCas
    | reloadNext | prevNext | prevKey | prevPrev | ptrNext | removeCas => exact ok.elim

end Steps

end Hosk
