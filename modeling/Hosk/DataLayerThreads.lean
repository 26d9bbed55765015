import Hosk.DataLayerList

/-!
What each thread knows at each of its steps, and whether its operation has taken effect yet. An
operation takes effect at the read that settles it: of the value of the node with its key, or of
a next pointer that passes its key; a successful one at its compare-and-swap.
-/

namespace Hosk

open Linearizability

def judged (op : Operation) (nodeVal : Nat) : Status Operation Nat :=
  match op.optype with
  | .contains => .finished (if nodeVal ≠ 0 then 1 else 0)
  | .insert => if nodeVal ≠ 0 then .finished 0 else .pending op
  | .delete => if nodeVal ≠ 0 then .pending op else .finished 0

def passed (op : Operation) : Status Operation Nat :=
  match op.optype with
  | .contains => .finished 0
  | .insert => .pending op
  | .delete => .finished 0

def sawVal (nodes : Nodes) (f : Frame) : Status Operation Nat :=
  if keyAt nodes f.node = f.op.key then judged f.op f.nodeVal else .pending f.op

def decided (nodes : Nodes) (f : Frame) : Status Operation Nat :=
  if keyAt nodes f.node = f.op.key then judged f.op f.nodeVal else passed f.op

def sawNext (nodes : Nodes) (f : Frame) : Status Operation Nat :=
  if f.op.key < keyAt nodes f.next then decided nodes f else sawVal nodes f

structure AtNode (nodes : Nodes) (linked : List Nat) (f : Frame) : Prop where
  nodeLinked : f.node ∈ linked
  notPast : keyAt nodes f.node ≤ f.op.key
  positive : 1 ≤ f.op.key
  value : f.op.val ≠ 0
  unset : f.pnode = 0

structure AtNext (nodes : Nodes) (linked : List Nat) (f : Frame) : Prop extends
    AtNode nodes linked f where
  nextLinked : f.next ∈ linked
  onward : keyAt nodes f.node < keyAt nodes f.next

structure AtGap (nodes : Nodes) (linked : List Nat) (f : Frame) : Prop extends
    AtNode nodes linked f where
  past : f.next = 0 ∨ f.next ∈ linked ∧ f.op.key < keyAt nodes f.next

structure Inserting (nodes : Nodes) (linked : List Nat) (status : Status Operation Nat)
    (f : Frame) : Prop extends AtGap nodes linked f where
  before : keyAt nodes f.node < f.op.key
  pending : status = .pending f.op
  isInsert : f.op.optype = .insert

def newContent (f : Frame) : Node := ⟨f.node, f.next, f.op.val, f.op.key, 0⟩

def Built (node content : Node) : NewPc → Prop
  | .malloc => True
  | .key => True
  | .val => node.key = content.key
  | .prev => node.key = content.key ∧ node.val = content.val
  | .next => node.key = content.key ∧ node.val = content.val ∧ node.prev = content.prev
  | .level => node.key = content.key ∧ node.val = content.val ∧ node.prev = content.prev ∧
      node.next = content.next

/-- The new node of a thread, private to it, with the fields stored so far. -/
structure Building (nodes : Nodes) (linked : List Nat) (status : Status Operation Nat) (f : Frame)
    (fields : Node → Prop) : Prop extends Inserting nodes linked status f where
  freshNonzero : f.newNode ≠ 0
  freshNotVal : f.op.val ≠ f.newNode
  content : ∃ node, Store.get nodes f.newNode = some node ∧ fields node

/-- What an operation passes on through pnode: NULL, or the linked node of its key. -/
def PnodeOk (nodes : Nodes) (linked : List Nat) (f : Frame) : Prop :=
  f.pnode = 0 ∨ f.pnode ∈ linked ∧ keyAt nodes f.pnode = f.op.key

def Linkable (f : Frame) (node : Node) : Prop :=
  node.key = f.op.key ∧ node.val = f.op.val ∧ node.prev = f.node ∧ node.next = f.next

/-- The thread's own facts at each access. No linked node holds its own address as a value, so no
thread comes to the pcs of `node_remove`. -/
def ThreadOk (nodes : Nodes) (linked : List Nat) (status : Status Operation Nat)
    (state : Local) : Prop :=
  let f := state.frame
  match state.pc with
  | .readVal => AtNode nodes linked f ∧ status = .pending f.op
  | .readNext => AtNode nodes linked f ∧ status = sawVal nodes f
  | .readNextVal => AtNext nodes linked f ∧ status = sawNext nodes f
  | .readNextKey => AtNext nodes linked f ∧ status = sawNext nodes f
  | .containsKey => AtGap nodes linked f ∧ status = decided nodes f ∧ f.op.optype = .contains
  | .deleteKey => AtGap nodes linked f ∧ status = decided nodes f ∧ f.op.optype = .delete
  | .insertKey => AtGap nodes linked f ∧ status = decided nodes f ∧ f.op.optype = .insert
  | .deleteVal => AtNode nodes linked f ∧ keyAt nodes f.node = f.op.key ∧
      status = .pending f.op ∧ f.op.optype = .delete
  | .deleteCas => AtNode nodes linked f ∧ keyAt nodes f.node = f.op.key ∧
      status = .pending f.op ∧ f.op.optype = .delete ∧ f.nodeVal ≠ 0
  | .insertCasVal => AtNode nodes linked f ∧ keyAt nodes f.node = f.op.key ∧
      status = .pending f.op ∧ f.op.optype = .insert ∧ f.nodeVal = 0
  | .newNode .malloc => Inserting nodes linked status f
  | .newNode stage => Building nodes linked status f fun node => Built node (newContent f) stage
  | .insertCasNext => Building nodes linked status f (Linkable f)
  | .freeNode => Inserting nodes linked status f
  | .storePrev => status = .finished 1 ∧ f.next ∈ linked ∧ f.newNode ∈ linked ∧
      keyAt nodes f.newNode < keyAt nodes f.next ∧ keyAt nodes f.newNode = f.op.key
  | .returned result => status = .finished result ∧ PnodeOk nodes linked f
  | _ => False

def owned (state : Local) : Option Nat :=
  match state.pc with
  | .newNode .malloc => none
  | .newNode _ => some state.frame.newNode
  | .insertCasNext => some state.frame.newNode
  | .freeNode => some state.frame.newNode
  | _ => none

/-- What a step of one thread leaves as it was for the others. -/
structure Frames (nodes : Nodes) (linked : List Nat) (mine : Option Nat) (nodes' : Nodes)
    (linked' : List Nat) : Prop where
  stays : ∀ address ∈ linked, address ∈ linked'
  keys : ∀ address ∈ linked, keyAt nodes' address = keyAt nodes address
  others : ∀ address, address ∉ linked → (Store.get nodes address).isSome → some address ≠ mine →
    address ∉ linked' ∧ Store.get nodes' address = Store.get nodes address

theorem Frames.same (nodes : Nodes) (linked : List Nat) (mine : Option Nat) :
    Frames nodes linked mine nodes linked :=
  ⟨fun _ member => member, fun _ _ => rfl, fun _ notLinked _ _ => ⟨notLinked, rfl⟩⟩

section Stable

variable {nodes nodes' : Nodes} {linked linked' : List Nat} {mine : Option Nat} {f : Frame}
  {status : Status Operation Nat}

theorem AtNode.stable (standing : AtNode nodes linked f)
    (frames : Frames nodes linked mine nodes' linked') : AtNode nodes' linked' f := by
  refine ⟨frames.stays _ standing.nodeLinked, ?_, standing.positive, standing.value, standing.unset⟩
  rw [frames.keys _ standing.nodeLinked]
  exact standing.notPast

theorem AtNext.stable (standing : AtNext nodes linked f)
    (frames : Frames nodes linked mine nodes' linked') : AtNext nodes' linked' f := by
  refine ⟨standing.toAtNode.stable frames, frames.stays _ standing.nextLinked, ?_⟩
  rw [frames.keys _ standing.nodeLinked, frames.keys _ standing.nextLinked]
  exact standing.onward

theorem AtGap.stable (standing : AtGap nodes linked f)
    (frames : Frames nodes linked mine nodes' linked') : AtGap nodes' linked' f := by
  refine ⟨standing.toAtNode.stable frames, ?_⟩
  rcases standing.past with null | ⟨nextLinked, past⟩
  · exact .inl null
  · refine .inr ⟨frames.stays _ nextLinked, ?_⟩
    rw [frames.keys _ nextLinked]
    exact past

theorem Inserting.stable (inserting : Inserting nodes linked status f)
    (frames : Frames nodes linked mine nodes' linked') : Inserting nodes' linked' status f := by
  refine ⟨inserting.toAtGap.stable frames, ?_, inserting.pending, inserting.isInsert⟩
  rw [frames.keys _ inserting.nodeLinked]
  exact inserting.before

theorem Building.stable {fields : Node → Prop} (building : Building nodes linked status f fields)
    (frames : Frames nodes linked mine nodes' linked')
    (kept : Store.get nodes' f.newNode = Store.get nodes f.newNode) :
    Building nodes' linked' status f fields := by
  refine ⟨building.toInserting.stable frames, building.freshNonzero, building.freshNotVal, ?_⟩
  rw [kept]
  exact building.content

theorem sawVal_stable (standing : AtNode nodes linked f)
    (frames : Frames nodes linked mine nodes' linked') : sawVal nodes' f = sawVal nodes f := by
  simp only [sawVal, frames.keys _ standing.nodeLinked]

theorem decided_stable (standing : AtNode nodes linked f)
    (frames : Frames nodes linked mine nodes' linked') : decided nodes' f = decided nodes f := by
  simp only [decided, frames.keys _ standing.nodeLinked]

theorem sawNext_stable (standing : AtNext nodes linked f)
    (frames : Frames nodes linked mine nodes' linked') : sawNext nodes' f = sawNext nodes f := by
  simp only [sawNext, frames.keys _ standing.nextLinked, decided_stable standing.toAtNode frames,
    sawVal_stable standing.toAtNode frames]

theorem ThreadOk.stable {state : Local} (ok : ThreadOk nodes linked status state)
    (frames : Frames nodes linked mine nodes' linked')
    (kept : ∀ address, owned state = some address →
      Store.get nodes' address = Store.get nodes address) :
    ThreadOk nodes' linked' status state := by
  obtain ⟨pc, f⟩ := state
  cases pc with
  | readVal => exact ⟨ok.1.stable frames, ok.2⟩
  | readNext => exact ⟨ok.1.stable frames, ok.2.trans (sawVal_stable ok.1 frames).symm⟩
  | readNextVal => exact ⟨ok.1.stable frames, ok.2.trans (sawNext_stable ok.1 frames).symm⟩
  | readNextKey => exact ⟨ok.1.stable frames, ok.2.trans (sawNext_stable ok.1 frames).symm⟩
  | containsKey | deleteKey | insertKey =>
      exact ⟨ok.1.stable frames, ok.2.1.trans (decided_stable ok.1.toAtNode frames).symm, ok.2.2⟩
  | deleteVal | deleteCas | insertCasVal =>
      exact ⟨ok.1.stable frames, (frames.keys _ ok.1.nodeLinked).trans ok.2.1, ok.2.2⟩
  | newNode stage =>
      cases stage with
      | malloc => exact Inserting.stable ok frames
      | key | val | prev | next | level => exact Building.stable ok frames (kept _ rfl)
  | insertCasNext => exact Building.stable ok frames (kept _ rfl)
  | freeNode => exact Inserting.stable ok frames
  | storePrev =>
      refine ⟨ok.1, frames.stays _ ok.2.1, frames.stays _ ok.2.2.1, ?_⟩
      rw [frames.keys _ ok.2.1, frames.keys _ ok.2.2.1]
      exact ok.2.2.2
  | returned result =>
      refine ⟨ok.1, ok.2.imp_right fun set => ⟨frames.stays _ set.1, ?_⟩⟩
      rw [frames.keys _ set.1]
      exact set.2
  | readPrev | removeVal | removeKey | removeNext | removeTest | newMarker | markerVal | markerCas
    | reloadNext | prevNext | prevKey | prevPrev | ptrNext | removeCas => exact ok.elim

end Stable

section Turns

variable {head : Nat} {nodes : Nodes} {linked : List Nat} {keys : Finset Nat} {op : Operation}

theorem judged_turn {nodeVal : Nat} (present : op.key ∈ keys ↔ nodeVal ≠ 0) :
    SilentTurn keySet keys (.pending op) keys (judged op nodeVal) := by
  obtain ⟨optype, key, val⟩ := op
  by_cases null : nodeVal = 0
  · have absent : key ∉ keys := fun member => present.mp member null
    cases optype <;> simp [SilentTurn, judged, keySet, null, absent]
  · have member : key ∈ keys := present.mpr null
    cases optype <;> simp [SilentTurn, judged, keySet, null, member]

theorem passed_turn (absent : op.key ∉ keys) :
    SilentTurn keySet keys (.pending op) keys (passed op) := by
  obtain ⟨optype, key, val⟩ := op
  have notIn : key ∉ keys := absent
  cases optype <;> simp [SilentTurn, passed, keySet, notIn]

theorem delete_turn (isDelete : op.optype = .delete) (present : op.key ∈ keys) :
    SilentTurn keySet keys (.pending op) (keys.erase op.key) (.finished 1) :=
  .inr ⟨op, rfl, by simp [keySet, isDelete, present], by simp [keySet, isDelete, present]⟩

theorem delete_null_turn (isDelete : op.optype = .delete) (absent : op.key ∉ keys) :
    SilentTurn keySet keys (.pending op) keys (.finished 0) :=
  .inr ⟨op, rfl, by simp [keySet, isDelete, absent], by simp [keySet, isDelete, absent]⟩

theorem insert_turn (isInsert : op.optype = .insert) (absent : op.key ∉ keys) :
    SilentTurn keySet keys (.pending op) (insert op.key keys) (.finished 1) :=
  .inr ⟨op, rfl, by simp [keySet, isInsert, absent], by simp [keySet, isInsert, absent]⟩

end Turns

end Hosk
