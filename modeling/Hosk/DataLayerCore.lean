import Mathlib.Data.Finset.Basic
import Hosk.Linearizability
import Hosk.Store

/-!
The data layer: `sl_traverse_data` with `sl_finish_contains`, `sl_finish_delete`,
`sl_finish_insert` and `node_remove`, cut into single loads, stores and compare-and-swaps. NULL
is 0. A step gives `none` where the source would read or write through an address that holds no
node. The assertions of the source are left out: they only read (`assert(node->next != node)`).
-/

namespace Hosk

structure Node where
  prev : Nat
  next : Nat
  val : Nat
  key : Nat
  level : Nat
  deriving DecidableEq, Repr

inductive OpType where
  | contains
  | delete
  | insert
  deriving DecidableEq, Repr

structure Operation where
  optype : OpType
  key : Nat
  val : Nat
  deriving DecidableEq, Repr

-- the stores of node_new, in program order after malloc
inductive NewPc where
  | malloc
  | key
  | val
  | prev
  | next
  | level
  deriving DecidableEq, Repr

-- the next access to shared memory
inductive Pc where
  | readVal
  | readPrev
  | readNext
  | readNextVal
  | readNextKey
  | containsKey
  | deleteKey
  | deleteVal
  | deleteCas
  | insertKey
  | insertCasVal
  | newNode (stage : NewPc)
  | insertCasNext
  | storePrev
  | freeNode
  | removeVal
  | removeKey
  | removeNext
  | removeTest
  | newMarker (stage : NewPc)
  | markerVal
  | markerCas
  | reloadNext
  | prevNext
  | prevKey
  | prevPrev
  | ptrNext
  | removeCas (after : Nat)
  | returned (result : Nat)
  deriving DecidableEq, Repr

/-- The local variables of one `sl_traverse_data`, of its `sl_finish_insert` (`newNode`) and of
its `node_remove` (`ptr` and `marker`, the source's `insert`). -/
structure Frame where
  op : Operation
  node : Nat
  nodeVal : Nat
  next : Nat
  nextVal : Nat
  newNode : Nat
  ptr : Nat
  marker : Nat
  pnode : Nat
  deriving DecidableEq, Repr

abbrev Nodes := Store Node

structure Local where
  pc : Pc
  frame : Frame
  deriving DecidableEq, Repr

def finishPc : OpType → Pc
  | .contains => .containsKey
  | .delete => .deleteKey
  | .insert => .insertKey

def newStep (nodes : Nodes) (address : Nat) (content : Node) :
    NewPc → Option (Nodes × Option NewPc)
  | .malloc => none
  | .key => do
      let node ← Store.get nodes address
      some (Store.set nodes address { node with key := content.key }, some .val)
  | .val => do
      let node ← Store.get nodes address
      some (Store.set nodes address { node with val := content.val }, some .prev)
  | .prev => do
      let node ← Store.get nodes address
      some (Store.set nodes address { node with prev := content.prev }, some .next)
  | .next => do
      let node ← Store.get nodes address
      some (Store.set nodes address { node with next := content.next }, some .level)
  | .level => do
      let node ← Store.get nodes address
      some (Store.set nodes address { node with level := content.level }, none)

-- malloc's block: any address, any content
structure Malloc where
  address : Nat
  content : Node
  deriving DecidableEq, Repr

def dataStep (malloc : Malloc) (nodes : Nodes) (state : Local) : Option (Nodes × Local) :=
  let f := state.frame
  match state.pc with
  -- sl_traverse_data
  | .readVal => do
      let node ← Store.get nodes f.node
      let pc := if f.node = node.val then Pc.readPrev else Pc.readNext
      some (nodes, ⟨pc, { f with nodeVal := node.val }⟩)
  | .readPrev => do
      let node ← Store.get nodes f.node
      some (nodes, ⟨.readVal, { f with node := node.prev }⟩)
  | .readNext => do
      let node ← Store.get nodes f.node
      let pc := if node.next ≠ 0 then Pc.readNextVal else finishPc f.op.optype
      some (nodes, ⟨pc, { f with next := node.next }⟩)
  | .readNextVal => do
      let next ← Store.get nodes f.next
      let pc := if next.val = f.next then Pc.removeVal else Pc.readNextKey
      some (nodes, ⟨pc, { f with nextVal := next.val }⟩)
  | .readNextKey => do
      let next ← Store.get nodes f.next
      if f.op.key < next.key then some (nodes, ⟨finishPc f.op.optype, f⟩)
      else some (nodes, ⟨.readVal, { f with node := f.next }⟩)
  -- sl_finish_contains
  | .containsKey => do
      let node ← Store.get nodes f.node
      some (nodes, ⟨.returned (if f.op.key = node.key ∧ f.nodeVal ≠ 0 then 1 else 0), f⟩)
  -- sl_finish_delete
  | .deleteKey => do
      let node ← Store.get nodes f.node
      if node.key ≠ f.op.key then some (nodes, ⟨.returned 0, f⟩)
      else if f.nodeVal ≠ 0 then some (nodes, ⟨.deleteVal, f⟩)
      else some (nodes, ⟨.returned 0, f⟩)
  | .deleteVal => do
      let node ← Store.get nodes f.node
      let pc := if node.val = 0 ∨ f.node = node.val then Pc.returned 0 else Pc.deleteCas
      some (nodes, ⟨pc, { f with nodeVal := node.val }⟩)
  | .deleteCas => do
      let node ← Store.get nodes f.node
      if node.val = f.nodeVal then
        some (Store.set nodes f.node { node with val := 0 }, ⟨.returned 1, f⟩)
      else some (nodes, ⟨.deleteVal, f⟩)
  -- sl_finish_insert; a result of -1 goes round the traversal loop again
  | .insertKey => do
      let node ← Store.get nodes f.node
      if node.key = f.op.key then
        some (nodes, ⟨if f.nodeVal = 0 then .insertCasVal else .returned 0, f⟩)
      else some (nodes, ⟨.newNode .malloc, f⟩)
  | .insertCasVal => do
      let node ← Store.get nodes f.node
      if node.val = f.nodeVal then
        some (Store.set nodes f.node { node with val := f.op.val },
          ⟨.returned 1, { f with pnode := f.node }⟩)
      else some (nodes, ⟨.readVal, f⟩)
  | .newNode .malloc =>
      some (Store.set nodes malloc.address malloc.content,
        ⟨.newNode .key, { f with newNode := malloc.address }⟩)
  | .newNode stage => do
      let (stored, later) ← newStep nodes f.newNode ⟨f.node, f.next, f.op.val, f.op.key, 0⟩ stage
      some (stored, ⟨later.elim .insertCasNext .newNode, f⟩)
  | .insertCasNext => do
      let node ← Store.get nodes f.node
      if node.next = f.next then
        let linked := Store.set nodes f.node { node with next := f.newNode }
        if f.next ≠ 0 then some (linked, ⟨.storePrev, f⟩)
        else some (linked, ⟨.returned 1, { f with pnode := f.newNode }⟩)
      else some (nodes, ⟨.freeNode, f⟩)
  | .storePrev => do
      let next ← Store.get nodes f.next
      some (Store.set nodes f.next { next with prev := f.newNode },
        ⟨.returned 1, { f with pnode := f.newNode }⟩)
  | .freeNode => some (Store.erase nodes f.newNode, ⟨.readVal, f⟩)
  -- node_remove(node, next); every return goes round the traversal loop again
  | .removeVal => do
      let next ← Store.get nodes f.next
      some (nodes, ⟨if next.val ≠ f.next then .readVal else .removeKey, f⟩)
  | .removeKey => do
      let next ← Store.get nodes f.next
      some (nodes, ⟨if next.key = 0 then .readVal else .removeNext, f⟩)
  | .removeNext => do
      let next ← Store.get nodes f.next
      some (nodes, ⟨.removeTest, { f with ptr := next.next }⟩)
  | .removeTest =>
      if f.ptr = 0 then some (nodes, ⟨.newMarker .malloc, f⟩)
      else do
        let ptr ← Store.get nodes f.ptr
        some (nodes, ⟨if ptr.key ≠ 0 then .newMarker .malloc else .prevNext, f⟩)
  | .newMarker .malloc =>
      some (Store.set nodes malloc.address malloc.content,
        ⟨.newMarker .key, { f with marker := malloc.address }⟩)
  | .newMarker stage => do
      let (stored, later) ← newStep nodes f.marker ⟨f.next, f.ptr, 0, 0, 0⟩ stage
      some (stored, ⟨later.elim .markerVal .newMarker, f⟩)
  | .markerVal => do
      let marker ← Store.get nodes f.marker
      some (Store.set nodes f.marker { marker with val := f.marker }, ⟨.markerCas, f⟩)
  | .markerCas => do
      let next ← Store.get nodes f.next
      if next.next = f.ptr then
        some (Store.set nodes f.next { next with next := f.marker }, ⟨.reloadNext, f⟩)
      else some (nodes, ⟨.reloadNext, f⟩)
  | .reloadNext => do
      let next ← Store.get nodes f.next
      some (nodes, ⟨.removeTest, { f with ptr := next.next }⟩)
  | .prevNext => do
      let node ← Store.get nodes f.node
      some (nodes, ⟨if node.next ≠ f.next then .readVal else .prevKey, f⟩)
  | .prevKey => do
      let node ← Store.get nodes f.node
      some (nodes, ⟨if node.key = 0 then .prevPrev else .ptrNext, f⟩)
  | .prevPrev => do
      let node ← Store.get nodes f.node
      some (nodes, ⟨if node.prev ≠ 0 then .readVal else .ptrNext, f⟩)
  | .ptrNext => do
      let ptr ← Store.get nodes f.ptr
      some (nodes, ⟨.removeCas ptr.next, f⟩)
  | .removeCas after => do
      let node ← Store.get nodes f.node
      if node.next = f.next then
        some (Store.set nodes f.node { node with next := after }, ⟨.readVal, f⟩)
      else some (nodes, ⟨.readVal, f⟩)
  | .returned _ => none

def slTraverseData (entry : Nat) (op : Operation) : Local :=
  ⟨.readVal, ⟨op, entry, 0, 0, 0, 0, 0, 0, 0⟩⟩

/-- `malloc` gives an address of no node, and no node comes to hold its own address as a value. -/
def assumed (malloc : Malloc) (nodes : Nodes) (state : Local) : Bool :=
  match state.pc with
  | .newNode .malloc =>
      malloc.address ≠ 0 && (Store.get nodes malloc.address).isNone &&
        malloc.address ≠ state.frame.op.val
  | .newMarker .malloc => malloc.address ≠ 0 && (Store.get nodes malloc.address).isNone
  | .insertCasVal => state.frame.op.val ≠ state.frame.node
  | _ => true

def onList (nodes : Nodes) : Nat → Nat → Nat → Bool
  | 0, _, _ => false
  | fuel + 1, start, target =>
      match Store.get nodes start with
      | none => false
      | some node => start ≠ 0 && (start == target || onList nodes fuel node.next target)

/-- All threads on one shared list; a thread without locals is outside `sl_traverse_data`. -/
structure DataLayer where
  nodes : Nodes
  head : Nat
  threads : Nat → Option Local

inductive DataAction where
  | call (thread : Nat) (op : Operation) (entry : Nat)
  | step (thread : Nat) (malloc : Malloc)

namespace DataLayer

def new (head : Nat) : DataLayer :=
  ⟨[(head, ⟨0, 0, 0, 0, 0⟩)], head, fun _ => none⟩

def setThread (layer : DataLayer) (thread : Nat) (state : Option Local) : DataLayer :=
  { layer with threads := Function.update layer.threads thread state }

/-- The key is at least 1, the value is not NULL, and the entry node is a node of the list at or before
the key. -/
def mayCall (layer : DataLayer) (op : Operation) (entry : Nat) : Bool :=
  1 ≤ op.key && op.val ≠ 0 && onList layer.nodes layer.nodes.length layer.head entry &&
    (Store.get layer.nodes entry).any (·.key ≤ op.key)

def takeStep (layer : DataLayer) (thread : Nat) (malloc : Malloc) (state : Local) : DataLayer :=
  if assumed malloc layer.nodes state then
    match dataStep malloc layer.nodes state with
    | some (nodes, next) => { layer with nodes := nodes }.setThread thread (some next)
    | none => layer
  else layer

-- an action that is not possible in the state leaves it as it is
def act (layer : DataLayer) : DataAction → DataLayer
  | .call thread op entry =>
      match layer.threads thread with
      | none =>
          if layer.mayCall op entry then
            layer.setThread thread (some (slTraverseData entry op))
          else layer
      | some _ => layer
  | .step thread malloc =>
      match layer.threads thread with
      | none => layer
      | some ⟨.returned _, _⟩ => layer.setThread thread none
      | some state => layer.takeStep thread malloc state

def emits (layer : DataLayer) : DataAction → List (Linearizability.Event Operation Nat)
  | .call thread op entry =>
      match layer.threads thread with
      | none => if layer.mayCall op entry then [.call thread op] else []
      | some _ => []
  | .step thread _ =>
      match layer.threads thread with
      | some ⟨.returned result, _⟩ => [.ret thread result]
      | _ => []

end DataLayer

def keySet : Linearizability.SeqObject (Finset Nat) Operation Nat where
  initial := ∅
  apply op keys :=
    match op.optype with
    | .contains => (keys, if op.key ∈ keys then 1 else 0)
    | .insert => if op.key ∈ keys then (keys, 0) else (insert op.key keys, 1)
    | .delete => if op.key ∈ keys then (keys.erase op.key, 1) else (keys, 0)

end Hosk
