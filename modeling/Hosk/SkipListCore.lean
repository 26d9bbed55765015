import Hosk.DataLayerAlone
import Hosk.IndexRuns
import Hosk.OpBufferCore

/-!
The whole skip list: the data layer that all enclaves share, their own index and intermediate layers,
and the buffer from the application of each to its helper. One action is one whole step of a thread.
A run that has come to an access through NULL, or to a loop that does not end, is `none`.
-/

namespace Hosk

structure Machine where
  platform : Nat → Platform
  head : Nat
  nonzero : head ≠ 0
  bufSize : Nat
  positive : 0 < bufSize

/-- With allocators that reuse no live block and take none for another. -/
structure Host extends Machine where
  honest : ∀ enclave, (platform enclave).Honest

instance : Coe Host Machine := ⟨Host.toMachine⟩

structure SkipList where
  nodes : Nodes
  enclaves : Nat → Option Enclave
  buffers : Nat → OpBuffer
  results : List Nat

inductive SkipListAct where
  | operate (enclave : Nat) (optype : OpType) (key : Nat) (malloc : Malloc)
  | takeJob (enclave : Nat)
  | pass (enclave : Nat)
  | reset (enclave : Nat)

namespace Enclave

def slDoOperation (malloc : Malloc) (e : Enclave) (key : Nat) (optype : OpType) :
    Option (Nodes × Nat × Nat) := do
  let node ← e.slTraverseIndex key
  traverseAlone malloc (enoughSteps e.nodes) e.nodes (slTraverseData node ⟨optype, key, key⟩)

end Enclave

namespace SkipList

def enclave (s : SkipList) (i : Nat) : Option Enclave :=
  (s.enclaves i).map fun e => { e with nodes := s.nodes }

-- a full buffer refuses the job, and it is not offered again
def operate (s : SkipList) (i : Nat) (optype : OpType) (key : Nat) (malloc : Malloc) :
    Option SkipList := do
  let e ← s.enclave i
  let (nodes, result, pnode) ← e.slDoOperation malloc key optype
  let buffer := if result ≠ 0 ∧ optype ≠ .contains then ((s.buffers i).opbufferInsert key pnode).2
    else s.buffers i
  some { s with
    nodes := nodes
    buffers := Function.update s.buffers i buffer
    results := s.results ++ [result] }

def helps (platform : Platform) (s : SkipList) (i : Nat) (call : Call) : Option SkipList := do
  let e ← s.enclave i
  let e ← e.call platform call
  some { s with nodes := e.nodes, enclaves := Function.update s.enclaves i (some e) }

def takeJob (platform : Platform) (s : SkipList) (i : Nat) : Option SkipList :=
  match (s.buffers i).opbufferRemove with
  | (none, _) => some s
  | (some op, buffer) =>
      { s with buffers := Function.update s.buffers i buffer }.helps platform i (.job ⟨op.key, op.node⟩)

def act (host : Host) (s : SkipList) : SkipListAct → Option SkipList
  | .operate i optype key malloc => s.operate i optype key malloc
  | .takeJob i => s.takeJob (host.platform i) i
  | .pass i => s.helps (host.platform i) i .pass
  | .reset i => s.helps (host.platform i) i .reset

def turn (host : Host) (state : Option SkipList) (act : SkipListAct) : Option SkipList :=
  state.bind fun s => s.act host act

/-- A key of at least 1, a `malloc` that gives an address of no node, and no node that comes to hold
its own address as its value. -/
def assumes (s : SkipList) : SkipListAct → Bool
  | .operate i optype key malloc =>
      1 ≤ key && ((s.enclave i).bind fun e => e.slTraverseIndex key).all fun node =>
        assumedAlone malloc (enoughSteps s.nodes) s.nodes (slTraverseData node ⟨optype, key, key⟩)
  | _ => true

/-- A pass that lowers the index of its enclave drops the lowest row cleanly. -/
def CleanAct (host : Host) (s : SkipList) (act : SkipListAct) : Prop :=
  ∀ i e, act = .pass i → s.enclave i = some e → e.CleanPass (host.platform i)

end SkipList

def operationOf : SkipListAct → Option Operation
  | .operate _ optype key _ => some ⟨optype, key, key⟩
  | _ => none

def operations (acts : List SkipListAct) : List Operation := acts.filterMap operationOf

namespace Host

variable (host : Host)

def start : SkipList where
  nodes := (DataLayer.new host.head).nodes
  enclaves := fun i => Enclave.threadInit (host.platform i) (DataLayer.new host.head).nodes host.head
  buffers := fun _ => OpBuffer.new host.bufSize
  results := []

def run (acts : List SkipListAct) : Option SkipList :=
  Runs.run (SkipList.turn host) (some host.start) acts

def Assumed (acts : List SkipListAct) : Prop :=
  Runs.Along (SkipList.turn host) (fun state act => state.all (·.assumes act) = true)
    (some host.start) acts

instance (acts : List SkipListAct) : Decidable (host.Assumed acts) := Runs.decidableAlong _ _ _ _

def Cleanly (acts : List SkipListAct) : Prop :=
  Runs.Along (SkipList.turn host) (fun state act => ∀ s, state = some s → s.CleanAct host act)
    (some host.start) acts

end Host

end Hosk
