import Hosk.Runs

/-!
The circular operation buffer of an enclave: whole calls of `opbuffer_insert` and
`opbuffer_remove`, and the same two functions cut into their single loads and stores.
Indices stay below `buf_size`, so the `int` arithmetic of the source is exact here.
-/

namespace Hosk

-- a node of 0 (NULL) says that the operation was a remove
@[ext] structure Op where
  key : Nat
  node : Nat
  deriving DecidableEq, Repr

structure OpBuffer where
  bufSize : Nat
  opbuffer : List Op
  appIdx : Nat
  hlpIdx : Nat
  deriving DecidableEq, Repr

namespace OpBuffer

def new (bufSize : Nat) : OpBuffer :=
  ⟨bufSize, List.replicate bufSize ⟨0, 0⟩, 0, 0⟩

def slot (buffer : OpBuffer) (index : Nat) : Op :=
  buffer.opbuffer.getD index ⟨0, 0⟩

def next (buffer : OpBuffer) (index : Nat) : Nat :=
  (index + 1) % buffer.bufSize

def setKey (buffer : OpBuffer) (index key : Nat) : OpBuffer :=
  { buffer with opbuffer := buffer.opbuffer.set index { buffer.slot index with key := key } }

def setNode (buffer : OpBuffer) (index node : Nat) : OpBuffer :=
  { buffer with opbuffer := buffer.opbuffer.set index { buffer.slot index with node := node } }

/-- `app_idx - ((hlp_idx + 1) % buf_size) <= 1`: a signed difference, not reduced. -/
def seemsEmpty (buffer : OpBuffer) (app hlp : Nat) : Prop :=
  (app : Int) - (buffer.next hlp : Int) ≤ 1

instance (buffer : OpBuffer) (app hlp : Nat) : Decidable (buffer.seemsEmpty app hlp) :=
  inferInstanceAs (Decidable (_ ≤ _))

def opbufferInsert (buffer : OpBuffer) (key node : Nat) : Bool × OpBuffer :=
  if buffer.next buffer.appIdx = buffer.hlpIdx then (false, buffer)
  else
    let stored := (buffer.setKey buffer.appIdx key).setNode buffer.appIdx node
    (true, { stored with appIdx := stored.next stored.appIdx })

def opbufferRemove (buffer : OpBuffer) : Option Op × OpBuffer :=
  if buffer.seemsEmpty buffer.appIdx buffer.hlpIdx then (none, buffer)
  else (some (buffer.slot buffer.hlpIdx), { buffer with hlpIdx := buffer.next buffer.hlpIdx })

def queued (buffer : OpBuffer) : Nat :=
  (buffer.appIdx + buffer.bufSize - buffer.hlpIdx) % buffer.bufSize

def Holds (buffer : OpBuffer) (index : Nat) : Prop :=
  (index + buffer.bufSize - buffer.hlpIdx) % buffer.bufSize < buffer.queued

end OpBuffer

-- each constructor names the next load or store of the thread
inductive InsertPc where
  | idle
  | fullApp (op : Op)
  | fullHlp (op : Op) (app : Nat)
  | keyIdx (op : Op)
  | keyStore (op : Op) (index : Nat)
  | nodeIdx (op : Op)
  | nodeStore (op : Op) (index : Nat)
  | nextIdx (op : Op)
  | nextStore (op : Op) (index : Nat)
  | returning (op : Op)
  deriving DecidableEq, Repr

inductive RemovePc where
  | idle
  | emptyApp
  | emptyHlp (app : Nat)
  | keyIdx
  | keyLoad (index : Nat)
  | nodeIdx (key : Nat)
  | nodeLoad (key index : Nat)
  | nextIdx (op : Op)
  | nextStore (op : Op) (index : Nat)
  | returning (op : Op)
  deriving DecidableEq, Repr

/-- The shared buffer and both threads. The last three fields are history: the jobs whose index
has been published, those whose insert has returned true, and those a remove has returned. -/
structure Ring where
  buffer : OpBuffer
  inserting : InsertPc
  removing : RemovePc
  published : List Op
  accepted : List Op
  returned : List Op
  deriving DecidableEq, Repr

inductive Turn where
  | app (op : Op)
  | hlp
  deriving DecidableEq, Repr

namespace Ring

def new (bufSize : Nat) : Ring :=
  ⟨OpBuffer.new bufSize, .idle, .idle, [], [], []⟩

-- one load or store of opbuffer_insert, which an idle thread calls
def appTurn (ring : Ring) (call : Op) : Ring :=
  let buffer := ring.buffer
  match ring.inserting with
  | .idle => { ring with inserting := .fullApp call }
  | .fullApp op => { ring with inserting := .fullHlp op buffer.appIdx }
  | .fullHlp op app =>
      if buffer.next app = buffer.hlpIdx then { ring with inserting := .idle }
      else { ring with inserting := .keyIdx op }
  | .keyIdx op => { ring with inserting := .keyStore op buffer.appIdx }
  | .keyStore op index =>
      { ring with buffer := buffer.setKey index op.key, inserting := .nodeIdx op }
  | .nodeIdx op => { ring with inserting := .nodeStore op buffer.appIdx }
  | .nodeStore op index =>
      { ring with buffer := buffer.setNode index op.node, inserting := .nextIdx op }
  | .nextIdx op => { ring with inserting := .nextStore op buffer.appIdx }
  | .nextStore op index =>
      { ring with
        buffer := { buffer with appIdx := buffer.next index }
        inserting := .returning op
        published := ring.published ++ [op] }
  | .returning op => { ring with inserting := .idle, accepted := ring.accepted ++ [op] }

-- one load or store of opbuffer_remove
def hlpTurn (ring : Ring) : Ring :=
  let buffer := ring.buffer
  match ring.removing with
  | .idle => { ring with removing := .emptyApp }
  | .emptyApp => { ring with removing := .emptyHlp buffer.appIdx }
  | .emptyHlp app =>
      if buffer.seemsEmpty app buffer.hlpIdx then { ring with removing := .idle }
      else { ring with removing := .keyIdx }
  | .keyIdx => { ring with removing := .keyLoad buffer.hlpIdx }
  | .keyLoad index => { ring with removing := .nodeIdx (buffer.slot index).key }
  | .nodeIdx key => { ring with removing := .nodeLoad key buffer.hlpIdx }
  | .nodeLoad key index => { ring with removing := .nextIdx ⟨key, (buffer.slot index).node⟩ }
  | .nextIdx op => { ring with removing := .nextStore op buffer.hlpIdx }
  | .nextStore op index =>
      { ring with
        buffer := { buffer with hlpIdx := buffer.next index }
        removing := .returning op }
  | .returning op => { ring with removing := .idle, returned := ring.returned ++ [op] }

def turn (ring : Ring) : Turn → Ring
  | .app op => ring.appTurn op
  | .hlp => ring.hlpTurn

def run (bufSize : Nat) (turns : List Turn) : Ring :=
  Runs.run turn (new bufSize) turns

def storesTo (ring : Ring) : Turn → Option Nat
  | .app _ =>
      match ring.inserting with
      | .keyStore _ index => some index
      | .nodeStore _ index => some index
      | _ => none
  | .hlp => none

end Ring

end Hosk
