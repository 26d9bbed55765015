import Hosk.SearchInterference
import Hosk.SkipListCore
import Hosk.StartUp

/-!
The whole program while its threads run side by side. An application thread takes single loads, stores
and compare-and-swaps in `sl_traverse_index`, `sl_traverse_data` and `opbuffer_insert`, its helper in
`opbuffer_remove`; what the helper does to the layers of its own enclave is one step for each job, pass
and reset. A run that has come to an access through NULL, or to a loop that does not end, is `none`.
-/

namespace Hosk

/-- Where an application thread is: in neither, one or the other half of `sl_do_operation`, or in
`opbuffer_insert`. -/
inductive AppPc where
  | idle
  | searching (op : Operation) (pc : SearchPc)
  | traversing (state : Local)
  | offering (op : Op)

namespace AppPc

def locals : AppPc → Option Local
  | .traversing state => some state
  | _ => none

def offered : AppPc → List Op
  | .offering op => [op]
  | _ => []

-- while(!obj->opbuffer_insert(key, pnode)), after one more load or store of the call
def offers (op : Op) : InsertPc → AppPc
  | .returning _ => .idle
  | _ => .offering op

end AppPc

/-- The last field is history: the successful updates of each application thread, with their jobs. -/
structure System where
  nodes : Nodes
  enclaves : Nat → Option Enclave
  rings : Nat → Ring
  apps : Nat → AppPc
  updates : Nat → List (Operation × Op)

inductive SystemAct where
  | call (enclave : Nat) (optype : OpType) (key : Nat)
  | app (enclave : Nat) (malloc : Malloc)
  | remove (enclave : Nat)
  | pass (enclave : Nat)
  | reset (enclave : Nat)

def SystemAct.enclave : SystemAct → Nat
  | .call i _ _ | .app i _ | .remove i | .pass i | .reset i => i

/-- The helper does what it does with an `nfree` that takes a block only for itself. -/
def Enclave.FreesGiven (platform : Platform) (e : Enclave) (call : Call) : Prop :=
  e.call platform call = e.call platform.guarded call

instance (platform : Platform) (e : Enclave) (call : Call) : Decidable (e.FreesGiven platform call) :=
  inferInstanceAs (Decidable (_ = _))

namespace System

def enclave (s : System) (i : Nat) : Option Enclave :=
  (s.enclaves i).map fun e => { e with nodes := s.nodes }

def setApp (s : System) (i : Nat) (pc : AppPc) : System :=
  { s with apps := Function.update s.apps i pc }

def setRing (s : System) (i : Nat) (ring : Ring) : System :=
  { s with rings := Function.update s.rings i ring }

section Updates

variable (s : System) (i : Nat) (pc : AppPc) (ring : Ring)

@[simp] theorem setApp_nodes : (s.setApp i pc).nodes = s.nodes := rfl

@[simp] theorem setApp_enclaves : (s.setApp i pc).enclaves = s.enclaves := rfl

@[simp] theorem setApp_rings : (s.setApp i pc).rings = s.rings := rfl

@[simp] theorem setApp_updates : (s.setApp i pc).updates = s.updates := rfl

@[simp] theorem setApp_same : (s.setApp i pc).apps i = pc := Function.update_self _ _ _

theorem setApp_other {j : Nat} (other : j ≠ i) : (s.setApp i pc).apps j = s.apps j :=
  Function.update_of_ne other _ _

@[simp] theorem setRing_nodes : (s.setRing i ring).nodes = s.nodes := rfl

@[simp] theorem setRing_enclaves : (s.setRing i ring).enclaves = s.enclaves := rfl

@[simp] theorem setRing_apps : (s.setRing i ring).apps = s.apps := rfl

@[simp] theorem setRing_updates : (s.setRing i ring).updates = s.updates := rfl

@[simp] theorem setRing_same : (s.setRing i ring).rings i = ring := Function.update_self _ _ _

theorem setRing_other {j : Nat} (other : j ≠ i) : (s.setRing i ring).rings j = s.rings j :=
  Function.update_of_ne other _ _

end Updates

def counted (s : System) (i : Nat) (optype : OpType) : Nat :=
  (s.updates i).countP fun update => update.1.optype = optype

def layer (head : Nat) (s : System) : DataLayer :=
  ⟨s.nodes, head, fun i => (s.apps i).locals⟩

-- the search begins at get_sentinel()
def call (s : System) (i : Nat) (optype : OpType) (key : Nat) : Option System :=
  match s.apps i with
  | .idle => do
      let e ← s.enclave i
      some (s.setApp i (.searching ⟨optype, key, key⟩ (.right e.sentinel)))
  | _ => some s

-- if(result && otype != CONTAINS)
def finish (s : System) (i result : Nat) (f : Frame) : System :=
  if result ≠ 0 ∧ f.op.optype ≠ .contains then
    let job : Op := ⟨f.op.key, f.pnode⟩
    { s with updates := Function.update s.updates i (s.updates i ++ [(f.op, job)]) }.setApp i
      (.offering job)
  else s.setApp i .idle

-- a refused job is offered again, as in initial_populate; application_loop ends the program there
def offer (s : System) (i : Nat) (op : Op) : System :=
  (s.setRing i ((s.rings i).appTurn op)).setApp i (.offers op (s.rings i).inserting)

/-- The next access of an application thread. A `malloc` or a value that is not assumed changes
nothing. -/
def app (s : System) (i : Nat) (malloc : Malloc) : Option System :=
  match s.apps i with
  | .idle => some s
  | .searching op (.returned node) => some (s.setApp i (.traversing (slTraverseData node op)))
  | .searching op pc => do
      let e ← s.enclave i
      let pc ← e.searchRead op.key pc
      some (s.setApp i (.searching op pc))
  | .traversing ⟨.returned result, f⟩ => some (s.finish i result f)
  | .traversing state =>
      if assumed malloc s.nodes state then do
        let (nodes, state) ← dataStep malloc s.nodes state
        some ({ s with nodes := nodes }.setApp i (.traversing state))
      else some s
  | .offering op => some (s.offer i op)

def helps (platform : Platform) (s : System) (i : Nat) (call : Call) : Option System := do
  let e ← s.enclave i
  let e ← e.call platform call
  some { s with nodes := e.nodes, enclaves := Function.update s.enclaves i (some e) }

-- while((cur_job = obj->opbuffer_remove(&cur_job))) update_intermediate_layer(obj, cur_job);
def remove (platform : Platform) (s : System) (i : Nat) : Option System :=
  let after := s.setRing i (s.rings i).hlpTurn
  match (s.rings i).removing with
  | .returning op => after.helps platform i (.job op.job)
  | _ => some after

def between (platform : Platform) (s : System) (i : Nat) (call : Call) : Option System :=
  match (s.rings i).removing with
  | .idle => s.helps platform i call
  | _ => some s

def act (machine : Machine) (s : System) : SystemAct → Option System
  | .call i optype key => s.call i optype key
  | .app i malloc => s.app i malloc
  | .remove i => s.remove (machine.platform i) i
  | .pass i => s.between (machine.platform i) i .pass
  | .reset i => s.between (machine.platform i) i .reset

def turn (machine : Machine) (state : Option System) (act : SystemAct) : Option System :=
  state.bind fun s => s.act machine act

def emits (s : System) : SystemAct → List (Linearizability.Event Operation Nat)
  | .call i optype key =>
      match s.apps i with
      | .idle => [.call i ⟨optype, key, key⟩]
      | _ => []
  | .app i _ =>
      match s.apps i with
      | .traversing ⟨.returned result, _⟩ => [.ret i result]
      | _ => []
  | _ => []

/-- No operation has the key of the sentinel. In what a helper does `nfree` takes no other block for the
one it is given. A pass that lowers its index drops the row cleanly, and takes nothing from under a search
of its own application thread; there is no such search when the index is reset. -/
def Undisturbed (machine : Machine) (s : System) : SystemAct → Prop
  | .call _ _ key => 1 ≤ key
  | .app _ _ => True
  | .remove i => ∀ e op, s.enclave i = some e → (s.rings i).removing = .returning op →
      e.FreesGiven (machine.platform i) (.job op.job)
  | .pass i => ∀ e, s.enclave i = some e → (s.rings i).removing = .idle →
      e.FreesGiven (machine.platform i) .pass ∧ e.CleanPass (machine.platform i).guarded ∧
        ∀ op pc, s.apps i = .searching op pc →
          e.PassesBy (machine.platform i).guarded pc.inodes ∧ e.SearchSpared op.key pc
  | .reset i => (∀ e, s.enclave i = some e → (s.rings i).removing = .idle →
      e.FreesGiven (machine.platform i) .reset) ∧ ∀ op pc, s.apps i ≠ .searching op pc

end System

namespace Machine

variable (machine : Machine)

def guarded : Host where
  toMachine := { machine with platform := fun enclave => (machine.platform enclave).guarded }
  honest enclave := (machine.platform enclave).guarded_honest

def startSystem : System where
  nodes := (DataLayer.new machine.head).nodes
  enclaves := fun i =>
    Enclave.threadInit (machine.platform i) (DataLayer.new machine.head).nodes machine.head
  rings := fun _ => Ring.new machine.bufSize
  apps := fun _ => .idle
  updates := fun _ => []

def runSystem (acts : List SystemAct) : Option System :=
  Runs.run (System.turn machine) (some machine.startSystem) acts

/-- From `thread_init` on. -/
def Undisturbed (acts : List SystemAct) : Prop :=
  (∀ i, machine.startSystem.enclaves i = Enclave.threadInit (machine.platform i).guarded
    (DataLayer.new machine.head).nodes machine.head) ∧
  Runs.Along (System.turn machine) (fun state act => ∀ s, state = some s → s.Undisturbed machine act)
    (some machine.startSystem) acts

def systemHistory (acts : List SystemAct) : List (Linearizability.Event Operation Nat) :=
  Linearizability.history (System.turn machine) (fun state act => state.elim [] (·.emits act))
    (some machine.startSystem) acts

end Machine

end Hosk
