import Mathlib.Logic.Function.Basic
import Hosk.Runs

/-!
The threads of the program: `main` starts, stops and joins the helper and the application thread
of each enclave through the flags of the enclave objects, and the helpers read and clear these
flags in `helper_loop`. What the threads do to the layers in between is a step of its own here.
-/

namespace Hosk

-- the next access of helper_loop, or the call that it is in
inductive HelperPc where
  | readPopulateInit
  | readReset
  | clearReset
  | resetIndex
  | readFinished
  | removeJob
  | updateIntermediate
  | drawUpdate
  | updateIndex
  | ended
  deriving DecidableEq, Repr

structure HelperThread where
  updateAll : Bool
  pc : HelperPc
  deriving DecidableEq, Repr

-- initial_populate, or application_loop at its test of the stop flag or in an operation
inductive WorkerPc where
  | populating
  | readStop
  | operating
  | ended
  deriving DecidableEq, Repr

/-- The flags of an enclave object and the threads created for it, oldest first. How many resets
were asked for and how many are done is history. -/
structure Crew where
  populateInit : Bool
  running : Bool
  finished : Bool
  resetIndex : Bool
  helpers : List HelperThread
  workers : List WorkerPc
  requests : Nat
  resets : Nat
  deleted : Bool
  deriving DecidableEq, Repr

def Crew.new : Crew := ⟨false, false, false, false, [], [], 0, 0, false⟩

/-- A call that `main` makes, or one store or thread call of the functions that it calls. -/
inductive Instr where
  | startHelper (k : Nat) (popAll : Bool)
  | setPopulateInit (k : Nat) (value : Bool)
  | setRunning (k : Nat) (value : Bool)
  | setFinished (k : Nat) (value : Bool)
  | createHelper (k : Nat)
  | stopHelper (k : Nat)
  | joinHelper (k : Nat)
  | resetIndexLayer (k : Nat)
  | createWorker (k : Nat) (worker : WorkerPc)
  | joinWorker (k : Nat)
  | storeStop
  | deleteEnclave (k : Nat)
  | free (k : Nat)
  deriving DecidableEq, Repr

structure Program where
  crews : Nat → Crew
  stop : Bool
  code : List Instr

/-- A choice is what the thread finds in its buffer, draws, or whether its keys are all in. -/
inductive ProgramAct where
  | main
  | helper (k i : Nat) (choice : Bool)
  | worker (k i : Nat) (choice : Bool)

def HelperThread.next (crew : Crew) (choice : Bool) (helper : HelperThread) : HelperThread :=
  match helper.pc with
  | .readPopulateInit => ⟨crew.populateInit, .readReset⟩
  | .readReset => { helper with pc := if crew.resetIndex then .clearReset else .readFinished }
  | .clearReset => { helper with pc := .resetIndex }
  | .resetIndex => { helper with pc := .readFinished }
  | .readFinished => { helper with pc := if crew.finished then .ended else .removeJob }
  -- while((cur_job = obj->opbuffer_remove(&cur_job)))
  | .removeJob => { helper with pc :=
      if choice then .updateIntermediate else if helper.updateAll then .updateIndex else .drawUpdate }
  | .updateIntermediate => { helper with pc := .removeJob }
  | .drawUpdate => { helper with pc := if choice then .updateIndex else .readFinished }
  | .updateIndex => { helper with pc := .readFinished }
  | .ended => helper

def WorkerPc.next (stop choice : Bool) : WorkerPc → WorkerPc
  | .populating => if choice then .ended else .populating
  | .readStop => if stop then .ended else .operating
  | .operating => .readStop
  | .ended => .ended

namespace Crew

def helperStep (crew : Crew) (i : Nat) (choice : Bool) : Crew :=
  match crew.helpers[i]? with
  | none => crew
  | some helper => { crew with
      helpers := crew.helpers.set i (helper.next crew choice)
      resetIndex := if helper.pc = .clearReset then false else crew.resetIndex
      resets := if helper.pc = .resetIndex then crew.resets + 1 else crew.resets }

def workerStep (crew : Crew) (stop : Bool) (i : Nat) (choice : Bool) : Crew :=
  match crew.workers[i]? with
  | none => crew
  | some worker => { crew with workers := crew.workers.set i (worker.next stop choice) }

end Crew

namespace Program

def setCrew (s : Program) (k : Nat) (crew : Crew) : Program :=
  { s with crews := Function.update s.crews k crew }

/-- `start_helper`, `stop_helper` and `~enclave` go on with what their tests choose, the other
calls are one access, and a join waits for the thread that was created last. -/
def mainStep (s : Program) : Program :=
  match s.code with
  | [] => s
  | .startHelper k popAll :: rest =>
      if (s.crews k).running then { s with code := rest }
      else { s with code := .setPopulateInit k popAll :: .setRunning k true ::
        .setFinished k false :: .createHelper k :: rest }
  | .setPopulateInit k value :: rest =>
      { s.setCrew k { s.crews k with populateInit := value } with code := rest }
  | .setRunning k value :: rest =>
      { s.setCrew k { s.crews k with running := value } with code := rest }
  | .setFinished k value :: rest =>
      { s.setCrew k { s.crews k with finished := value } with code := rest }
  | .createHelper k :: rest =>
      { s.setCrew k { s.crews k with
          helpers := (s.crews k).helpers ++ [⟨false, .readPopulateInit⟩] } with code := rest }
  | .stopHelper k :: rest =>
      if (s.crews k).running then
        { s with code := .setFinished k true :: .joinHelper k :: .setRunning k false :: rest }
      else { s with code := rest }
  | .joinHelper k :: rest =>
      if ∀ helper ∈ (s.crews k).helpers.getLast?, helper.pc = .ended then { s with code := rest }
      else s
  | .resetIndexLayer k :: rest =>
      { s.setCrew k { s.crews k with
          resetIndex := true, requests := (s.crews k).requests + 1 } with code := rest }
  | .createWorker k worker :: rest =>
      { s.setCrew k { s.crews k with workers := (s.crews k).workers ++ [worker] } with code := rest }
  | .joinWorker k :: rest =>
      if ∀ worker ∈ (s.crews k).workers.getLast?, worker = .ended then { s with code := rest }
      else s
  | .storeStop :: rest => { s with stop := true, code := rest }
  | .deleteEnclave k :: rest =>
      if (s.crews k).finished then { s with code := .free k :: rest }
      else { s with code :=
        .setFinished k true :: .stopHelper k :: .joinWorker k :: .free k :: rest }
  | .free k :: rest => { s.setCrew k { s.crews k with deleted := true } with code := rest }

def act (s : Program) : ProgramAct → Program
  | .main => s.mainStep
  | .helper k i choice => s.setCrew k ((s.crews k).helperStep i choice)
  | .worker k i choice => s.setCrew k ((s.crews k).workerStep s.stop i choice)

def mainCode (n : Nat) : List Instr :=
  (List.range n).flatMap (fun k => [.startHelper k true]) ++
  ((List.range n).flatMap (fun k => [.createWorker k .populating]) ++
  ((List.range n).flatMap (fun k => [.joinWorker k, .stopHelper k, .resetIndexLayer k]) ++
  ((List.range n).flatMap (fun k => [.startHelper k true]) ++
  ((List.range n).flatMap (fun k => [.stopHelper k, .startHelper k false]) ++
  ((List.range n).flatMap (fun k => [.createWorker k .readStop]) ++
  (.storeStop ::
  ((List.range n).flatMap (fun k => [.joinWorker k]) ++
  (List.range n).flatMap (fun k => [.stopHelper k, .deleteEnclave k]))))))))

def start (n : Nat) : Program := ⟨fun _ => Crew.new, false, mainCode n⟩

/-- Who runs beside whom, and what has ended by then. -/
structure KeptApart (n : Nat) (s : Program) : Prop where
  oneHelper : ∀ k, (s.crews k).helpers.countP (fun helper => helper.pc ≠ .ended) ≤ 1
  oneWorker : ∀ k, (s.crews k).workers.countP (fun worker => worker ≠ .ended) ≤ 1
  resetsAlone : ∀ k, ∀ helper ∈ (s.crews k).helpers, helper.pc = .resetIndex →
    ∀ j, ∀ worker ∈ (s.crews j).workers, worker = .ended
  paced : ∀ k, ∀ helper ∈ (s.crews k).helpers, helper.pc = .updateIndex → helper.updateAll = true →
    ∀ j, ∀ worker ∈ (s.crews j).workers, worker = .populating ∨ worker = .ended
  served : ∀ j, (.operating ∈ (s.crews j).workers) → ∀ k, (s.crews k).resets = (s.crews k).requests
  released : ∀ k, (s.crews k).deleted = true →
    (∀ helper ∈ (s.crews k).helpers, helper.pc = .ended) ∧
    ∀ worker ∈ (s.crews k).workers, worker = .ended
  done : s.code = [] → ∀ k < n, (s.crews k).deleted = true ∧ (s.crews k).resets = 1

end Program

end Hosk
