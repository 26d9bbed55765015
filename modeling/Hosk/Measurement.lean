import Mathlib.Algebra.Order.BigOperators.Group.Finset
import Mathlib.Algebra.Order.Group.Int
import Hosk.ApplicationLoop
import Hosk.SystemSize

/-!
The measured part of `main`: every application thread runs `application_loop` over the shared list while
the helpers work, and what the threads have counted says how large the set is at the end.
-/

namespace Hosk

open Linearizability

/-- The loop of each thread as its last iteration left it, and the random key of the present one. -/
structure Measurement where
  system : System
  loops : Nat → AppLoop
  keyDraws : Nat → Nat

inductive MeasurementAct where
  | turn (enclave keyDraw : Nat)
  | app (enclave : Nat) (malloc : Malloc) (unextDraw : Nat)
  | remove (enclave : Nat)
  | pass (enclave : Nat)
  | reset (enclave : Nat)

def MeasurementAct.Proper (nbThreads : Nat) : MeasurementAct → Prop
  | .turn i _ => i < nbThreads
  | .app _ _ unextDraw => Drawn unextDraw
  | _ => True

instance (nbThreads : Nat) : ∀ act : MeasurementAct, Decidable (act.Proper nbThreads)
  | .turn i _ => inferInstanceAs (Decidable (i < nbThreads))
  | .app _ _ unextDraw => inferInstanceAs (Decidable (Drawn unextDraw))
  | .remove _ | .pass _ | .reset _ => inferInstanceAs (Decidable True)

namespace Measurement

variable (params : Nat → AppParam)

/-- What the system does in an action. The type of an operation has been assigned by then. -/
def asks (m : Measurement) : MeasurementAct → SystemAct
  | .turn i keyDraw =>
      let (key, otype, _) := chooseOperation (params i) (m.loops i) keyDraw
      .call i (otype.getD .contains) key
  | .app i malloc _ => .app i malloc
  | .remove i => .remove i
  | .pass i => .pass i
  | .reset i => .reset i

/-- The loops after an action: an iteration draws its key as it begins, and when `sl_do_operation` has
returned it counts the result and decides about the next. -/
def after (m : Measurement) (system : System) : MeasurementAct → Measurement
  | .turn i keyDraw =>
      match m.system.apps i with
      | .idle => { m with system := system, keyDraws := Function.update m.keyDraws i keyDraw }
      | _ => { m with system := system }
  | .app i _ unextDraw =>
      match m.system.apps i with
      | .traversing ⟨.returned result, _⟩ =>
          { m with
            system := system
            loops := Function.update m.loops i
              (applicationTurn (params i) (m.loops i) ⟨m.keyDraws i, result, unextDraw⟩) }
      | _ => { m with system := system }
  | _ => { m with system := system }

def act (machine : Machine) (m : Measurement) (act : MeasurementAct) : Option Measurement :=
  (m.system.act machine (m.asks params act)).map fun system => m.after params system act

def turn (machine : Machine) (state : Option Measurement) (act : MeasurementAct) : Option Measurement :=
  state.bind fun m => m.act params machine act

def start (system : System) (firstDraws : Nat → Nat) : Measurement where
  system := system
  loops := fun i => applicationStart (params i) (firstDraws i)
  keyDraws := fun _ => 1

def run (machine : Machine) (system : System) (firstDraws : Nat → Nat) (acts : List MeasurementAct) :
    Option Measurement :=
  Runs.run (turn params machine) (some (start params system firstDraws)) acts

def Undisturbed (machine : Machine) (system : System) (firstDraws : Nat → Nat) (acts : List MeasurementAct) :
    Prop :=
  Runs.Along (turn params machine)
    (fun state act => ∀ m, state = some m → m.system.Undisturbed machine (m.asks params act))
    (some (start params system firstDraws)) acts

end Measurement

theorem finishPc_not_returned (optype : OpType) (result : Nat) : finishPc optype ≠ .returned result := by
  cases optype <;> exact Pc.noConfusion

theorem dataStep_answer {malloc : Malloc} {nodes nodes' : Nodes} {state : Local} {result : Nat} {f : Frame}
    (step : dataStep malloc nodes state = some (nodes', ⟨.returned result, f⟩)) : result ≤ 1 := by
  obtain ⟨pc, f⟩ := state
  have finish := finishPc_not_returned
  cases pc with
  | newNode stage | newMarker stage =>
      cases stage <;> simp [dataStep, newStep, Option.bind_eq_some_iff] at step
  | removeTest =>
      by_cases null : f.ptr = 0 <;> simp [dataStep, null, Option.bind_eq_some_iff] at step
      grind
  | returned result => exact absurd step (Option.some_ne_none _).symm
  | _ =>
      simp only [dataStep, Option.bind_eq_bind, Option.bind_eq_some_iff] at step
      grind

/-- What an access before the return of `sl_do_operation` leaves: no update counted, the same operation if
any, and a result that is 0 or 1. -/
structure System.Going (s : System) (i : Nat) (s' : System) : Prop where
  others : ∀ j, j ≠ i → s'.apps j = s.apps j
  updates : s'.updates = s.updates
  sameOp : (s'.apps i).op = none ∨ (s'.apps i).op = (s.apps i).op
  answer : ∀ result f, s'.apps i = .traversing ⟨.returned result, f⟩ → result ≤ 1

theorem System.going_setApp {s t : System} {i : Nat} {pc : AppPc} (apps : t.apps = s.apps)
    (updates : t.updates = s.updates) (sameOp : pc.op = none ∨ pc.op = (s.apps i).op)
    (answer : ∀ result f, pc = .traversing ⟨.returned result, f⟩ → result ≤ 1) :
    s.Going i (t.setApp i pc) where
  others := fun j other => (setApp_other _ i pc other).trans (congrFun apps j)
  updates := updates
  sameOp := by rwa [setApp_same]
  answer := by rwa [setApp_same]

theorem System.app_going {s s' : System} {i : Nat} {malloc : Malloc}
    (going : ∀ result f, s.apps i ≠ .traversing ⟨.returned result, f⟩) (acted : s.app i malloc = some s') :
    s.Going i s' := by
  have unchanged : s.Going i s :=
    ⟨fun _ _ => rfl, rfl, .inr rfl, fun result f running => absurd running (going result f)⟩
  cases app : s.apps i with
  | idle =>
      simp only [System.app, app] at acted
      obtain rfl := Option.some.inj acted
      exact unchanged
  | searching op pc =>
      have mine : (s.apps i).op = some op := by rw [app]; rfl
      by_cases returned : ∃ node, pc = .returned node
      · obtain ⟨node, rfl⟩ := returned
        simp only [System.app, app] at acted
        obtain rfl := Option.some.inj acted
        exact going_setApp rfl rfl (.inr mine.symm) fun result f running => by cases running
      · have reads : ∃ pc', s' = s.setApp i (.searching op pc') := by
          cases pc <;> simp_all [System.app, Option.bind_eq_some_iff] <;> grind
        obtain ⟨pc', rfl⟩ := reads
        exact going_setApp rfl rfl (.inr mine.symm) fun result f running => AppPc.noConfusion running
  | traversing state =>
      have mine : (s.apps i).op = some state.frame.op := by rw [app]; rfl
      have notYet : ∀ result, state.pc ≠ .returned result := by
        rintro result located
        obtain ⟨pc, f⟩ := state
        cases located
        exact going result f app
      have steps : s.app i malloc = if assumed malloc s.nodes state = true then
          (dataStep malloc s.nodes state).bind fun next =>
            some ({ s with nodes := next.1 }.setApp i (.traversing next.2))
          else some s := by
        obtain ⟨pc, f⟩ := state
        cases pc <;> simp_all [System.app]
      rw [steps] at acted
      split at acted
      · simp only [Option.bind_eq_some_iff, Option.some.injEq] at acted
        obtain ⟨⟨nodes', state'⟩, step, rfl⟩ := acted
        refine going_setApp rfl rfl (.inr (mine.trans (congrArg some (dataStep_sameOp step).symm)).symm) ?_
        intro result f running
        cases running
        exact dataStep_answer step
      · obtain rfl := Option.some.inj acted
        exact unchanged
  | offering op =>
      simp only [System.app, app, offer] at acted
      obtain rfl := Option.some.inj acted
      have outside : (AppPc.offers op (s.rings i).inserting).op = none ∧ ∀ state,
          AppPc.offers op (s.rings i).inserting ≠ .traversing state := by
        cases (s.rings i).inserting <;> exact ⟨rfl, fun _ => AppPc.noConfusion⟩
      exact going_setApp rfl rfl (.inl outside.1) fun result f running =>
        absurd running (outside.2 _)

theorem System.finish_thread (s : System) (i result : Nat) (f : Frame) :
    (∀ j, j ≠ i → (s.finish i result f).apps j = s.apps j ∧ (s.finish i result f).updates j = s.updates j) ∧
      ((s.finish i result f).apps i).op = none ∧ (∀ state, (s.finish i result f).apps i ≠ .traversing state) ∧
      (s.finish i result f).updates i = if result ≠ 0 ∧ f.op.optype ≠ .contains then
        s.updates i ++ [(f.op, Op.mk f.op.key f.pnode)] else s.updates i := by
  unfold System.finish
  split
  · simp only [setApp_same, setApp_updates, Function.update_self]
    exact ⟨fun j other => ⟨setApp_other _ i _ other, Function.update_of_ne other _ _⟩, rfl,
      fun _ => AppPc.noConfusion, trivial⟩
  · rw [setApp_same]
    exact ⟨fun j other => ⟨setApp_other _ i _ other, rfl⟩, rfl, fun _ => AppPc.noConfusion, rfl⟩

theorem System.helps_threads {platform : Platform} {s s' : System} {i : Nat} {call : Call}
    (helped : s.helps platform i call = some s') : s'.apps = s.apps ∧ s'.updates = s.updates := by
  obtain ⟨_, _, helped⟩ := Option.bind_eq_some_iff.mp helped
  obtain ⟨_, _, helped⟩ := Option.bind_eq_some_iff.mp helped
  obtain rfl := Option.some.inj helped
  exact ⟨rfl, rfl⟩

theorem System.remove_threads {platform : Platform} {s s' : System} {i : Nat}
    (removed : s.remove platform i = some s') : s'.apps = s.apps ∧ s'.updates = s.updates := by
  simp only [System.remove] at removed
  split at removed
  · exact System.helps_threads (s := s.setRing i _) removed
  · obtain rfl := Option.some.inj removed
    exact ⟨rfl, rfl⟩

theorem System.between_threads {platform : Platform} {s s' : System} {i : Nat} {call : Call}
    (calls : s.between platform i call = some s') : s'.apps = s.apps ∧ s'.updates = s.updates := by
  simp only [System.between] at calls
  split at calls
  · exact System.helps_threads calls
  · obtain rfl := Option.some.inj calls
    exact ⟨rfl, rfl⟩

/-- No more removed than added, and less while an alternating thread keeps a key to remove. -/
structure AppLoop.Ok (params : AppParam) (state : AppLoop) : Prop where
  fewer : state.results.removed ≤ state.results.added
  assigned : state.otype = none → state.last < 0
  inserts : params.alternate = false → state.otype ≠ some .delete
  kept : params.alternate = true → params.update ≠ 0 → 0 ≤ state.last →
    state.results.removed < state.results.added
  reads : params.update = 0 → state.unext = false

section Loop

variable {params : AppParam} {state : AppLoop}

theorem AppLoop.Ok.start {firstDraw : Nat} (drawn : Drawn firstDraw) :
    (applicationStart params firstDraw).Ok params := by
  obtain ⟨positive, _⟩ := drawn
  refine ⟨Nat.le_refl 0, fun _ => Int.negSucc_lt_zero 0, fun _ => (Option.some_ne_none _).symm, ?_, ?_⟩
  · exact fun _ _ wrong => absurd (Int.negSucc_lt_zero 0) (Int.not_lt.mpr wrong)
  · intro never
    simp [applicationStart, never]
    omega

theorem AppLoop.Ok.chosen (ok : state.Ok params) (draw : Nat) : ∃ key optype last,
    chooseOperation params state draw = (key, some optype, last) := by
  rw [chooseOperation]
  split
  · split
    · exact ⟨_, _, _, rfl⟩
    · split
      · exact ⟨_, _, _, rfl⟩
      · rename_i notNegative _
        obtain ⟨optype, assigned⟩ := Option.ne_none_iff_exists'.mp (mt ok.assigned notNegative)
        rw [assigned]
        exact ⟨_, _, _, rfl⟩
  · split
    · split
      · split <;> exact ⟨_, _, _, rfl⟩
      · split <;> exact ⟨_, _, _, rfl⟩
    · exact ⟨_, _, _, rfl⟩

theorem chosen_reads (params : AppParam) (isRead : state.unext = false) (draw : Nat) : ∃ key last,
    chooseOperation params state draw = (key, some .contains, last) ∧
      (params.update ≠ 0 → last = state.last) := by
  rw [chooseOperation, isRead, if_neg Bool.false_ne_true]
  split
  · split
    · rename_i never
      split <;> exact ⟨_, _, rfl, fun updates => absurd never updates⟩
    · split <;> exact ⟨_, _, rfl, fun _ => rfl⟩
  · exact ⟨_, _, rfl, fun _ => rfl⟩

section Turn

variable {turn : AppTurn} {key : Nat} {last : Int}

theorem AppLoop.Ok.typed {optype : OpType} {results : AppRes} (drawn : Drawn turn.unextDraw)
    (fewer : results.removed ≤ results.added) (inserts : params.alternate = false → optype ≠ .delete)
    (kept : params.alternate = true → params.update ≠ 0 → 0 ≤ last → results.removed < results.added) :
    AppLoop.Ok params ⟨getUnext params results turn.unextDraw, last, some optype, results⟩ where
  fewer := fewer
  assigned := fun none => absurd none (Option.some_ne_none optype)
  inserts := fun mode same => inserts mode (Option.some.inj same)
  kept := kept
  reads := fun never => getUnext_never never results drawn

theorem AppLoop.Ok.turn_reads (ok : state.Ok params) (drawn : Drawn turn.unextDraw)
    (chosen : chooseOperation params state turn.keyDraw = (key, some .contains, last))
    (sameLast : params.update ≠ 0 → last = state.last) : (applicationTurn params state turn).Ok params := by
  simp only [applicationTurn, chosen, updateResults]
  refine .typed drawn ok.fewer (fun _ => by decide) fun mode updates keeps => ?_
  exact ok.kept mode updates (sameLast updates ▸ keeps)

theorem AppLoop.Ok.turn_inserts (ok : state.Ok params) (drawn : Drawn turn.unextDraw)
    (chosen : chooseOperation params state turn.keyDraw = (key, some .insert, state.last))
    (noneKept : params.alternate = true → state.last < 0) :
    (applicationTurn params state turn).Ok params := by
  have fewer := ok.fewer
  by_cases success : turn.result = 1
  · simp only [applicationTurn, chosen, updateResults, if_pos success]
    exact .typed drawn (Nat.le_succ_of_le fewer) (fun _ => by decide) fun _ _ _ => Nat.lt_succ_of_le fewer
  · simp only [applicationTurn, chosen, updateResults, if_neg success]
    refine .typed drawn fewer (fun _ => by decide) fun mode _ keeps => ?_
    exact absurd (noneKept mode) (Int.not_lt.mpr keeps)

/-- A delete has an insert of the same thread before it. -/
theorem AppLoop.Ok.turn_deletes (ok : state.Ok params) (drawn : Drawn turn.unextDraw)
    (chosen : chooseOperation params state turn.keyDraw = (key, some .delete, state.last))
    (mode : params.alternate = true) (one : state.results.removed < state.results.added) :
    (applicationTurn params state turn).Ok params := by
  have noKey : ∀ n m : Nat, (0 : Int) ≤ -1 → n < m := fun _ _ wrong => absurd wrong (by decide)
  have alternates : params.alternate = false → OpType.delete ≠ .delete :=
    fun stays => Bool.noConfusion (mode.symm.trans stays)
  by_cases success : turn.result = 1
  · simp only [applicationTurn, chosen, updateResults, if_pos success]
    exact .typed drawn one alternates fun _ _ => noKey _ _
  · simp only [applicationTurn, chosen, updateResults, if_neg success, mode, if_true]
    exact .typed drawn ok.fewer alternates fun _ _ => noKey _ _

end Turn

theorem AppLoop.Ok.turn (ok : state.Ok params) (turn : AppTurn) (drawn : Drawn turn.unextDraw) :
    (applicationTurn params state turn).Ok params := by
  cases isUpdate : state.unext with
  | false =>
      obtain ⟨key, last, chosen, sameLast⟩ := chosen_reads params isUpdate turn.keyDraw
      exact ok.turn_reads drawn chosen sameLast
  | true =>
      have updates : params.update ≠ 0 :=
        fun never => Bool.noConfusion (isUpdate.symm.trans (ok.reads never))
      by_cases noneKept : state.last < 0
      · have chosen : chooseOperation params state turn.keyDraw =
            (asUint turn.keyDraw, some .insert, state.last) := by
          rw [chooseOperation, if_pos isUpdate, if_pos noneKept]
        exact ok.turn_inserts drawn chosen fun _ => noneKept
      · cases mode : params.alternate with
        | true =>
            have chosen : chooseOperation params state turn.keyDraw =
                (asUint state.last, some .delete, state.last) := by
              rw [chooseOperation, if_pos isUpdate, if_neg noneKept, if_pos mode]
            exact ok.turn_deletes drawn chosen mode (ok.kept mode updates (Int.not_lt.mp noneKept))
        | false =>
            -- the type of the operation before, which is never a delete
            have chosen : chooseOperation params state turn.keyDraw =
                (asUint turn.keyDraw, state.otype, state.last) := by
              rw [chooseOperation, if_pos isUpdate, if_neg noneKept, mode, if_neg Bool.false_ne_true]
            have noDelete := ok.inserts mode
            cases otype : state.otype with
            | none => exact absurd (ok.assigned otype) noneKept
            | some optype =>
                rw [otype] at chosen noDelete
                cases optype with
                | delete => exact absurd rfl noDelete
                | contains => exact ok.turn_reads drawn chosen fun _ => rfl
                | insert =>
                    exact ok.turn_inserts drawn chosen fun alternates =>
                      Bool.noConfusion (mode.symm.trans alternates)

end Loop

namespace Measurement

def times (optype : OpType) (updates : List (Operation × Op)) : Nat :=
  updates.countP fun update => update.1.optype = optype

theorem times_append (optype : OpType) (updates : List (Operation × Op)) (op : Operation) (job : Op) :
    times optype (updates ++ [(op, job)]) = times optype updates + if op.optype = optype then 1 else 0 := by
  simp [times, List.countP_append, List.countP_singleton]

structure Counts (params : AppParam) (before : List (Operation × Op)) (loop : AppLoop) (keyDraw : Nat)
    (app : AppPc) (updates : List (Operation × Op)) : Prop where
  sound : loop.Ok params
  op : ∀ op, app.op = some op → ∃ last, chooseOperation params loop keyDraw = (op.key, some op.optype, last)
  answer : ∀ result f, app = .traversing ⟨.returned result, f⟩ → result ≤ 1
  added : times .insert before + loop.results.added = times .insert updates
  removed : times .delete before + loop.results.removed = times .delete updates

section Thread

variable {params : AppParam} {before updates : List (Operation × Op)} {loop : AppLoop} {keyDraw : Nat}
  {app : AppPc}

theorem Counts.goes (counts : Counts params before loop keyDraw app updates) {app' : AppPc}
    (sameOp : app'.op = none ∨ app'.op = app.op)
    (answer : ∀ result f, app' = .traversing ⟨.returned result, f⟩ → result ≤ 1) :
    Counts params before loop keyDraw app' updates := by
  refine ⟨counts.sound, fun op isOp => ?_, answer, counts.added, counts.removed⟩
  rcases sameOp with none | same
  · exact absurd (none.symm.trans isOp) (Option.some_ne_none op).symm
  · exact counts.op op (same.symm.trans isOp)

theorem Counts.begin {draw key : Nat} {optype : OpType} {last : Int}
    (counts : Counts params before loop keyDraw app updates)
    (chosen : chooseOperation params loop draw = (key, some optype, last)) {app' : AppPc}
    (isOp : ∀ op, app'.op = some op → op = ⟨optype, key, key⟩) (outside : ∀ state, app' ≠ .traversing state) :
    Counts params before loop draw app' updates := by
  refine ⟨counts.sound, fun op mine => ?_, fun _ _ running => absurd running (outside _), counts.added,
    counts.removed⟩
  rw [isOp op mine]
  exact ⟨last, chosen⟩

theorem Counts.finish {result unextDraw : Nat} {f : Frame} {job : Op}
    (counts : Counts params before loop keyDraw (.traversing ⟨.returned result, f⟩) updates)
    (drawn : Drawn unextDraw) {app' : AppPc} (noOp : app'.op = none)
    (outside : ∀ state, app' ≠ .traversing state) :
    Counts params before (applicationTurn params loop ⟨keyDraw, result, unextDraw⟩) keyDraw app'
      (if result ≠ 0 ∧ f.op.optype ≠ .contains then updates ++ [(f.op, job)] else updates) := by
  obtain ⟨last, chosen⟩ := counts.op f.op rfl
  have answer := counts.answer result f rfl
  have both : ∀ optype, times optype (if result ≠ 0 ∧ f.op.optype ≠ .contains then updates ++ [(f.op, job)]
      else updates) = times optype updates +
        if result ≠ 0 ∧ f.op.optype ≠ .contains ∧ f.op.optype = optype then 1 else 0 := by
    intro optype
    by_cases updated : result ≠ 0 ∧ f.op.optype ≠ .contains
    · rw [if_pos updated, times_append]
      simp [updated.1, updated.2]
    · rw [if_neg updated, if_neg fun wrong => updated ⟨wrong.1, wrong.2.1⟩]
      rfl
  have bit : result = 0 ∨ result = 1 := by omega
  refine ⟨counts.sound.turn _ drawn, fun op isOp => ?_, fun _ _ running => absurd running (outside _), ?_, ?_⟩
  · exact absurd (noOp.symm.trans isOp) (Option.some_ne_none op).symm
  · rw [both, ← counts.added, applicationTurn, chosen]
    rcases bit with rfl | rfl <;> cases f.op.optype <;> simp [updateResults, Nat.add_assoc]
  · rw [both, ← counts.removed, applicationTurn, chosen]
    rcases bit with rfl | rfl <;> cases f.op.optype <;> simp [updateResults, Nat.add_assoc]

end Thread

/-- Every thread has counted what it has done since the state before. -/
def Agree (params : Nat → AppParam) (before : System) (m : Measurement) : Prop :=
  ∀ i, Counts (params i) (before.updates i) (m.loops i) (m.keyDraws i) (m.system.apps i) (m.system.updates i)

section Step

variable {params : Nat → AppParam} {machine : Machine} {before system : System} {m : Measurement}
  {nbThreads i : Nat}

/-- An action of one thread leaves the others as they are. -/
theorem Agree.one {m' : Measurement} (agree : Agree params before m)
    (others : ∀ j, j ≠ i → m'.loops j = m.loops j ∧ m'.keyDraws j = m.keyDraws j ∧
      m'.system.apps j = m.system.apps j ∧ m'.system.updates j = m.system.updates j)
    (mine : Counts (params i) (before.updates i) (m'.loops i) (m'.keyDraws i) (m'.system.apps i)
      (m'.system.updates i)) : Agree params before m' := by
  intro j
  by_cases same : j = i
  · rw [same]
    exact mine
  · obtain ⟨loops, keyDraws, apps, updates⟩ := others j same
    rw [loops, keyDraws, apps, updates]
    exact agree j

theorem Agree.turn {keyDraw : Nat} (agree : Agree params before m)
    (acted : m.system.act machine (m.asks params (.turn i keyDraw)) = some system) :
    Agree params before (m.after params system (.turn i keyDraw)) := by
  obtain ⟨key, optype, last, chosen⟩ := (agree i).sound.chosen keyDraw
  simp only [asks, chosen, Option.getD_some, System.act] at acted
  cases app : m.system.apps i with
  | idle =>
      have begun : system.updates = m.system.updates ∧ (∀ j, j ≠ i → system.apps j = m.system.apps j) ∧
          (∀ op, (system.apps i).op = some op → op = ⟨optype, key, key⟩) ∧
            ∀ state, system.apps i ≠ .traversing state := by
        simp only [System.call, app] at acted
        obtain ⟨e, _, isSystem⟩ := Option.bind_eq_some_iff.mp acted
        obtain rfl := Option.some.inj isSystem
        rw [System.setApp_same]
        exact ⟨rfl, fun j other => System.setApp_other _ i _ other,
          fun op isOp => (Option.some.inj isOp).symm, fun _ => AppPc.noConfusion⟩
      obtain ⟨updates, others, isOp, outside⟩ := begun
      simp only [after, app]
      refine agree.one (i := i) (fun j other => ?_) ?_
      · exact ⟨rfl, Function.update_of_ne other _ _, others j other, congrFun updates j⟩
      · show Counts _ _ (m.loops i) (Function.update m.keyDraws i keyDraw i) (system.apps i)
          (system.updates i)
        rw [Function.update_self, updates]
        exact (agree i).begin chosen isOp outside
  | searching _ _ | traversing _ | offering _ =>
      simp only [System.call, app] at acted
      obtain rfl := Option.some.inj acted
      simp only [after, app]
      exact agree

theorem Agree.app {malloc : Malloc} {unextDraw : Nat} (agree : Agree params before m)
    (drawn : Drawn unextDraw) (acted : m.system.app i malloc = some system) :
    Agree params before (m.after params system (.app i malloc unextDraw)) := by
  by_cases returned : ∃ result f, m.system.apps i = .traversing ⟨.returned result, f⟩
  · obtain ⟨result, f, app⟩ := returned
    simp only [System.app, app] at acted
    obtain rfl := Option.some.inj acted
    have mine := agree i
    rw [app] at mine
    simp only [after, app]
    obtain ⟨others, noOp, outside, updates⟩ := m.system.finish_thread i result f
    refine agree.one (i := i) (fun j other => ?_) ?_
    · exact ⟨Function.update_of_ne other _ _, rfl, (others j other).1, (others j other).2⟩
    · show Counts _ _ (Function.update m.loops i _ i) (m.keyDraws i) ((m.system.finish i result f).apps i)
        ((m.system.finish i result f).updates i)
      rw [Function.update_self, updates]
      exact mine.finish drawn noOp outside
  · have going : ∀ result f, m.system.apps i ≠ .traversing ⟨.returned result, f⟩ :=
      fun result f running => returned ⟨result, f, running⟩
    obtain ⟨others, updates, sameOp, answer⟩ := System.app_going going acted
    have quiet : m.after params system (.app i malloc unextDraw) = { m with system := system } := by
      simp only [after]
    rw [quiet]
    refine agree.one (i := i) (fun j other => ⟨rfl, rfl, others j other, congrFun updates j⟩) ?_
    show Counts _ _ (m.loops i) (m.keyDraws i) (system.apps i) (system.updates i)
    rw [updates]
    exact (agree i).goes sameOp answer

theorem Agree.helper (agree : Agree params before m)
    (same : system.apps = m.system.apps ∧ system.updates = m.system.updates) :
    Agree params before { m with system := system } := by
  intro i
  show Counts _ _ (m.loops i) (m.keyDraws i) (system.apps i) (system.updates i)
  rw [same.1, same.2]
  exact agree i

theorem Agree.act {act : MeasurementAct} (agree : Agree params before m) (proper : act.Proper nbThreads)
    (acted : m.system.act machine (m.asks params act) = some system) :
    Agree params before (m.after params system act) := by
  cases act with
  | turn i keyDraw => exact agree.turn acted
  | app i malloc unextDraw => exact agree.app proper acted
  | remove i => exact agree.helper (System.remove_threads acted)
  | pass i | reset i => exact agree.helper (System.between_threads acted)

theorem asks_by {act : MeasurementAct} (proper : act.Proper nbThreads) :
    (m.asks params act).By (Finset.range nbThreads) := by
  cases act with
  | turn i keyDraw => exact Finset.mem_range.mpr proper
  | app _ _ _ | remove _ | pass _ | reset _ => trivial

theorem after_system (params : Nat → AppParam) (m : Measurement) (system : System) (act : MeasurementAct) :
    (m.after params system act).system = system := by
  cases act with
  | turn i keyDraw =>
      rw [after]
      split <;> rfl
  | app i malloc unextDraw =>
      rw [after]
      split <;> rfl
  | remove _ | pass _ | reset _ => rfl

theorem Agree.run (acts : List MeasurementAct) : ∀ (m : Measurement) (linked : List Nat)
    (inner : AtomicState (Finset Nat) Operation Nat), SystemOk machine m.system linked inner →
    m.system.Within (Finset.range nbThreads) → Agree params before m →
    (∀ act ∈ acts, act.Proper nbThreads) →
    Runs.Along (Measurement.turn params machine)
      (fun state act => ∀ m, state = some m → m.system.Undisturbed machine (m.asks params act)) (some m) acts →
    ∃ m' linked' inner', Runs.run (Measurement.turn params machine) (some m) acts = some m' ∧
      SystemOk machine m'.system linked' inner' ∧ m'.system.Within (Finset.range nbThreads) ∧
      Agree params before m' := by
  induction acts with
  | nil => exact fun m linked inner ok within agree _ _ => ⟨m, linked, inner, rfl, ok, within, agree⟩
  | cons act rest ih =>
      rintro m linked inner ok within agree proper ⟨now, later⟩
      have properNow := proper act List.mem_cons_self
      obtain ⟨system, linked₁, inner₁, acted, moves, _⟩ := ok.act_goes (m.asks params act) (now m rfl)
      have turned : Measurement.turn params machine (some m) act = some (m.after params system act) := by
        simp only [Measurement.turn, Option.bind_some, Measurement.act, acted, Option.map_some]
      rw [turned] at later
      have sameSystem := after_system params m system act
      have ok₁ : SystemOk machine (m.after params system act).system linked₁ inner₁ := by
        rw [sameSystem]
        exact moves.ok ok
      have within₁ : (m.after params system act).system.Within (Finset.range nbThreads) := by
        rw [sameSystem]
        exact within.act (asks_by properNow) acted
      rw [Runs.run_cons, turned]
      exact ih _ linked₁ inner₁ ok₁ within₁ (agree.act properNow acted)
        (fun other member => proper other (List.mem_cons_of_mem act member)) later

end Step

end Measurement

/-- After a population of `initial` keys, however the accesses of the application loops and their helpers fall
and whatever the threads draw: when no operation is under way the set is as large as main expects, and not
smaller than before. -/
theorem measured_size (machine : Machine) {initial nbThreads : Nat} (threads : 0 < nbThreads)
    {population : List SystemAct} {s : System} (calm : machine.Undisturbed population)
    (populates : machine.Populates initial nbThreads population) (populated : machine.runSystem population = some s)
    (joined : ∀ i < nbThreads, s.apps i = .idle ∧ numToPop initial nbThreads i ≤ (s.updates i).length)
    (params : Nat → AppParam) {firstDraws : Nat → Nat} (drawn : ∀ i, Drawn (firstDraws i))
    {acts : List MeasurementAct} (proper : ∀ act ∈ acts, act.Proper nbThreads)
    (undisturbed : Measurement.Undisturbed params machine s firstDraws acts) :
    ∃ m, Measurement.run params machine s firstDraws acts = some m ∧
      ((∀ i < nbThreads, (m.system.apps i).locals = none) →
        ∃ size, dataLayerSize m.system.nodes machine.head true = some size ∧
          (size : Int) = initial + ∑ i ∈ Finset.range nbThreads,
            ((m.loops i).results.added - (m.loops i).results.removed : Int) ∧ initial ≤ size) := by
  obtain ⟨populatedState, linked, inner, ran, ok, _⟩ :=
    SystemOk.run population machine.startSystem [machine.head] _ (SystemOk.initial machine calm.1) calm.2
  obtain rfl := Option.some.inj (ran.symm.trans populated)
  obtain ⟨populating, within⟩ := populates.populating populated
  have quiet : ∀ i, (populatedState.apps i).op = none := by
    intro i
    by_cases below : i < nbThreads
    · rw [(joined i below).1]
      rfl
    · exact (within i (Finset.mem_range.not.mpr below)).1
  have begins : Measurement.Agree params populatedState
      (Measurement.start params populatedState firstDraws) := by
    intro i
    refine ⟨.start (drawn i), fun op isOp => ?_, fun result f running => ?_, rfl, rfl⟩
    · exact absurd ((quiet i).symm.trans isOp) (Option.some_ne_none op).symm
    · exact absurd ((quiet i).symm.trans (congrArg AppPc.op running)) (Option.some_ne_none _).symm
  obtain ⟨m, linked', inner', runs, ok', within', agree⟩ :=
    Measurement.Agree.run acts _ linked inner ok within begins proper undisturbed
  refine ⟨m, runs, fun outside => ⟨_, dataLayerSize_returns ok'.layer.list ok'.positive, ?_⟩⟩
  have share : ∀ i ∈ Finset.range nbThreads, m.system.made i = (numToPop initial nbThreads i : Int) +
      ((m.loops i).results.added - (m.loops i).results.removed) := by
    intro i member
    have below := Finset.mem_range.mp member
    obtain ⟨inserted, deleted⟩ := (populating i).share below (joined i below).2
    have added := (agree i).added
    have removed := (agree i).removed
    rw [System.made_outside (outside i below)]
    unfold System.counted at *
    unfold Measurement.times at added removed
    omega
  have size := ok'.size _ within'.made
  rw [Finset.sum_congr rfl share, Finset.sum_add_distrib, ← Nat.cast_sum, sum_numToPop threads] at size
  have more : (0 : Int) ≤ ∑ i ∈ Finset.range nbThreads,
      ((m.loops i).results.added - (m.loops i).results.removed : Int) := by
    apply Finset.sum_nonneg
    intro i _
    have fewer := (agree i).sound.fewer
    omega
  exact ⟨size, by omega⟩

def bothAddSeven : List MeasurementAct :=
  let accesses (i address : Nat) : List MeasurementAct :=
    List.replicate 60 (.app i ⟨address, ⟨0, 0, 0, 0, 0⟩⟩ 1)
  .turn 0 7 :: (accesses 0 2007).take 1 ++ [.turn 1 7, .pass 0] ++ accesses 1 3007 ++ accesses 0 2007 ++
    [.turn 0 5, .turn 1 8] ++ (accesses 1 3008).take 12 ++ accesses 0 2005 ++ accesses 1 3008 ++ [.remove 1]

def everUpdating : AppParam := ⟨1, 100, true, false⟩

theorem AppPc.idle_of {app : AppPc} (noOp : app.op = none) (noJob : app.offered = []) : app = .idle := by
  cases app with
  | idle => rfl
  | searching op pc => exact absurd noOp (Option.some_ne_none op)
  | traversing state => exact absurd noOp (Option.some_ne_none _)
  | offering op => exact absurd noJob (List.cons_ne_nil op [])

-- four keys are left: 7 has been removed, 5 has been added to the three
theorem bothAddSeven_size : ∃ s m, numaMachine.runSystem sharedPopulation = some s ∧
    Measurement.run (fun _ => everUpdating) numaMachine s (fun _ => 1) bothAddSeven = some m ∧
    ∃ size, dataLayerSize m.system.nodes numaMachine.head true = some size ∧
      (size : Int) = 3 + ∑ i ∈ Finset.range 2,
        ((m.loops i).results.added - (m.loops i).results.removed : Int) ∧ 3 ≤ size := by
  obtain ⟨calm, populates⟩ := sharedPopulation_populates
  have checked : (numaMachine.runSystem sharedPopulation).all (fun s =>
      decide (∀ i < 2, (s.apps i).op.isNone ∧ (s.apps i).offered = [] ∧
        numToPop 3 2 i ≤ (s.updates i).length) &&
      decide (Runs.Along (Measurement.turn (fun _ => everUpdating) numaMachine)
        (fun state act => state.all (fun m =>
          m.system.stays numaMachine (m.asks (fun _ => everUpdating) act)) = true)
        (some (Measurement.start (fun _ => everUpdating) s fun _ => 1)) bothAddSeven) &&
      (Measurement.run (fun _ => everUpdating) numaMachine s (fun _ => 1) bothAddSeven).all fun m =>
        (m.system.apps 0).locals.isNone && (m.system.apps 1).locals.isNone) = true := by decide +kernel
  obtain ⟨s, linked, inner, ran, _⟩ :=
    SystemOk.run sharedPopulation numaMachine.startSystem [numaMachine.head] _
      (SystemOk.initial numaMachine calm.1) calm.2
  have populated : numaMachine.runSystem sharedPopulation = some s := ran
  rw [populated, Option.all_some, Bool.and_eq_true, Bool.and_eq_true, decide_eq_true_eq, decide_eq_true_eq]
    at checked
  obtain ⟨⟨joined, stays⟩, outside⟩ := checked
  have undisturbed : Measurement.Undisturbed (fun _ => everUpdating) numaMachine s (fun _ => 1)
      bothAddSeven := by
    refine Runs.Along.imp ?_ bothAddSeven stays
    rintro state act stays m rfl
    exact System.undisturbed_of_stays stays
  obtain ⟨m, runs, counted⟩ := measured_size numaMachine (by decide : 0 < 2) calm populates populated
    (fun i below => ⟨AppPc.idle_of (Option.isNone_iff_eq_none.mp (joined i below).1) (joined i below).2.1,
      (joined i below).2.2⟩)
    (fun _ => everUpdating) (fun _ => by decide) (by decide +kernel) undisturbed
  rw [runs, Option.all_some, Bool.and_eq_true, Option.isNone_iff_eq_none, Option.isNone_iff_eq_none]
    at outside
  refine ⟨s, m, populated, runs, counted fun i below => ?_⟩
  rcases Nat.le_one_iff_eq_zero_or_eq_one.mp (Nat.le_of_lt_succ below) with rfl | rfl
  · exact outside.1
  · exact outside.2

end Hosk
