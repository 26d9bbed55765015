import Hosk.Simulation
import Hosk.SkipListAnswers
import Hosk.SystemSize
import Mathlib.Tactic.IntervalCases

/-!
The skip list of whole calls beside the one of single loads and stores: whatever the first does, the
second does too, when the scheduler lets each call run to its end.
-/

namespace Hosk

open Linearizability

namespace SkipList

def accepts (s : SkipList) : SkipListAct → Bool
  | .operate i optype key malloc =>
      ((s.enclave i).bind fun e => e.slDoOperation malloc key optype).all fun (_, result, pnode) =>
        result = 0 || optype = .contains || ((s.buffers i).opbufferInsert key pnode).1
  | _ => true

def emits (s : SkipList) : SkipListAct → List (Linearizability.Event Operation Nat)
  | .operate i optype key malloc =>
      ((s.enclave i).bind fun e => e.slDoOperation malloc key optype).elim [] fun (_, result, _) =>
        [.call i ⟨optype, key, key⟩, .ret i result]
  | _ => []

/-- The same layers and buffers, and no thread inside a call. -/
structure Resembles (s : SkipList) (t : System) : Prop where
  nodes : t.nodes = s.nodes
  enclaves : t.enclaves = s.enclaves
  buffer : ∀ i, (t.rings i).buffer = s.buffers i
  inserting : ∀ i, (t.rings i).inserting = .idle
  removing : ∀ i, (t.rings i).removing = .idle
  apps : ∀ i, t.apps i = .idle

end SkipList

namespace Host

variable (host : Host)

theorem freesGiven (i : Nat) (e : Enclave) (call : Call) : e.FreesGiven (host.platform i) call := by
  rw [Enclave.FreesGiven, (host.honest i).guarded_eq]

def Accepts (acts : List SkipListAct) : Prop :=
  Runs.Along (SkipList.turn host) (fun state act => state.all (·.accepts act) = true)
    (some host.start) acts

instance (acts : List SkipListAct) : Decidable (host.Accepts acts) := Runs.decidableAlong _ _ _ _

def wholeHistory (acts : List SkipListAct) : List (Linearizability.Event Operation Nat) :=
  history (SkipList.turn host) (fun state act => state.elim [] (·.emits act)) (some host.start) acts

end Host

namespace Ring

variable {ring : Ring} {op : Op}

theorem insert_turns (idle : ring.inserting = .idle)
    (room : (ring.buffer.opbufferInsert op.key op.node).1 = true) :
    ∃ last : Ring, (Ring.appTurn · op)^[9] ring = last ∧
      last.buffer = (ring.buffer.opbufferInsert op.key op.node).2 ∧ last.inserting = .returning op ∧
      last.removing = ring.removing ∧
      ∀ fewer < 9, ∀ job, ((Ring.appTurn · op)^[fewer] ring).inserting ≠ .returning job := by
  obtain ⟨buffer, inserting, removing, published, accepted, returned⟩ := ring
  subst idle
  have hasRoom : buffer.next buffer.appIdx ≠ buffer.hlpIdx := by
    intro full
    simp [OpBuffer.opbufferInsert, full] at room
  simp only [Function.iterate_succ, Function.iterate_zero, Function.comp_apply, id, appTurn, if_neg hasRoom,
    OpBuffer.opbufferInsert]
  refine ⟨_, rfl, rfl, rfl, rfl, ?_⟩
  intro fewer less job
  interval_cases fewer <;> simp [hasRoom]

theorem remove_turns {buffer : OpBuffer} (idle : ring.removing = .idle)
    (taken : ring.buffer.opbufferRemove = (some op, buffer)) :
    ∃ last : Ring, Ring.hlpTurn^[9] ring = last ∧ last.buffer = buffer ∧ last.removing = .returning op ∧
      last.inserting = ring.inserting ∧
      ∀ fewer < 9, ∀ job, (Ring.hlpTurn^[fewer] ring).removing ≠ .returning job := by
  obtain ⟨before, inserting, removing, published, accepted, returned⟩ := ring
  subst idle
  unfold OpBuffer.opbufferRemove at taken
  split at taken
  · cases taken
  · rename_i hasJob
    obtain ⟨same, rfl⟩ := Prod.mk.inj taken
    obtain rfl := Option.some.inj same
    simp only [Function.iterate_succ, Function.iterate_zero, Function.comp_apply, id, hlpTurn, if_neg hasJob]
    refine ⟨_, rfl, rfl, rfl, rfl, ?_⟩
    intro fewer less job
    interval_cases fewer <;> simp [hlpTurn, hasJob]

end Ring

/-- Turns of the threads, undisturbed ones under the condition, with the calls and returns among them. -/
def System.Takes (host : Host) (clean : Prop) (s : System)
    (events : List (Linearizability.Event Operation Nat)) (s' : System) : Prop :=
  Shows (System.turn host) (fun state act => state.elim [] (·.emits act))
    (fun state act => clean → ∀ s, state = some s → s.Undisturbed host act) (some s) events (some s')

namespace System

variable {host : Host} {clean : Prop} {s s' last : System} {i : Nat} {malloc : Malloc}
  {events later : List (Linearizability.Event Operation Nat)}

namespace Takes

theorem refl (s : System) : s.Takes host clean [] s := Shows.refl _

theorem trans (one : s.Takes host clean events s') (other : s'.Takes host clean later last) :
    s.Takes host clean (events ++ later) last := Shows.trans one other

theorem before (one : s.Takes host clean [] s') (other : s'.Takes host clean later last) :
    s.Takes host clean later last := trans one other

theorem act (act : SystemAct) (acted : s.act host act = some s')
    (undisturbed : clean → s.Undisturbed host act) : s.Takes host clean (s.emits act) s' := by
  have now : clean → ∀ other, some s = some other → other.Undisturbed host act := by
    rintro isClean other same
    rw [← Option.some.inj same]
    exact undisturbed isClean
  have turned : System.turn host (some s) act = some s' := acted
  rw [← List.append_nil (s.emits act)]
  exact Shows.cons now (by rw [turned]; exact Shows.refl _)

theorem app (acted : s.app i malloc = some s') (shown : s.emits (.app i malloc) = events) :
    s.Takes host clean events s' :=
  shown ▸ act (.app i malloc) acted fun _ => trivial

theorem remove (acted : s.remove (host.platform i) i = some s') : s.Takes host clean [] s' :=
  act (.remove i) acted fun _ e op _ _ => host.freesGiven i e (.job op.job)

end Takes

theorem setApp_setApp (s : System) (i : Nat) (pc pc' : AppPc) :
    (s.setApp i pc).setApp i pc' = s.setApp i pc' := by
  simp [setApp]

theorem nodes_setApp (s : System) (nodes : Nodes) (i : Nat) (pc pc' : AppPc) :
    { s.setApp i pc with nodes := nodes }.setApp i pc' = { s with nodes := nodes }.setApp i pc' :=
  setApp_setApp { s with nodes := nodes } i pc pc'

theorem setApp_self {pc : AppPc} (app : s.apps i = pc) : s.setApp i pc = s := by
  subst app
  simp [setApp]

theorem setRing_setRing (s : System) (i : Nat) (ring ring' : Ring) :
    (s.setRing i ring).setRing i ring' = s.setRing i ring' := by
  simp [setRing]

theorem setRing_self (s : System) (i : Nat) : s.setRing i (s.rings i) = s := by
  simp [setRing]

theorem setApp_setRing_setApp (s : System) (i : Nat) (pc pc' : AppPc) (ring : Ring) :
    ((s.setApp i pc).setRing i ring).setApp i pc' = (s.setApp i pc').setRing i ring := by
  simp [setApp, setRing]

theorem finish_setApp (s : System) (i result : Nat) (pc : AppPc) (f : Frame) :
    (s.setApp i pc).finish i result f = if result ≠ 0 ∧ f.op.optype ≠ .contains then
      { s with
        updates := Function.update s.updates i
          (s.updates i ++ [(f.op, Op.mk f.op.key f.pnode)]) }.setApp i (.offering ⟨f.op.key, f.pnode⟩)
    else s.setApp i .idle := by
  simp [finish, setApp]

section Operation

variable (host clean) {op : Operation} {e : Enclave} {node : Nat}

theorem search_alone {pc : SearchPc} (isEnclave : s.enclave i = some e)
    (reads : e.ReadsTo op.key pc (.returned node)) : ∀ s' : System, s'.enclave i = s.enclave i →
      s'.apps i = .searching op pc →
        s'.Takes host clean [] (s'.setApp i (.searching op (.returned node))) := by
  induction reads using Relation.ReflTransGen.head_induction_on with
  | refl =>
      intro s' _ app
      rw [setApp_self app]
      exact .refl s'
  | @head pc pc' read _ ih =>
      intro s' same app
      by_cases returned : ∃ found, pc = .returned found
      -- searchRead stays there, while the thread would go on into sl_traverse_data
      · obtain ⟨found, rfl⟩ := returned
        obtain rfl := Option.some.inj read
        exact ih s' same app
      -- no block is asked for in a search, so any malloc will do
      · have reads := app_searching ⟨0, ⟨0, 0, 0, 0, 0⟩⟩ app
          (fun found located => returned ⟨found, located⟩) (same.trans isEnclave) read
        have rest := ih (s'.setApp i (.searching op pc')) same (setApp_same _ _ _)
        rw [setApp_setApp] at rest
        exact (Takes.app reads (by simp only [emits, app])).before rest

theorem traverse_alone {nodes' : Nodes} {result pnode : Nat} (fuel : Nat) : ∀ (s : System) (state : Local),
    s.apps i = .traversing state → assumedAlone malloc fuel s.nodes state = true →
    traverseAlone malloc fuel s.nodes state = some (nodes', result, pnode) →
    ∃ f : Frame, f.op = state.frame.op ∧ f.pnode = pnode ∧
      s.Takes host clean [] ({ s with nodes := nodes' }.setApp i (.traversing ⟨.returned result, f⟩)) := by
  induction fuel with
  | zero => exact fun s state _ _ wrong => absurd wrong.symm (Option.some_ne_none _)
  | succ fuel ih =>
      intro s state app assumption ran
      by_cases returned : ∃ value, state.pc = .returned value
      · obtain ⟨value, located⟩ := returned
        obtain ⟨pc, f⟩ := state
        subst located
        simp only [traverseAlone, Option.some.injEq, Prod.mk.injEq] at ran
        obtain ⟨rfl, rfl, rfl⟩ := ran
        have stays : { s with nodes := s.nodes }.setApp i (.traversing ⟨.returned value, f⟩) = s :=
          setApp_self app
        refine ⟨f, rfl, rfl, ?_⟩
        rw [stays]
        exact .refl s
      · have going : ∀ value, state.pc ≠ .returned value := fun value located => returned ⟨value, located⟩
        obtain ⟨nodes₁, state₁, taken, ran⟩ : ∃ nodes₁ state₁,
            dataStep malloc s.nodes state = some (nodes₁, state₁) ∧
              traverseAlone malloc fuel nodes₁ state₁ = some (nodes', result, pnode) := by
          obtain ⟨pc, f⟩ := state
          cases pc with
          | returned value => exact absurd rfl (going value)
          | _ =>
              rw [traverseAlone] at ran
              obtain ⟨⟨nodes₁, state₁⟩, taken, ran⟩ := Option.bind_eq_some_iff.mp ran
              exact ⟨nodes₁, state₁, taken, ran⟩
        simp only [assumedAlone, taken, Bool.and_eq_true] at assumption
        have steps := app_traversing app going assumption.1 taken
        obtain ⟨f, sameOp, samePnode, rest⟩ := ih ({ s with nodes := nodes₁ }.setApp i (.traversing state₁))
          state₁ (setApp_same _ _ _) assumption.2 ran
        have quiet : s.emits (.app i malloc) = [] := by
          obtain ⟨pc, f⟩ := state
          cases pc with
          | returned value => exact absurd rfl (going value)
          | _ => simp only [emits, app]
        rw [nodes_setApp] at rest
        exact ⟨f, sameOp.trans (dataStep_sameOp taken), samePnode, (Takes.app steps quiet).before rest⟩

/-- `sl_do_operation` with nothing in between, up to its return. -/
theorem doOperation_alone {nodes' : Nodes} {result pnode fuel : Nat} (idle : s.apps i = .idle)
    (positive : 1 ≤ op.key) (ownKey : op.val = op.key) (isEnclave : s.enclave i = some e)
    (returns : e.slTraverseIndex op.key = some node)
    (assumption : assumedAlone malloc fuel s.nodes (slTraverseData node op) = true)
    (ran : traverseAlone malloc fuel s.nodes (slTraverseData node op) = some (nodes', result, pnode)) :
    ∃ f : Frame, f.op = op ∧ f.pnode = pnode ∧ s.Takes host clean [.call i op, .ret i result]
      (({ s with nodes := nodes' }.setApp i (.traversing ⟨.returned result, f⟩)).finish i result f) := by
  have calls : s.Takes host clean [.call i op] (s.setApp i (.searching op (.right e.sentinel))) := by
    obtain ⟨optype, key, val⟩ := op
    cases ownKey
    have called : s.act host (.call i optype key) =
        some (s.setApp i (.searching ⟨optype, key, key⟩ (.right e.sentinel))) := by
      simp only [System.act, System.call, idle, isEnclave, Option.bind_eq_bind, Option.bind_some]
    have shown : s.emits (.call i optype key) = [.call i ⟨optype, key, key⟩] := by
      simp only [emits, idle]
    exact shown ▸ Takes.act (.call i optype key) called fun _ => positive
  have searches := search_alone host clean isEnclave (Enclave.slTraverseIndex_reads returns)
    (s.setApp i (.searching op (.right e.sentinel))) rfl (setApp_same _ _ _)
  rw [setApp_setApp] at searches
  have enters : (s.setApp i (.searching op (.returned node))).Takes host clean []
      (s.setApp i (.traversing (slTraverseData node op))) := by
    have entered : (s.setApp i (.searching op (.returned node))).app i malloc =
        some (s.setApp i (.traversing (slTraverseData node op))) := by
      simp only [System.app, setApp_same, setApp_setApp]
    exact Takes.app entered (by simp only [emits, setApp_same])
  obtain ⟨f, sameOp, samePnode, traverses⟩ := traverse_alone host clean fuel
    (s.setApp i (.traversing (slTraverseData node op))) (slTraverseData node op) (setApp_same _ _ _)
    assumption ran
  rw [nodes_setApp] at traverses
  have finishes : ({ s with nodes := nodes' }.setApp i (.traversing ⟨.returned result, f⟩)).Takes host clean
      [.ret i result]
      (({ s with nodes := nodes' }.setApp i (.traversing ⟨.returned result, f⟩)).finish i result f) := by
    have finished : ({ s with nodes := nodes' }.setApp i (.traversing ⟨.returned result, f⟩)).app i malloc =
        some (({ s with nodes := nodes' }.setApp i (.traversing ⟨.returned result, f⟩)).finish i
          result f) := by
      simp only [System.app, setApp_same]
    exact Takes.app finished (by simp only [emits, setApp_same])
  exact ⟨f, sameOp, samePnode,
    calls.trans (searches.before (enters.before (traverses.before finishes)))⟩

end Operation

section Buffer

variable (host clean) {op : Op}

theorem offer_for (count : Nat) : ∀ s : System, s.apps i = .offering op →
    (∀ fewer < count, ∀ job, ((Ring.appTurn · op)^[fewer] (s.rings i)).inserting ≠ .returning job) →
    s.Takes host clean [] (s.setRing i ((Ring.appTurn · op)^[count] (s.rings i))) := by
  induction count with
  | zero =>
      intro s _ _
      rw [Function.iterate_zero, id, setRing_self]
      exact .refl s
  | succ count ih =>
      intro s app notYet
      have stays : AppPc.offers op (s.rings i).inserting = .offering op := by
        have going := notYet 0 (Nat.succ_pos count)
        cases located : (s.rings i).inserting with
        | returning job => exact absurd located (going job)
        | _ => rfl
      have offered : s.app i ⟨0, ⟨0, 0, 0, 0, 0⟩⟩ = some (s.setRing i ((s.rings i).appTurn op)) := by
        simp only [System.app, app, offer, stays]
        rw [setApp_self (show (s.setRing i ((s.rings i).appTurn op)).apps i = .offering op from app)]
      have rest := ih (s.setRing i ((s.rings i).appTurn op)) app fun fewer less job => by
        rw [setRing_same]
        exact notYet (fewer + 1) (Nat.succ_lt_succ less) job
      rw [setRing_same, setRing_setRing] at rest
      exact (Takes.app offered (by simp only [emits, app])).before rest

theorem remove_for (count : Nat) : ∀ s : System,
    (∀ fewer < count, ∀ job, (Ring.hlpTurn^[fewer] (s.rings i)).removing ≠ .returning job) →
    s.Takes host clean [] (s.setRing i (Ring.hlpTurn^[count] (s.rings i))) := by
  induction count with
  | zero =>
      intro s _
      rw [Function.iterate_zero, id, setRing_self]
      exact .refl s
  | succ count ih =>
      intro s notYet
      have removed : s.remove (host.platform i) i = some (s.setRing i (s.rings i).hlpTurn) := by
        have going := notYet 0 (Nat.succ_pos count)
        cases located : (s.rings i).removing with
        | returning job => exact absurd located (going job)
        | _ => simp only [System.remove, located]
      have rest := ih (s.setRing i (s.rings i).hlpTurn) fun fewer less job => by
        rw [setRing_same]
        exact notYet (fewer + 1) (Nat.succ_lt_succ less) job
      rw [setRing_same, setRing_setRing] at rest
      exact (Takes.remove removed).before rest

theorem insert_alone (app : s.apps i = .offering op) (idle : (s.rings i).inserting = .idle)
    (room : ((s.rings i).buffer.opbufferInsert op.key op.node).1 = true) :
    ∃ ring : Ring, ring.buffer = ((s.rings i).buffer.opbufferInsert op.key op.node).2 ∧
      ring.inserting = .idle ∧ ring.removing = (s.rings i).removing ∧
      s.Takes host clean [] ((s.setRing i ring).setApp i .idle) := by
  obtain ⟨ring, turns, buffer, returning, removing, notYet⟩ := Ring.insert_turns idle room
  have offers := offer_for host clean 9 s app notYet
  have returns : (s.setRing i ring).app i ⟨0, ⟨0, 0, 0, 0, 0⟩⟩ =
      some ((s.setRing i (ring.appTurn op)).setApp i .idle) := by
    simp only [System.app, setRing_apps, app, offer, setRing_same, returning, AppPc.offers, setRing_setRing]
  rw [turns] at offers
  refine ⟨ring.appTurn op, ?_, ?_, ?_, offers.before (Takes.app returns ?_)⟩
  · simpa only [Ring.appTurn, returning] using buffer
  · simp only [Ring.appTurn, returning]
  · simpa only [Ring.appTurn, returning] using removing
  · simp only [emits, setRing_apps, app]

theorem remove_alone {buffer : OpBuffer} (idle : (s.rings i).removing = .idle)
    (taken : (s.rings i).buffer.opbufferRemove = (some op, buffer)) :
    ∃ ring : Ring, ring.buffer = buffer ∧ ring.inserting = (s.rings i).inserting ∧
      ring.removing = .returning op ∧ s.Takes host clean [] (s.setRing i ring) := by
  obtain ⟨ring, turns, sameBuffer, returning, inserting, notYet⟩ := Ring.remove_turns idle taken
  have removes := remove_for host clean 9 s notYet
  rw [turns] at removes
  exact ⟨ring, sameBuffer, inserting, returning, removes⟩

end Buffer

end System

namespace SkipList

namespace Resembles

variable {host : Host} {clean : Prop} {s s' : SkipList} {t : System} {i : Nat}

theorem enclave (same : s.Resembles t) (i : Nat) : t.enclave i = s.enclave i := by
  rw [System.enclave, SkipList.enclave, same.nodes, same.enclaves]

theorem setRing {ring : Ring} {buffer : OpBuffer} (same : s.Resembles t) (i : Nat)
    (sameBuffer : ring.buffer = buffer) (inserting : ring.inserting = .idle)
    (removing : ring.removing = .idle) :
    SkipList.Resembles { s with buffers := Function.update s.buffers i buffer } (t.setRing i ring) := by
  have rests : ∀ j, ((t.setRing i ring).rings j).buffer = Function.update s.buffers i buffer j ∧
      ((t.setRing i ring).rings j).inserting = .idle ∧ ((t.setRing i ring).rings j).removing = .idle := by
    intro j
    by_cases here : j = i
    · subst here
      rw [System.setRing_same, Function.update_self]
      exact ⟨sameBuffer, inserting, removing⟩
    · rw [System.setRing_other _ _ _ here, Function.update_of_ne here]
      exact ⟨same.buffer j, same.inserting j, same.removing j⟩
  exact ⟨same.nodes, same.enclaves, fun j => (rests j).1, fun j => (rests j).2.1, fun j => (rests j).2.2,
    same.apps⟩

theorem helps {platform : Platform} {call : Call} (same : s.Resembles t)
    (helped : s.helps platform i call = some s') :
    ∃ t', t.helps platform i call = some t' ∧ s'.Resembles t' := by
  obtain ⟨e, isEnclave, helped⟩ := Option.bind_eq_some_iff.mp helped
  obtain ⟨e', called, helped⟩ := Option.bind_eq_some_iff.mp helped
  obtain rfl := Option.some.inj helped
  refine ⟨{ t with nodes := e'.nodes, enclaves := Function.update t.enclaves i (some e') }, ?_, ?_⟩
  · simp only [System.helps, same.enclave i, isEnclave, called, Option.bind_eq_bind, Option.bind_some]
  · exact ⟨rfl, congrArg (Function.update · i (some e')) same.enclaves, same.buffer, same.inserting,
      same.removing, same.apps⟩

theorem pass (same : s.Resembles t) (clear : clean → s.CleanAct host (.pass i))
    (helped : s.helps (host.platform i) i .pass = some s') :
    ∃ t', t.Takes host clean [] t' ∧ s'.Resembles t' := by
  obtain ⟨t', helps, resembles⟩ := same.helps helped
  have acted : t.act host (.pass i) = some t' := by
    simp only [System.act, System.between, same.removing i, helps]
  refine ⟨t', System.Takes.act (.pass i) acted ?_, resembles⟩
  intro isClean e isEnclave _
  have cleanly := clear isClean i e rfl ((same.enclave i).symm.trans isEnclave)
  refine ⟨host.freesGiven i e .pass, ?_, ?_⟩
  · rw [(host.honest i).guarded_eq]
    exact cleanly
  · intro op pc searching
    rw [same.apps i] at searching
    cases searching

theorem reset (same : s.Resembles t) (helped : s.helps (host.platform i) i .reset = some s') :
    ∃ t', t.Takes host clean [] t' ∧ s'.Resembles t' := by
  obtain ⟨t', helps, resembles⟩ := same.helps helped
  have acted : t.act host (.reset i) = some t' := by
    simp only [System.act, System.between, same.removing i, helps]
  refine ⟨t', System.Takes.act (.reset i) acted ?_, resembles⟩
  refine fun _ => ⟨fun e _ _ => host.freesGiven i e .reset, ?_⟩
  intro op pc searching
  rw [same.apps i] at searching
  cases searching

theorem takeJob (same : s.Resembles t) (took : s.takeJob (host.platform i) i = some s') :
    ∃ t', t.Takes host clean [] t' ∧ s'.Resembles t' := by
  unfold SkipList.takeJob at took
  split at took
  · obtain rfl := Option.some.inj took
    exact ⟨t, .refl t, same⟩
  · rename_i op buffer taken
    rw [← same.buffer i] at taken
    obtain ⟨ring, ringBuffer, inserting, removing, takes⟩ :=
      System.remove_alone host clean (same.removing i) taken
    have after : SkipList.Resembles { s with buffers := Function.update s.buffers i buffer }
        (t.setRing i ring.hlpTurn) := by
      apply same.setRing i <;> simp only [Ring.hlpTurn, removing, ringBuffer, inserting, same.inserting i]
    obtain ⟨t', helps, resembles⟩ := after.helps took
    have removes : (t.setRing i ring).remove (host.platform i) i = some t' := by
      simp only [System.remove, System.setRing_same, removing, System.setRing_setRing]
      exact helps
    exact ⟨t', takes.before (.remove removes), resembles⟩

theorem setApp (same : s.Resembles t) (i : Nat) (nodes : Nodes) (results : List Nat)
    (updates : Nat → List (Operation × Op)) :
    SkipList.Resembles { s with nodes := nodes, results := results }
      ({ t with nodes := nodes, updates := updates }.setApp i .idle) := by
  have apps : ∀ j, ({ t with nodes := nodes, updates := updates }.setApp i .idle).apps j = .idle := by
    intro j
    by_cases here : j = i
    · subst here
      exact System.setApp_same _ _ _
    · rw [System.setApp_other _ _ _ here]
      exact same.apps j
  exact ⟨rfl, same.enclaves, same.buffer, same.inserting, same.removing, apps⟩

theorem operate {optype : OpType} {key : Nat} {malloc : Malloc} (same : s.Resembles t)
    (assumes : s.assumes (.operate i optype key malloc) = true)
    (accepts : s.accepts (.operate i optype key malloc) = true)
    (operated : s.operate i optype key malloc = some s') :
    ∃ t', t.Takes host clean (s.emits (.operate i optype key malloc)) t' ∧ s'.Resembles t' := by
  obtain ⟨e, isEnclave, operated⟩ := Option.bind_eq_some_iff.mp operated
  obtain ⟨⟨nodes, result, pnode⟩, ran, operated⟩ := Option.bind_eq_some_iff.mp operated
  obtain rfl := Option.some.inj operated
  obtain ⟨node, returns, traverses⟩ := Option.bind_eq_some_iff.mp ran
  have seen : e.nodes = s.nodes := by
    obtain ⟨stored, _, rfl⟩ := Option.map_eq_some_iff.mp isEnclave
    rfl
  simp only [SkipList.assumes, isEnclave, Option.bind_some, returns, Option.all_some, Bool.and_eq_true,
    decide_eq_true_eq] at assumes
  simp only [SkipList.accepts, isEnclave, Option.bind_some, ran, Option.all_some] at accepts
  have emits : s.emits (.operate i optype key malloc) =
      [.call i ⟨optype, key, key⟩, .ret i result] := by
    simp only [SkipList.emits, isEnclave, Option.bind_some, ran, Option.elim_some]
  rw [seen, ← same.nodes] at traverses
  rw [← same.nodes] at assumes
  obtain ⟨f, sameOp, rfl, takes⟩ := System.doOperation_alone host clean (same.apps i) assumes.1 rfl
    ((same.enclave i).trans isEnclave) returns assumes.2 traverses
  rw [emits]
  by_cases updated : result ≠ 0 ∧ optype ≠ .contains
  -- the job goes into the buffer before the thread is idle again
  · rw [if_pos updated]
    have room : ((t.rings i).buffer.opbufferInsert key f.pnode).1 = true := by
      rw [same.buffer i]
      simpa [updated.1, updated.2] using accepts
    rw [System.finish_setApp, sameOp, if_pos updated] at takes
    obtain ⟨updates, takes⟩ : ∃ updates, t.Takes host clean [.call i ⟨optype, key, key⟩, .ret i result]
        ({ t with nodes := nodes, updates := updates }.setApp i (.offering ⟨key, f.pnode⟩)) := ⟨_, takes⟩
    obtain ⟨ring, sameBuffer, inserting, removing, inserts⟩ := System.insert_alone host clean
      (System.setApp_same { t with nodes := nodes, updates := updates } i (.offering ⟨key, f.pnode⟩))
      (same.inserting i) room
    rw [System.setApp_setRing_setApp] at inserts
    refine ⟨_, takes.trans inserts, (same.setApp i nodes _ _).setRing i ?_ inserting ?_⟩
    · rw [sameBuffer, ← same.buffer i]
      rfl
    · exact removing.trans (same.removing i)
  · rw [if_neg updated, Function.update_eq_self]
    rw [System.finish_setApp, sameOp, if_neg updated] at takes
    exact ⟨_, takes, same.setApp i nodes _ t.updates⟩

theorem act {act : SkipListAct} (same : s.Resembles t) (assumes : s.assumes act = true)
    (accepts : s.accepts act = true) (clear : clean → s.CleanAct host act)
    (acted : s.act host act = some s') :
    ∃ t', t.Takes host clean (s.emits act) t' ∧ s'.Resembles t' := by
  cases act with
  | operate i optype key malloc => exact same.operate assumes accepts acted
  | takeJob i => exact same.takeJob acted
  | pass i => exact same.pass clear acted
  | reset i => exact same.reset acted

end Resembles

theorem emits_of_none {host : Host} {s : SkipList} {act : SkipListAct} (fails : s.act host act = none) :
    s.emits act = [] := by
  cases act with
  | operate i optype key malloc =>
      rw [SkipList.act, SkipList.operate] at fails
      cases ran : (s.enclave i).bind fun e => e.slDoOperation malloc key optype with
      | none => simp only [SkipList.emits, ran, Option.elim_none]
      | some done =>
          obtain ⟨e, isEnclave, ran⟩ := Option.bind_eq_some_iff.mp ran
          simp [isEnclave, ran] at fails
  | takeJob i | pass i | reset i => rfl

/-- As long as the calls come to no NULL, the system is there too. -/
def Matched (coarse : Option SkipList) (fine : Option System) : Prop :=
  ∀ s, coarse = some s → ∃ t, fine = some t ∧ s.Resembles t

theorem Matched.turn {host : Host} {clean : Prop} {coarse : Option SkipList} {fine : Option System}
    {act : SkipListAct} (matched : Matched coarse fine) (assumes : coarse.all (·.assumes act) = true)
    (accepts : coarse.all (·.accepts act) = true)
    (clear : clean → ∀ s, coarse = some s → s.CleanAct host act) :
    ∃ next, Shows (System.turn host) (fun state act => state.elim [] (·.emits act))
        (fun state act => clean → ∀ s, state = some s → s.Undisturbed host act) fine
        (coarse.elim [] (·.emits act)) next ∧ Matched (SkipList.turn host coarse act) next := by
  cases coarse with
  | none => exact ⟨fine, .refl fine, fun s wrong => absurd wrong.symm (Option.some_ne_none s)⟩
  | some s =>
      obtain ⟨t, rfl, same⟩ := matched s rfl
      cases acted : s.act host act with
      | none =>
          refine ⟨some t, ?_, fun s' wrong => ?_⟩
          · rw [Option.elim_some, emits_of_none acted]
            exact .refl _
          · exact absurd (acted.symm.trans wrong).symm (Option.some_ne_none s')
      | some s' =>
          obtain ⟨t', takes, resembles⟩ :=
            same.act assumes accepts (fun isClean => clear isClean s rfl) acted
          refine ⟨some t', takes, fun other turned => ⟨t', rfl, ?_⟩⟩
          rw [← Option.some.inj (acted.symm.trans turned)]
          exact resembles

end SkipList

namespace Host

variable {host : Host} {acts : List SkipListAct}

theorem start_matched : SkipList.Matched (some host.start) (some host.startSystem) := by
  rintro s same
  rw [← Option.some.inj same]
  exact ⟨host.startSystem, rfl, rfl, rfl, fun _ => rfl, fun _ => rfl, fun _ => rfl, fun _ => rfl⟩

/-- Every run of whole calls is one of the runs of single loads and stores: some order of these ends with
the same layers and buffers, no thread in a call, and shows the same calls and returns. -/
theorem run_interleaved {s : SkipList} (assumed : host.Assumed acts) (accepts : host.Accepts acts)
    (ran : host.run acts = some s) :
    ∃ turns t, host.runSystem turns = some t ∧ s.Resembles t ∧
      host.systemHistory turns = host.wholeHistory acts ∧ (host.Cleanly acts → host.Undisturbed turns) := by
  have clears : Runs.Along (SkipList.turn host)
      (fun state act => host.Cleanly acts → ∀ s, state = some s → s.CleanAct host act)
      (some host.start) acts := by
    by_cases clean : host.Cleanly acts
    · exact Runs.Along.imp (fun _ _ now _ => now) acts clean
    · exact Runs.Along.of_all (fun _ _ isClean => absurd isClean clean) acts
  obtain ⟨last, ⟨turns, undisturbed, ranSystem, showed⟩, matched⟩ := Shows.run SkipList.Matched
    (fun _ _ _ matched allowed => matched.turn allowed.1.1 allowed.1.2 allowed.2) acts _ _ start_matched
    ((assumed.and acts accepts).and acts clears)
  obtain ⟨t, rfl, same⟩ := matched s ran
  refine ⟨turns, t, ranSystem, same, showed, fun clean => ⟨fun i => ?_, ?_⟩⟩
  · rw [(host.honest i).guarded_eq]
    rfl
  · exact Runs.Along.imp (fun _ _ now => now clean) turns undisturbed

theorem twoEnclaves_interleaved : ∃ s turns t, numaHost.run twoEnclaves = some s ∧
    numaHost.runSystem turns = some t ∧ s.Resembles t ∧
      numaHost.systemHistory turns = numaHost.wholeHistory twoEnclaves ∧
        (numaHost.Cleanly twoEnclaves → numaHost.Undisturbed turns) := by
  have assumed : numaHost.Assumed twoEnclaves := by decide +kernel
  have accepts : numaHost.Accepts twoEnclaves := by decide +kernel
  have ends : (numaHost.run twoEnclaves).isSome = true := by decide +kernel
  obtain ⟨s, ran⟩ := Option.isSome_iff_exists.mp ends
  obtain ⟨turns, t, matched⟩ := run_interleaved assumed accepts ran
  exact ⟨s, turns, t, ran, matched⟩

end Host

end Hosk
