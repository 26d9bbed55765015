import Hosk.SystemParts

/-!
The whole program with its threads side by side: its histories are those of an atomic set of keys, and no
thread comes to an access through NULL.
-/

namespace Hosk

open Linearizability

def AppPc.shown (inner : Status Operation Nat) : AppPc → Status Operation Nat
  | .searching op _ => .pending op
  | _ => inner

def System.shown (s : System) (inner : AtomicState (Finset Nat) Operation Nat) :
    AtomicState (Finset Nat) Operation Nat :=
  ⟨inner.value, fun i => (s.apps i).shown (inner.status i)⟩

/-- What a thread has made of the size: what it has counted, and a success that it has yet to count. -/
def System.made (s : System) (i : Nat) : Int :=
  (s.counted i .insert : Int) - s.counted i .delete + (s.apps i).locals.elim 0 pcCredit

/-- The data layer agrees with the set, every helper is sound over it, every update is on its way, and the
set is as large as the updates make it. -/
structure SystemOk (machine : Machine) (s : System) (linked : List Nat)
    (inner : AtomicState (Finset Nat) Operation Nat) : Prop where
  layer : Agrees (s.layer machine.head) linked inner
  helpers : ∀ i, HelperOk s.nodes linked (s.rings i).returned (s.apps i) (s.enclaves i)
  pipes : ∀ i, PipeOk machine.bufSize s.nodes linked (s.rings i) (s.apps i) (s.updates i)
  ready : ∀ i state, s.apps i = .traversing state → 1 ≤ state.frame.op.key ∧ JobReady state
  positive : ∀ key ∈ inner.value, 1 ≤ key
  size : ∀ threads : Finset Nat, (∀ i, i ∉ threads → s.made i = 0) →
    (inner.value.card : Int) = ∑ i ∈ threads, s.made i

/-- What a step of one enclave's threads does: nothing to the others but to let the list grow, and a
search of its own is no further from its end. -/
structure Moves (machine : Machine) (i : Nat) (s : System) (linked : List Nat)
    (inner : AtomicState (Finset Nat) Operation Nat) (s' : System) (linked' : List Nat)
    (inner' : AtomicState (Finset Nat) Operation Nat) : Prop where
  apart : ∀ j, j ≠ i → s'.apps j = s.apps j ∧ s'.rings j = s.rings j ∧
    s'.enclaves j = s.enclaves j ∧ s'.updates j = s.updates j
  status : ∀ j, j ≠ i → inner'.status j = inner.status j
  onward : Onward machine.head s.nodes linked s'.nodes linked' inner'.value
  layer : Agrees (s'.layer machine.head) linked' inner'
  helper : ∀ left, HelperAt s.nodes linked (s.rings i).returned (s.apps i) (s.enclaves i) left →
    ∃ left', HelperAt s'.nodes linked' (s'.rings i).returned (s'.apps i) (s'.enclaves i) left' ∧
      ∀ op pc, s.apps i = .searching op pc → left' ≤ left
  pipe : PipeOk machine.bufSize s'.nodes linked' (s'.rings i) (s'.apps i) (s'.updates i)
  ready : ∀ state, s'.apps i = .traversing state → 1 ≤ state.frame.op.key ∧ JobReady state
  positive : (∀ key ∈ inner.value, 1 ≤ key) → ∀ key ∈ inner'.value, 1 ≤ key
  size : (inner'.value.card : Int) + s.made i = inner.value.card + s'.made i

section Moves

variable {machine : Machine} {i : Nat} {s s' : System} {linked linked' : List Nat}
  {inner inner' : AtomicState (Finset Nat) Operation Nat}

theorem Onward.refl {head : Nat} {nodes : Nodes} {keys : Finset Nat}
    (list : ListOk head nodes linked keys) : Onward head nodes linked nodes linked keys :=
  ⟨list, fun _ member => member, fun _ _ => rfl⟩

theorem Moves.made (moves : Moves machine i s linked inner s' linked' inner') {j : Nat} (other : j ≠ i) :
    s'.made j = s.made j := by
  obtain ⟨app, _, _, updates⟩ := moves.apart j other
  rw [System.made, System.made, System.counted, System.counted, System.counted, System.counted, app, updates]

theorem Moves.sized (ok : SystemOk machine s linked inner)
    (moves : Moves machine i s linked inner s' linked' inner') (threads : Finset Nat)
    (all : ∀ j, j ∉ threads → s'.made j = 0) : (inner'.value.card : Int) = ∑ j ∈ threads, s'.made j := by
  have before := ok.size (insert i threads) fun j outside => by
    rw [Finset.mem_insert, not_or] at outside
    rw [← moves.made outside.1]
    exact all j outside.2
  have after : ∑ j ∈ threads, s'.made j = ∑ j ∈ insert i threads, s'.made j :=
    Finset.sum_subset (Finset.subset_insert i threads) fun j _ outside => all j outside
  have member : i ∈ insert i threads := Finset.mem_insert_self i threads
  have others : ∑ j ∈ (insert i threads).erase i, s'.made j = ∑ j ∈ (insert i threads).erase i, s.made j :=
    Finset.sum_congr rfl fun j inside => moves.made (Finset.ne_of_mem_erase inside)
  have change := moves.size
  rw [← Finset.add_sum_erase _ s.made member] at before
  rw [after, ← Finset.add_sum_erase _ s'.made member, others]
  omega

theorem Moves.ok (ok : SystemOk machine s linked inner)
    (moves : Moves machine i s linked inner s' linked' inner') : SystemOk machine s' linked' inner' := by
  refine ⟨moves.layer, fun j => ?_, fun j => ?_, fun j state running => ?_, moves.positive ok.positive,
    moves.sized ok⟩
  · by_cases same : j = i
    · subst same
      obtain ⟨left, helper⟩ := (ok.helpers j).at
      obtain ⟨left', helper', _⟩ := moves.helper left helper
      exact helper'.ok
    · obtain ⟨app, ring, enclave, _⟩ := moves.apart j same
      rw [app, ring, enclave]
      exact (ok.helpers j).onward moves.onward
  · by_cases same : j = i
    · exact same ▸ moves.pipe
    · obtain ⟨app, ring, _, updates⟩ := moves.apart j same
      rw [app, ring, updates]
      exact (ok.pipes j).onward moves.onward
  · by_cases same : j = i
    · subst same
      exact moves.ready state running
    · rw [(moves.apart j same).1] at running
      exact ok.ready j state running

theorem Moves.shown (moves : Moves machine i s linked inner s' linked' inner') :
    s'.shown inner' = AtomicState.setStatus { s.shown inner with value := inner'.value } i
      ((s'.apps i).shown (inner'.status i)) := by
  simp only [System.shown, AtomicState.setStatus, AtomicState.mk.injEq, true_and]
  funext j
  by_cases same : j = i
  · subst same
    rw [Function.update_self]
  · rw [Function.update_of_ne same, (moves.apart j same).1, moves.status j same]

theorem Moves.silent (moves : Moves machine i s linked inner s' linked' inner')
    (turn : SilentTurn keySet inner.value ((s.apps i).shown (inner.status i)) inner'.value
      ((s'.apps i).shown (inner'.status i))) :
    AtomicRun keySet (s.shown inner) [] (s'.shown inner') := by
  rw [moves.shown]
  exact .silent turn

end Moves

section Accesses

variable {i : Nat} {s : System} {malloc : Malloc}

theorem System.app_searching (malloc : Malloc) {op : Operation} {pc pc' : SearchPc} {e : Enclave}
    (app : s.apps i = .searching op pc) (notYet : ∀ node, pc ≠ .returned node)
    (isEnclave : s.enclave i = some e) (read : e.searchRead op.key pc = some pc') :
    s.app i malloc = some (s.setApp i (.searching op pc')) := by
  cases pc <;> simp_all [System.app]

theorem System.app_traversing {state state' : Local} {nodes' : Nodes} (app : s.apps i = .traversing state)
    (notYet : ∀ result, state.pc ≠ .returned result) (assumption : assumed malloc s.nodes state = true)
    (taken : dataStep malloc s.nodes state = some (nodes', state')) :
    s.app i malloc = some ({ s with nodes := nodes' }.setApp i (.traversing state')) := by
  obtain ⟨pc, f⟩ := state
  cases pc <;> simp_all [System.app]

end Accesses

def Goes (machine : Machine) (i : Nat) (s : System) (linked : List Nat)
    (inner : AtomicState (Finset Nat) Operation Nat) (after : Option System)
    (events : List (Linearizability.Event Operation Nat)) : Prop :=
  ∃ s' linked' inner', after = some s' ∧ Moves machine i s linked inner s' linked' inner' ∧
    AtomicRun keySet (s.shown inner) events (s'.shown inner')

section Steps

variable {machine : Machine} {i : Nat} {s : System} {linked : List Nat}
  {inner : AtomicState (Finset Nat) Operation Nat}

theorem SystemOk.stays (ok : SystemOk machine s linked inner) (i : Nat) :
    Goes machine i s linked inner (some s) [] :=
  ⟨s, linked, inner, rfl, ⟨fun _ _ => ⟨rfl, rfl, rfl, rfl⟩, fun _ _ => rfl, .refl ok.layer.list, ok.layer,
    fun left helper => ⟨left, helper, fun _ _ _ => Nat.le_refl left⟩, ok.pipes i, ok.ready i, id, rfl⟩,
    .done _⟩

theorem Goes.quiet {s' : System} (linked' : List Nat) (inner' : AtomicState (Finset Nat) Operation Nat)
    (moves : Moves machine i s linked inner s' linked' inner')
    (turn : SilentTurn keySet inner.value ((s.apps i).shown (inner.status i)) inner'.value
      ((s'.apps i).shown (inner'.status i))) : Goes machine i s linked inner (some s') [] :=
  ⟨s', linked', inner', rfl, moves, moves.silent turn⟩

theorem layer_setApp (head : Nat) (s : System) (i : Nat) (pc : AppPc) :
    (s.setApp i pc).layer head = (s.layer head).setThread i pc.locals := by
  simp only [System.layer, System.setApp, DataLayer.setThread, DataLayer.mk.injEq, true_and]
  funext j
  by_cases same : j = i
  · subst same
    rw [Function.update_self, Function.update_self]
  · rw [Function.update_of_ne same, Function.update_of_ne same]

theorem layer_outside (head : Nat) {pc : AppPc} (before : (s.apps i).locals = none)
    (after : pc.locals = none) : (s.setApp i pc).layer head = s.layer head := by
  rw [layer_setApp, after, DataLayer.setThread, ← before]
  exact congrArg (DataLayer.mk s.nodes head) (Function.update_eq_self i (fun j => (s.apps j).locals))

theorem System.made_quiet {s s' : System} {i : Nat} (size : Int) (updates : s'.updates i = s.updates i)
    (credit : (s'.apps i).locals.elim 0 pcCredit = (s.apps i).locals.elim 0 pcCredit) :
    size + s.made i = size + s'.made i := by
  rw [System.made, System.made, System.counted, System.counted, System.counted, System.counted, updates,
    credit]

theorem System.finish_made (s : System) {i result : Nat} {f : Frame}
    (app : s.apps i = .traversing ⟨.returned result, f⟩) (isResult : result ≤ 1) :
    (s.finish i result f).made i = s.made i := by
  rw [System.made, System.made, app]
  by_cases updates : result ≠ 0 ∧ f.op.optype ≠ .contains
  · have one : result = 1 := by omega
    rw [System.finish, if_pos updates, System.setApp_same, one]
    simp only [System.counted, System.setApp_updates, Function.update_self, List.countP_append,
      AppPc.locals, Option.elim, pcCredit]
    cases optype : f.op.optype with
    | contains => exact absurd optype updates.2
    | insert | delete =>
        simp [sign, optype]
        omega
  · rw [System.finish, if_neg updates, System.setApp_same]
    simp only [System.counted, System.setApp_updates, AppPc.locals, Option.elim, pcCredit]
    rcases Nat.eq_zero_or_pos result with rfl | some
    · simp
    · have isContains : f.op.optype = .contains := by
        by_contra other
        exact updates ⟨Nat.ne_of_gt some, other⟩
      simp [isContains, sign]

theorem SystemOk.moveApp {pc : AppPc} (ok : SystemOk machine s linked inner)
    (before : (s.apps i).locals = none) (after : pc.locals = none)
    (nothing : (s.apps i).offered = []) (nothing' : pc.offered = [])
    (helper : ∀ left, HelperAt s.nodes linked (s.rings i).returned (s.apps i) (s.enclaves i) left →
      ∃ left', HelperAt s.nodes linked (s.rings i).returned pc (s.enclaves i) left' ∧
        ∀ op pc, s.apps i = .searching op pc → left' ≤ left) :
    Moves machine i s linked inner (s.setApp i pc) linked inner := by
  refine ⟨fun j other => ⟨System.setApp_other s i pc other, rfl, rfl, rfl⟩, fun _ _ => rfl,
    .refl ok.layer.list, ?_, ?_, ?_, ?_, id,
    System.made_quiet _ rfl (by rw [System.setApp_same, before, after])⟩
  · rw [layer_outside machine.head before after]
    exact ok.layer
  · rw [System.setApp_same]
    exact helper
  · rw [System.setApp_same]
    exact (ok.pipes i).move nothing nothing'
  · intro state running
    rw [System.setApp_same] at running
    rw [running] at after
    exact absurd after (Option.some_ne_none state)

theorem SystemOk.call_goes (ok : SystemOk machine s linked inner) (optype : OpType) {key : Nat}
    (positive : 1 ≤ key) :
    Goes machine i s linked inner (s.call i optype key) (s.emits (.call i optype key)) := by
  cases app : s.apps i with
  | searching _ _ | traversing _ | offering _ =>
      simp only [System.call, System.emits, app]
      exact ok.stays i
  | idle =>
      obtain ⟨_, helper⟩ := (ok.helpers i).at
      obtain ⟨e, height, isEnclave, entered⟩ := helper.enter
      have moves := ok.moveApp (i := i) (by rw [app]; rfl) rfl (by rw [app]; rfl) rfl fun _ _ =>
        ⟨_, entered ⟨optype, key, key⟩ positive (Nat.ne_of_gt positive), fun op pc searching =>
          absurd (app.symm.trans searching) AppPc.noConfusion⟩
      have idle : (s.shown inner).status i = .idle := by
        have outside := ok.layer.outside i (by simp [System.layer, app, AppPc.locals])
        simpa [System.shown, app, AppPc.shown] using outside
      simp only [System.call, System.emits, app, System.enclave, isEnclave]
      refine ⟨_, linked, inner, rfl, moves, .call i _ idle ?_⟩
      rw [moves.shown, System.setApp_same]
      exact .done _

theorem SystemOk.search_goes (ok : SystemOk machine s linked inner) {op : Operation} {pc : SearchPc}
    (app : s.apps i = .searching op pc) : ∃ e pc', s.enclave i = some e ∧
      e.searchRead op.key pc = some pc' ∧
      Goes machine i s linked inner (some (s.setApp i (.searching op pc'))) [] := by
  obtain ⟨_, start⟩ := (ok.helpers i).at
  rw [app] at start
  obtain ⟨e, pc', _, isEnclave, read, _⟩ := start.read
  have moves : Moves machine i s linked inner (s.setApp i (.searching op pc')) linked inner := by
    refine ok.moveApp (by rw [app]; rfl) rfl (by rw [app]; rfl) rfl fun left helper => ?_
    rw [app] at helper
    obtain ⟨other, pc'', left', isOther, reads, later, fewer⟩ := helper.read
    obtain rfl := Option.some.inj (isEnclave.symm.trans isOther)
    obtain rfl := Option.some.inj (read.symm.trans reads)
    exact ⟨left', later, fun _ _ _ => by omega⟩
  refine ⟨_, pc', by rw [System.enclave, isEnclave]; rfl, read, Goes.quiet linked inner moves ?_⟩
  rw [app, System.setApp_same]
  exact .stay _ _

theorem SystemOk.enter_goes (ok : SystemOk machine s linked inner) {op : Operation} {node : Nat}
    (app : s.apps i = .searching op (.returned node)) :
    Goes machine i s linked inner (some (s.setApp i (.traversing (slTraverseData node op)))) [] := by
  have helper := ok.helpers i
  rw [app] at helper
  have standing := helper.found
  have layer : Agrees ((s.setApp i (.traversing (slTraverseData node op))).layer machine.head) linked
      (inner.setStatus i (.pending op)) := by
    rw [layer_setApp]
    refine ok.layer.replace (fun none => absurd none (Option.some_ne_none _)) fun locals same => ?_
    obtain rfl := Option.some.inj same
    exact ⟨⟨standing, rfl⟩, rfl⟩
  refine Goes.quiet linked (inner.setStatus i (.pending op))
    ⟨fun j other => ⟨System.setApp_other s i _ other, rfl, rfl, rfl⟩,
      fun j other => AtomicState.setStatus_other _ _ other, .refl ok.layer.list, layer, ?_, ?_, ?_, id,
      System.made_quiet _ rfl (by rw [System.setApp_same, app]; rfl)⟩ ?_
  · intro left helper
    rw [System.setApp_same]
    exact ⟨left, helper.leave fun _ _ => AppPc.noConfusion, fun _ _ _ => Nat.le_refl left⟩
  · rw [System.setApp_same]
    exact (ok.pipes i).move (by rw [app]; rfl) rfl
  · intro state running
    rw [System.setApp_same] at running
    obtain rfl := AppPc.traversing.inj running
    exact ⟨standing.positive, trivial⟩
  · simp only [app, System.setApp_same, AppPc.shown, AtomicState.setStatus_same]
    exact .stay _ _

theorem SystemOk.data_goes (ok : SystemOk machine s linked inner) {state : Local}
    (app : s.apps i = .traversing state) {malloc : Malloc}
    (assumption : assumed malloc s.nodes state = true)
    (going : ∀ result, state.pc ≠ .returned result) : ∃ nodes' state',
      dataStep malloc s.nodes state = some (nodes', state') ∧
      Goes machine i s linked inner (some ({ s with nodes := nodes' }.setApp i (.traversing state'))) [] := by
  have running : (s.layer machine.head).threads i = some state := by simp [System.layer, app, AppPc.locals]
  have thread := ok.layer.inside i state running
  obtain ⟨nodes', state', taken, linked', keys', status', advances⟩ := dataStep_steps ok.layer.list
    thread (fun address owner => (ok.layer.owns i state address running owner).1) assumption going
  obtain ⟨positive, ready⟩ := ok.ready i state app
  have onward : Onward machine.head s.nodes linked nodes' linked' keys' :=
    ⟨advances.list, advances.frames.stays, advances.frames.keys⟩
  have layer := ok.layer.advance running advances
  refine ⟨nodes', state', taken, Goes.quiet linked'
    (AtomicState.setStatus { inner with value := keys' } i status')
    ⟨fun j other => ⟨System.setApp_other _ i _ other, rfl, rfl, rfl⟩,
      fun j other => AtomicState.setStatus_other _ _ other, onward, ?_, ?_, ?_, ?_,
      advances_positive thread taken advances, ?_⟩ ?_⟩
  · rw [layer_setApp]
    exact layer
  · intro left helper
    rw [System.setApp_same]
    exact ⟨left, (helper.onward onward).leave fun _ _ => AppPc.noConfusion, fun _ _ _ => Nat.le_refl left⟩
  · rw [System.setApp_same]
    exact ((ok.pipes i).onward onward).move (by rw [app]; rfl) rfl
  · intro later isLater
    rw [System.setApp_same] at isLater
    obtain rfl := AppPc.traversing.inj isLater
    rw [dataStep_op thread taken]
    exact ⟨positive, dataStep_jobReady ok.layer.list thread ready taken⟩
  · have change := (advances_membership thread taken advances 0).2
    have credit := pcCredit_step thread taken
    rw [System.made, System.made, System.setApp_same, app, AtomicState.setStatus_value]
    simp only [System.counted, System.setApp_updates, AppPc.locals, Option.elim]
    omega
  · simp only [app, System.setApp_same, AppPc.shown, AtomicState.setStatus_same]
    exact advances.turn

theorem SystemOk.finish_goes (ok : SystemOk machine s linked inner) {result : Nat} {f : Frame}
    (app : s.apps i = .traversing ⟨.returned result, f⟩) :
    Goes machine i s linked inner (some (s.finish i result f)) [.ret i result] := by
  have running : (s.layer machine.head).threads i = some ⟨.returned result, f⟩ := by
    simp [System.layer, app, AppPc.locals]
  obtain ⟨finished, pnode⟩ : inner.status i = .finished result ∧ PnodeOk s.nodes linked f :=
    ok.layer.inside i _ running
  obtain ⟨positive, ready⟩ := ok.ready i _ app
  have status : (s.shown inner).status i = .finished result := by
    simpa [System.shown, app, AppPc.shown] using finished
  have outside : ∀ pc : AppPc, pc.locals = none →
      Agrees ((s.setApp i pc).layer machine.head) linked (inner.setStatus i .idle) := by
    intro pc isOutside
    rw [layer_setApp, isOutside]
    exact ok.layer.replace (fun _ => rfl) fun locals same => absurd same (Option.some_ne_none locals).symm
  have returns : ∀ s', Moves machine i s linked inner s' linked (inner.setStatus i .idle) →
      (s'.apps i).shown .idle = .idle → Goes machine i s linked inner (some s') [.ret i result] := by
    intro s' moves idle
    refine ⟨s', linked, _, rfl, moves, .ret i result status ?_⟩
    rw [moves.shown, AtomicState.setStatus_same, idle]
    exact .done _
  have finished_size : (inner.value.card : Int) + s.made i =
      inner.value.card + (s.finish i result f).made i := by
    rw [s.finish_made app ready.1]
  by_cases updates : result ≠ 0 ∧ f.op.optype ≠ .contains
  · have told : Told s.nodes linked f.op ⟨f.op.key, f.pnode⟩ :=
      ⟨rfl, ⟨positive, fun inserts => pnode.resolve_left inserts⟩, updates.2, ready.2 updates.1 updates.2⟩
    rw [System.finish, if_pos updates] at finished_size ⊢
    refine returns _ ⟨fun j other => ?_, fun j other => AtomicState.setStatus_other _ _ other,
      .refl ok.layer.list, outside _ rfl, ?_, ?_, ?_, id, finished_size⟩ (by rw [System.setApp_same]; rfl)
    · exact ⟨System.setApp_other _ i _ other, rfl, rfl, Function.update_of_ne other _ _⟩
    · intro left helper
      rw [System.setApp_same]
      exact ⟨left, helper.leave fun _ _ => AppPc.noConfusion, fun _ _ _ => Nat.le_refl left⟩
    · simp only [System.setApp_same, System.setApp_updates, Function.update_self]
      exact (ok.pipes i).push (by rw [app]; rfl) told
    · intro state running
      rw [System.setApp_same] at running
      exact AppPc.noConfusion running
  · rw [System.finish, if_neg updates] at finished_size ⊢
    refine returns _ ⟨fun j other => ⟨System.setApp_other s i _ other, rfl, rfl, rfl⟩,
      fun j other => AtomicState.setStatus_other _ _ other, .refl ok.layer.list, outside _ rfl, ?_, ?_, ?_,
      id, finished_size⟩ (by rw [System.setApp_same]; rfl)
    · intro left helper
      rw [System.setApp_same]
      exact ⟨left, helper.leave fun _ _ => AppPc.noConfusion, fun _ _ _ => Nat.le_refl left⟩
    · rw [System.setApp_same]
      exact (ok.pipes i).move (by rw [app]; rfl) rfl
    · intro state running
      rw [System.setApp_same] at running
      exact AppPc.noConfusion running

theorem SystemOk.offer_goes (ok : SystemOk machine s linked inner) {op : Op} (app : s.apps i = .offering op) :
    Goes machine i s linked inner (some (s.offer i op)) [] := by
  have offers : ∀ inserting, (AppPc.offers op inserting).locals = none ∧
      (∀ wanted pc, AppPc.offers op inserting ≠ .searching wanted pc) ∧
      ∀ status, (AppPc.offers op inserting).shown status = status := by
    intro inserting
    cases inserting <;> simp [AppPc.offers, AppPc.locals, AppPc.shown]
  obtain ⟨noLocals, noSearch, noStatus⟩ := offers (s.rings i).inserting
  have pipe := ok.pipes i
  rw [app] at pipe
  refine Goes.quiet linked inner ⟨fun j other => ?_, fun _ _ => rfl,
    .refl ok.layer.list, ?_, ?_, ?_, ?_, id, System.made_quiet _ rfl ?_⟩ ?_
  · exact ⟨System.setApp_other _ i _ other, System.setRing_other s i _ other, rfl, rfl⟩
  · have same := layer_outside machine.head (s := s.setRing i ((s.rings i).appTurn op)) (i := i)
      (by rw [System.setRing_apps, app]; rfl) noLocals
    exact same ▸ ok.layer
  · have kept : ((s.rings i).appTurn op).returned = (s.rings i).returned := by
      cases pc : (s.rings i).inserting <;> grind [Ring.appTurn]
    intro left helper
    simp only [System.offer, System.setApp_same, System.setApp_rings, System.setRing_same, kept]
    exact ⟨left, helper.leave noSearch, fun _ _ _ => Nat.le_refl left⟩
  · simp only [System.offer, System.setApp_same, System.setApp_rings, System.setRing_same]
    exact pipe.offer
  · intro state running
    rw [System.offer, System.setApp_same] at running
    rw [running] at noLocals
    exact absurd noLocals (Option.some_ne_none state)
  · rw [System.offer, System.setApp_same, noLocals, app]
    rfl
  · rw [app, System.offer, System.setApp_same, noStatus]
    exact .stay _ _

theorem SystemOk.app_goes (ok : SystemOk machine s linked inner) (malloc : Malloc) :
    Goes machine i s linked inner (s.app i malloc) (s.emits (.app i malloc)) := by
  cases app : s.apps i with
  | idle =>
      simp only [System.app, System.emits, app]
      exact ok.stays i
  | searching op pc =>
      by_cases returned : ∃ node, pc = .returned node
      · obtain ⟨node, rfl⟩ := returned
        simp only [System.app, System.emits, app]
        exact ok.enter_goes app
      · obtain ⟨e, pc', isEnclave, read, goes⟩ := ok.search_goes app
        rw [System.app_searching malloc app (fun node same => returned ⟨node, same⟩) isEnclave read]
        simp only [System.emits, app]
        exact goes
  | traversing state =>
      by_cases returned : ∃ result, state.pc = .returned result
      · obtain ⟨result, located⟩ := returned
        obtain ⟨pc, f⟩ := state
        subst located
        simp only [System.app, System.emits, app]
        exact ok.finish_goes app
      · have going : ∀ result, state.pc ≠ .returned result := fun result located =>
          returned ⟨result, located⟩
        have silent : s.emits (.app i malloc) = [] := by
          obtain ⟨pc, f⟩ := state
          cases pc <;> simp_all [System.emits]
        rw [silent]
        by_cases assumption : assumed malloc s.nodes state = true
        · obtain ⟨nodes', state', taken, goes⟩ := ok.data_goes app assumption going
          rw [System.app_traversing app going assumption taken]
          exact goes
        · have stays : s.app i malloc = some s := by
            obtain ⟨pc, f⟩ := state
            cases pc <;> simp_all [System.app]
          rw [stays]
          exact ok.stays i
  | offering op =>
      simp only [System.app, System.emits, app]
      exact ok.offer_goes app

/-- A job, a pass or a reset, with the buffer as `opbuffer_remove` has left it. -/
theorem SystemOk.helps_goes (ok : SystemOk machine s linked inner) {ring : Ring} (call : Call)
    (pipe : PipeOk machine.bufSize s.nodes linked ring (s.apps i) (s.updates i))
    (taken : ring.returned.map Op.job = (s.rings i).returned.map Op.job ++ call.asJob.toList)
    (jobOk : ∀ job, call = .job job → JobFor s.nodes linked ⟨job.key, job.node⟩)
    (frees : ∀ e, s.enclave i = some e → e.FreesGiven (machine.platform i) call)
    (clean : call = .pass → ∀ e, s.enclave i = some e → e.CleanPass (machine.platform i).guarded ∧
      ∀ op pc, s.apps i = .searching op pc →
        e.PassesBy (machine.platform i).guarded pc.inodes ∧ e.SearchSpared op.key pc)
    (noSearch : call = .reset → ∀ op pc, s.apps i ≠ .searching op pc) :
    Goes machine i s linked inner ((s.setRing i ring).helps (machine.platform i) i call) [] := by
  obtain ⟨_, start⟩ := (ok.helpers i).at
  obtain ⟨e, _, isEnclave, _⟩ := ok.helpers i
  rw [isEnclave] at start
  have asSeen : s.enclave i = some { e with nodes := s.nodes } := by rw [System.enclave, isEnclave]; rfl
  have list : ListOk machine.head s.nodes linked inner.value := ok.layer.list
  have calls := fun left (helper : HelperAt s.nodes linked (s.rings i).returned (s.apps i) (some e) left) =>
    helper.call (machine.platform i).guarded_honest list taken jobOk (fun isPass => (clean isPass _ asSeen).1)
      (fun isPass => (clean isPass _ asSeen).2) noSearch
  obtain ⟨e', called, levels, _⟩ := calls _ start
  have onward := levels.onward list
  have calledHere := (frees _ asSeen).trans called
  have helped : (s.setRing i ring).helps (machine.platform i) i call =
      some { s.setRing i ring with
        nodes := e'.nodes
        enclaves := Function.update (s.setRing i ring).enclaves i (some e') } := by
    have asSeen' : (s.setRing i ring).enclave i = some { e with nodes := s.nodes } := asSeen
    simp only [System.helps, asSeen', Option.bind_eq_bind, Option.bind_some, calledHere]
  rw [helped]
  refine Goes.quiet linked inner
    ⟨fun j other => ⟨rfl, System.setRing_other s i ring other, Function.update_of_ne other _ _, rfl⟩,
      fun _ _ => rfl, onward, ok.layer.relevel levels, ?_, ?_, fun state => ok.ready i state, id, rfl⟩
    (.stay _ _)
  · intro left helper
    rw [isEnclave] at helper
    obtain ⟨e'', calledToo, _, later⟩ := calls left helper
    obtain rfl := Option.some.inj (called.symm.trans calledToo)
    simp only [System.setRing_same, Function.update_self]
    exact ⟨left, later, fun _ _ _ => Nat.le_refl left⟩
  · rw [System.setRing_same]
    exact pipe.onward onward

theorem SystemOk.handed (ok : SystemOk machine s linked inner) {op : Op}
    (returning : (s.rings i).removing = .returning op) : JobFor s.nodes linked op ∧
      ∃ update ∈ s.updates i, op.node ≠ 0 ↔ update.1.optype = .insert := by
  have pipe := ok.pipes i
  have knows := pipe.ringOk.removing
  rw [returning] at knows
  obtain ⟨update, member, rfl⟩ :=
    List.mem_map.mp (pipe.published_prefix.subset (List.mem_of_getElem? knows))
  have told := pipe.told update member
  exact ⟨told.jobFor, update, member, told.inserts⟩

theorem SystemOk.remove_goes (ok : SystemOk machine s linked inner) (i : Nat)
    (frees : ∀ e op, s.enclave i = some e → (s.rings i).removing = .returning op →
      e.FreesGiven (machine.platform i) (.job op.job)) :
    Goes machine i s linked inner (s.remove (machine.platform i) i) [] := by
  have pipe := (ok.pipes i).remove
  by_cases returning : ∃ op, (s.rings i).removing = .returning op
  · obtain ⟨op, pc⟩ := returning
    simp only [System.remove, pc]
    refine ok.helps_goes _ pipe ?_ (fun job isJob => ?_) (fun e isEnclave => frees e op isEnclave pc)
      nofun nofun
    · simp [Ring.hlpTurn, pc, Call.asJob]
    · obtain rfl := Call.job.inj isJob
      exact (ok.handed pc).1
  · have removes : s.remove (machine.platform i) i = some (s.setRing i (s.rings i).hlpTurn) := by
      cases pc : (s.rings i).removing <;> simp_all [System.remove]
    have kept : (s.rings i).hlpTurn.returned = (s.rings i).returned := by
      cases pc : (s.rings i).removing <;> grind [Ring.hlpTurn]
    rw [removes]
    refine Goes.quiet linked inner
      ⟨fun j other => ⟨rfl, System.setRing_other s i _ other, rfl, rfl⟩, fun _ _ => rfl,
        .refl ok.layer.list, ok.layer, ?_, ?_, ok.ready i, id, rfl⟩ (.stay _ _)
    · intro left helper
      rw [System.setRing_same, kept]
      exact ⟨left, helper, fun _ _ _ => Nat.le_refl left⟩
    · rw [System.setRing_same]
      exact pipe

theorem SystemOk.between_goes (ok : SystemOk machine s linked inner) {call : Call}
    (noJob : call.asJob = none)
    (frees : ∀ e, s.enclave i = some e → (s.rings i).removing = .idle →
      e.FreesGiven (machine.platform i) call)
    (clean : call = .pass → ∀ e, s.enclave i = some e → (s.rings i).removing = .idle →
      e.CleanPass (machine.platform i).guarded ∧ ∀ op pc, s.apps i = .searching op pc →
        e.PassesBy (machine.platform i).guarded pc.inodes ∧ e.SearchSpared op.key pc)
    (noSearch : call = .reset → ∀ op pc, s.apps i ≠ .searching op pc) :
    Goes machine i s linked inner (s.between (machine.platform i) i call) [] := by
  by_cases idle : (s.rings i).removing = .idle
  · have same : s.setRing i (s.rings i) = s := by
      rw [System.setRing, Function.update_eq_self]
    have goes := ok.helps_goes call (ok.pipes i) (by rw [noJob]; simp)
      (fun job isJob => by rw [isJob] at noJob; exact absurd noJob (Option.some_ne_none job))
      (fun e isEnclave => frees e isEnclave idle) (fun isPass e isEnclave => clean isPass e isEnclave idle) noSearch
    rw [same] at goes
    simp only [System.between, idle]
    exact goes
  · have stays : s.between (machine.platform i) i call = some s := by
      cases pc : (s.rings i).removing <;> simp_all [System.between]
    rw [stays]
    exact ok.stays i

theorem SystemOk.act_goes (ok : SystemOk machine s linked inner) (act : SystemAct)
    (undisturbed : s.Undisturbed machine act) :
    Goes machine act.enclave s linked inner (s.act machine act) (s.emits act) := by
  cases act with
  | call i optype key => exact ok.call_goes optype undisturbed
  | app i malloc => exact ok.app_goes malloc
  | remove i => exact ok.remove_goes i undisturbed
  | pass i =>
      exact ok.between_goes rfl (fun e isEnclave idle => (undisturbed e isEnclave idle).1)
        (fun _ e isEnclave idle => (undisturbed e isEnclave idle).2) nofun
  | reset i => exact ok.between_goes rfl undisturbed.1 nofun fun _ => undisturbed.2

end Steps

theorem SystemOk.initial (machine : Machine)
    (begun : ∀ i, machine.startSystem.enclaves i = Enclave.threadInit (machine.platform i).guarded
      (DataLayer.new machine.head).nodes machine.head) :
    SystemOk machine machine.startSystem [machine.head] (atomicInitial keySet) := by
  have started := Consistent.initial machine.guarded
  refine ⟨Agrees.initial machine.nonzero, fun i => ?_, fun i => PipeOk.initial machine.positive, ?_,
    fun key none => absurd none (Finset.notMem_empty key), fun threads _ => ?_⟩
  · obtain ⟨node, found, _⟩ := started.list.found List.mem_cons_self
    have key : node.key = 0 := (keyAt_found found).symm.trans started.list.headKey
    obtain ⟨e, l, begins, nodes, repr, absEq, base⟩ :=
      threadInit_refines (machine.guarded.honest i) found key
    refine ⟨e, l, (begun i).trans begins, ?_, ?_, ?_, fun _ _ => AppPc.noConfusion⟩
    · change Repr { e with nodes := machine.guarded.start.nodes } l
      rw [← nodes]
      exact repr
    · intro p member
      rw [base p member]
      exact List.mem_singleton_self _
    · rw [absEq]
      exact calls_replay id []
  · exact fun i state running => AppPc.noConfusion running
  · exact (Finset.sum_eq_zero fun i _ => rfl).symm

/-- A run keeps what its actions keep. -/
theorem SystemOk.run {machine : Machine} (acts : List SystemAct) : ∀ s linked inner,
    SystemOk machine s linked inner →
    Runs.Along (System.turn machine) (fun state act => ∀ s, state = some s → s.Undisturbed machine act)
      (some s) acts →
    ∃ s' linked' inner', Runs.run (System.turn machine) (some s) acts = some s' ∧
      SystemOk machine s' linked' inner' ∧ AtomicRun keySet (s.shown inner)
        (history (System.turn machine) (fun state act => state.elim [] (·.emits act)) (some s) acts)
        (s'.shown inner') := by
  induction acts with
  | nil => exact fun s linked inner ok _ => ⟨s, linked, inner, rfl, ok, .done _⟩
  | cons act rest ih =>
      rintro s linked inner ok ⟨now, later⟩
      obtain ⟨middle, linked₁, inner₁, acted, moves, first⟩ := ok.act_goes act (now s rfl)
      have turned : System.turn machine (some s) act = some middle := acted
      rw [turned] at later
      obtain ⟨s', linked', inner', ran, ok', second⟩ := ih middle linked₁ inner₁ (moves.ok ok) later
      refine ⟨s', linked', inner', ?_, ok', ?_⟩
      · rw [Runs.run_cons, turned]
        exact ran
      · rw [history, turned]
        exact first.trans second

def System.stays (machine : Machine) (s : System) : SystemAct → Bool
  | .call _ _ key => 1 ≤ key
  | .app _ _ => true
  | .remove i => (s.enclave i).all fun e =>
      match (s.rings i).removing with
      | .returning op => decide (e.FreesGiven (machine.platform i) (.job op.job))
      | _ => true
  | .pass i => (s.enclave i).all fun e => decide (e.FreesGiven (machine.platform i) .pass) &&
      (e.lowersAt (machine.platform i).guarded).isNone &&
      match s.apps i with
      | .searching _ pc => decide (pc.inodes ≠ [])
      | _ => true
  | .reset i => (s.enclave i).all (fun e => decide (e.FreesGiven (machine.platform i) .reset)) &&
      match s.apps i with
      | .searching _ _ => false
      | _ => true

theorem System.undisturbed_of_stays {machine : Machine} {s : System} {act : SystemAct}
    (stays : s.stays machine act = true) : s.Undisturbed machine act := by
  cases act with
  | call i optype key =>
      have positive : decide (1 ≤ key) = true := stays
      have named : 1 ≤ key := of_decide_eq_true positive
      exact named
  | app i malloc => exact trivial
  | remove i =>
      intro e op isEnclave returning
      simpa [System.stays, isEnclave, returning] using stays
  | reset i =>
      simp only [System.stays, Bool.and_eq_true] at stays
      refine ⟨fun e isEnclave _ => ?_, fun op pc searching => ?_⟩
      · simpa [isEnclave] using stays.1
      · simp [searching] at stays
  | pass i =>
      intro e isEnclave _
      simp only [System.stays, isEnclave, Option.all_some, Bool.and_eq_true, decide_eq_true_eq,
        Option.isNone_iff_eq_none] at stays
      obtain ⟨⟨frees, notLowered⟩, inIndex⟩ := stays
      exact ⟨frees, Enclave.cleanPass_of_stays notLowered, fun op pc searching =>
        ⟨Enclave.passesBy_of_stays notLowered _,
          Enclave.searchSpared_in_index op.key (by simpa [searching] using inIndex)⟩⟩

def numaMachine : Machine := { numaHost.toMachine with platform := fun _ => numa }

def accessesOf (count enclave key : Nat) : List SystemAct :=
  List.replicate count (.app enclave ⟨1000 + key, ⟨0, 0, 0, 0, 0⟩⟩)

/-- Enclave 0 looks for 5 in its index while enclave 1 deletes it and the index is raised. -/
def raisedDuringContains : List SystemAct :=
  ((List.range' 1 6).flatMap fun key => .call 0 .insert key :: accessesOf 60 0 key) ++
    List.replicate 45 (.remove 0) ++ [.call 0 .contains 5, .call 1 .delete 5] ++ accessesOf 1 0 5 ++
    [.pass 0] ++ accessesOf 40 1 5 ++ accessesOf 60 0 5

theorem raisedDuringContains_undisturbed : numaMachine.Undisturbed raisedDuringContains := by
  have stays : Runs.Along (System.turn numaMachine)
      (fun state act => state.all (·.stays numaMachine act) = true) (some numaMachine.startSystem)
      raisedDuringContains := by decide +kernel
  refine ⟨fun i => rfl, Runs.Along.imp ?_ raisedDuringContains stays⟩
  rintro state act stays s rfl
  exact System.undisturbed_of_stays stays

/-- However the loads, stores and compare-and-swaps of the application threads, their helpers' calls of
`opbuffer_remove` and what the helpers do to their enclaves fall, as long as no helper takes the index
from under a search: no thread comes to an access through NULL, and the operations of all enclaves are
linearizable as those of one set of keys. -/
theorem system_linearizable (machine : Machine) {acts : List SystemAct}
    (undisturbed : machine.Undisturbed acts) :
    (∃ s, machine.runSystem acts = some s) ∧ Linearizable keySet (machine.systemHistory acts) := by
  obtain ⟨s, linked, inner, ran, _, atomic⟩ :=
    SystemOk.run acts machine.startSystem [machine.head] _ (SystemOk.initial machine undisturbed.1)
      undisturbed.2
  exact ⟨⟨s, ran⟩, _, atomic⟩

theorem raisedDuringContains_linearizable :
    (∃ s, numaMachine.runSystem raisedDuringContains = some s) ∧
      Linearizable keySet (numaMachine.systemHistory raisedDuringContains) :=
  system_linearizable numaMachine raisedDuringContains_undisturbed

end Hosk
