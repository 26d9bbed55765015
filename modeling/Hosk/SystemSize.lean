import Mathlib.Algebra.BigOperators.Ring.Finset
import Hosk.SystemLinearizable

/-!
The size of the set while application threads and helpers run side by side: what `data_layer_size` counts
when no operation is under way, and what the population by `initial_populate` comes to.
-/

namespace Hosk

open Linearizability

def AppPc.op : AppPc → Option Operation
  | .searching op _ => some op
  | .traversing state => some state.frame.op
  | _ => none

theorem dataStep_sameOp {malloc : Malloc} {nodes nodes' : Nodes} {state state' : Local}
    (step : dataStep malloc nodes state = some (nodes', state')) : state'.frame.op = state.frame.op := by
  obtain ⟨pc, f⟩ := state
  cases pc with
  | newNode stage | newMarker stage =>
      cases stage <;> simp [dataStep, newStep, Option.bind_eq_some_iff] at step <;> grind
  | removeTest =>
      by_cases null : f.ptr = 0 <;> simp [dataStep, null, Option.bind_eq_some_iff] at step <;> grind
  | returned result => exact absurd step (Option.some_ne_none _).symm
  | _ =>
      simp only [dataStep, Option.bind_eq_bind, Option.bind_eq_some_iff] at step
      grind

namespace System

inductive Turned (s : System) (act : SystemAct) (i : Nat) : AppPc → List (Operation × Op) → Prop where
  | same : Turned s act i (s.apps i) (s.updates i)
  | called (optype key pc) : act = .call i optype key → s.apps i = .idle →
      Turned s act i (.searching ⟨optype, key, key⟩ pc) (s.updates i)
  | goes (op pc) : (s.apps i).op = some op → pc.op = some op → Turned s act i pc (s.updates i)
  | updates (op job) : (s.apps i).op = some op →
      Turned s act i (.offering job) (s.updates i ++ [(op, job)])
  | leaves (pc) : pc.op = none → Turned s act i pc (s.updates i)

section Acts

variable {machine : Machine} {s s' : System}

theorem turned_setApp {act : SystemAct} {nodes : Nodes} {i j : Nat} {pc : AppPc}
    (turned : Turned s act i pc (s.updates i)) :
    Turned s act j (({ s with nodes := nodes }.setApp i pc).apps j)
      (({ s with nodes := nodes }.setApp i pc).updates j) := by
  by_cases same : j = i
  · subst same
    rw [setApp_same]
    exact turned
  · rw [setApp_other _ i pc same]
    exact .same

theorem helps_turned {act : SystemAct} {platform : Platform} {ring : Ring} {i j : Nat} {call : Call}
    (helped : (s.setRing i ring).helps platform i call = some s') :
    Turned s act j (s'.apps j) (s'.updates j) := by
  simp only [helps, Option.bind_eq_bind, Option.bind_eq_some_iff, Option.some.injEq] at helped
  obtain ⟨_, _, _, _, rfl⟩ := helped
  exact .same

theorem between_turned {act : SystemAct} {platform : Platform} {i j : Nat} {call : Call}
    (acted : s.between platform i call = some s') : Turned s act j (s'.apps j) (s'.updates j) := by
  simp only [between] at acted
  split at acted
  · simp only [helps, Option.bind_eq_bind, Option.bind_eq_some_iff, Option.some.injEq] at acted
    obtain ⟨_, _, _, _, rfl⟩ := acted
    exact .same
  · obtain rfl := Option.some.inj acted
    exact .same

theorem finish_turned {act : SystemAct} {i result : Nat} {f : Frame} (mine : (s.apps i).op = some f.op)
    (j : Nat) : Turned s act j ((s.finish i result f).apps j) ((s.finish i result f).updates j) := by
  rw [finish]
  split
  · by_cases same : j = i
    · subst same
      simp only [setApp_same, setApp_updates, Function.update_self]
      exact .updates f.op _ mine
    · simp only [setApp_updates, Function.update_of_ne same]
      rw [setApp_other _ i _ same]
      exact .same
  · exact @turned_setApp s _ s.nodes i j _ (.leaves _ rfl)

theorem app_turned {malloc : Malloc} {i : Nat} (acted : s.app i malloc = some s') (j : Nat) :
    Turned s (.app i malloc) j (s'.apps j) (s'.updates j) := by
  cases app : s.apps i with
  | idle =>
      simp only [System.app, app] at acted
      obtain rfl := Option.some.inj acted
      exact .same
  | searching op pc =>
      have mine : (s.apps i).op = some op := by rw [app]; rfl
      by_cases returned : ∃ node, pc = .returned node
      · obtain ⟨node, rfl⟩ := returned
        simp only [System.app, app] at acted
        obtain rfl := Option.some.inj acted
        exact @turned_setApp s _ s.nodes i j _ (.goes op _ mine rfl)
      · have reads : ∃ pc', s' = s.setApp i (.searching op pc') := by
          cases pc <;> simp_all [System.app, Option.bind_eq_some_iff] <;> grind
        obtain ⟨pc', rfl⟩ := reads
        exact @turned_setApp s _ s.nodes i j _ (.goes op _ mine rfl)
  | traversing state =>
      have mine : (s.apps i).op = some state.frame.op := by rw [app]; rfl
      by_cases returned : ∃ result, state.pc = .returned result
      · obtain ⟨result, located⟩ := returned
        obtain ⟨pc, f⟩ := state
        subst located
        simp only [System.app, app] at acted
        obtain rfl := Option.some.inj acted
        exact finish_turned mine j
      · have steps : s.app i malloc = if assumed malloc s.nodes state = true then
            (dataStep malloc s.nodes state).bind fun next =>
              some ({ s with nodes := next.1 }.setApp i (.traversing next.2))
            else some s := by
          obtain ⟨pc, f⟩ := state
          cases pc <;> simp_all [System.app]
        rw [steps] at acted
        split at acted
        · simp only [Option.bind_eq_some_iff, Option.some.injEq] at acted
          obtain ⟨⟨nodes', state'⟩, step, rfl⟩ := acted
          exact turned_setApp (.goes _ _ mine (congrArg some (dataStep_sameOp step)))
        · obtain rfl := Option.some.inj acted
          exact .same
  | offering op =>
      simp only [System.app, app, offer] at acted
      obtain rfl := Option.some.inj acted
      have none : (AppPc.offers op (s.rings i).inserting).op = none := by
        cases (s.rings i).inserting <;> rfl
      by_cases same : j = i
      · subst same
        rw [setApp_same]
        exact .leaves _ none
      · rw [setApp_other _ i _ same]
        exact .same

theorem act_turned {act : SystemAct} (acted : s.act machine act = some s') (j : Nat) :
    Turned s act j (s'.apps j) (s'.updates j) := by
  cases act with
  | call i optype key =>
      cases app : s.apps i with
      | idle =>
          simp only [System.act, System.call, app] at acted
          simp only [Option.bind_eq_bind, Option.bind_eq_some_iff, Option.some.injEq] at acted
          obtain ⟨e, _, rfl⟩ := acted
          by_cases same : j = i
          · subst same
            rw [setApp_same]
            exact .called optype key _ rfl app
          · rw [setApp_other _ i _ same]
            exact .same
      | searching _ _ | traversing _ | offering _ =>
          simp only [System.act, System.call, app] at acted
          obtain rfl := Option.some.inj acted
          exact .same
  | app i malloc => exact app_turned acted j
  | remove i =>
      simp only [System.act, remove] at acted
      split at acted
      · exact helps_turned acted
      · obtain rfl := Option.some.inj acted
        exact .same
  | pass i => exact between_turned acted
  | reset i => exact between_turned acted

theorem run_holds {holds : System → Prop} {allowed : System → SystemAct → Prop}
    (keeps : ∀ s act s', holds s → allowed s act → s.act machine act = some s' → holds s')
    (acts : List SystemAct) : ∀ s s', holds s →
      Runs.Along (turn machine) (fun state act => ∀ s, state = some s → allowed s act) (some s) acts →
      Runs.run (turn machine) (some s) acts = some s' → holds s' := by
  have stuck : ∀ acts, Runs.run (turn machine) none acts = none := by
    intro acts
    induction acts with
    | nil => rfl
    | cons act rest ih => exact ih
  induction acts with
  | nil =>
      intro s s' base _ ran
      obtain rfl := Option.some.inj ran
      exact base
  | cons act rest ih =>
      rintro s s' base ⟨now, later⟩ ran
      rw [Runs.run_cons] at ran
      cases acted : turn machine (some s) act with
      | none =>
          rw [acted, stuck] at ran
          exact absurd ran.symm (Option.some_ne_none s')
      | some middle =>
          rw [acted] at ran later
          exact ih middle s' (keeps s act middle base (now s rfl) acted) later ran

end Acts

def Within (threads : Finset Nat) (s : System) : Prop :=
  ∀ i, i ∉ threads → (s.apps i).op = none ∧ s.updates i = []

theorem Within.made {threads : Finset Nat} {s : System} (within : s.Within threads) (i : Nat)
    (outside : i ∉ threads) : s.made i = 0 := by
  obtain ⟨noOp, noUpdates⟩ := within i outside
  have noLocals : (s.apps i).locals = none := by
    cases app : s.apps i with
    | traversing state =>
        rw [app] at noOp
        exact absurd noOp (Option.some_ne_none _)
    | _ => rfl
  rw [System.made, counted, counted, noUpdates, noLocals]
  rfl

theorem made_outside {s : System} {i : Nat} (outside : (s.apps i).locals = none) :
    s.made i = (s.counted i .insert : Int) - s.counted i .delete := by
  rw [System.made, outside]
  exact Int.add_zero _

end System

def SystemAct.By (threads : Finset Nat) : SystemAct → Prop
  | .call i _ _ => i ∈ threads
  | _ => True

instance (threads : Finset Nat) : ∀ act : SystemAct, Decidable (act.By threads)
  | .call i _ _ => inferInstanceAs (Decidable (i ∈ threads))
  | .app _ _ | .remove _ | .pass _ | .reset _ => inferInstanceAs (Decidable True)

theorem System.Within.act {machine : Machine} {threads : Finset Nat} {s s' : System} {act : SystemAct}
    (within : s.Within threads) (caller : act.By threads) (acted : s.act machine act = some s') :
    s'.Within threads := by
  intro i outside
  obtain ⟨noOp, noUpdates⟩ := within i outside
  have turned := System.act_turned acted i
  generalize s'.apps i = app, s'.updates i = updates at turned ⊢
  cases turned with
  | same => exact ⟨noOp, noUpdates⟩
  | called optype key pc isCall _ =>
      subst isCall
      exact absurd caller outside
  | goes op pc mine _ | updates op job mine => exact absurd (noOp.symm.trans mine) (Option.some_ne_none op).symm
  | leaves pc none => exact ⟨none, noUpdates⟩

/-- Whenever no operation is under way, the size is what the threads' counts of what they have added and
removed make it. -/
theorem data_layer_size_counted (machine : Machine) {acts : List SystemAct} (undisturbed : machine.Undisturbed acts)
    (threads : Finset Nat) (callers : ∀ act ∈ acts, act.By threads) : ∃ s, machine.runSystem acts = some s ∧
    ((∀ i ∈ threads, (s.apps i).locals = none) → ∃ size, dataLayerSize s.nodes machine.head true = some size ∧
      (size : Int) = ∑ i ∈ threads, ((s.counted i .insert : Int) - s.counted i .delete)) := by
  obtain ⟨s, linked, inner, ran, ok, _⟩ :=
    SystemOk.run acts machine.startSystem [machine.head] _ (SystemOk.initial machine undisturbed.1)
      undisturbed.2
  refine ⟨s, ran, fun outside => ?_⟩
  have within : s.Within threads := by
    refine System.run_holds (fun _ _ _ holds caller acted => System.Within.act holds caller acted) acts _ s
      (fun _ _ => ⟨rfl, rfl⟩) ?_ ran
    exact Runs.Along.of_mem acts fun state act member s _ => callers act member
  have list : ListOk machine.head s.nodes linked inner.value := ok.layer.list
  refine ⟨_, dataLayerSize_returns list ok.positive, ?_⟩
  rw [ok.size threads within.made]
  exact Finset.sum_congr rfl fun i member => System.made_outside (outside i member)

-- both threads have stopped, five of the six keys are left
theorem raisedDuringContains_counted : (∀ act ∈ raisedDuringContains, act.By {0, 1}) ∧
    ∃ s, numaMachine.runSystem raisedDuringContains = some s ∧ s.counted 0 .insert = 6 ∧
      s.counted 1 .delete = 1 ∧ ∃ size, dataLayerSize s.nodes numaMachine.head true = some size ∧
      (size : Int) = ∑ i ∈ ({0, 1} : Finset Nat), ((s.counted i .insert : Int) - s.counted i .delete) := by
  have callers : ∀ act ∈ raisedDuringContains, act.By {0, 1} := by decide +kernel
  have ended : (numaMachine.runSystem raisedDuringContains).all (fun s =>
      (s.apps 0).locals.isNone && (s.apps 1).locals.isNone && s.counted 0 .insert == 6 &&
        s.counted 1 .delete == 1) = true := by decide +kernel
  obtain ⟨s, ran, counted⟩ := data_layer_size_counted numaMachine raisedDuringContains_undisturbed {0, 1} callers
  rw [ran] at ended
  simp only [Option.all_some, Bool.and_eq_true, Option.isNone_iff_eq_none, beq_iff_eq] at ended
  obtain ⟨⟨⟨first, second⟩, inserted⟩, deleted⟩ := ended
  refine ⟨callers, s, ran, inserted, deleted, counted fun i member => ?_⟩
  rcases Finset.mem_insert.mp member with rfl | last
  · exact first
  · exact Finset.mem_singleton.mp last ▸ second

/-- `if(j < m) num_to_pop = d + 1; else num_to_pop = d;` -/
def numToPop (initial nbThreads j : Nat) : Nat :=
  if j < initial % nbThreads then initial / nbThreads + 1 else initial / nbThreads

theorem sum_numToPop {nbThreads : Nat} (some : 0 < nbThreads) (initial : Nat) :
    ∑ j ∈ Finset.range nbThreads, numToPop initial nbThreads j = initial := by
  have first : (Finset.range nbThreads).filter (· < initial % nbThreads) =
      Finset.range (initial % nbThreads) := by
    have below := Nat.mod_lt initial some
    ext j
    simp only [Finset.mem_filter, Finset.mem_range]
    omega
  calc ∑ j ∈ Finset.range nbThreads, numToPop initial nbThreads j
      = ∑ j ∈ Finset.range nbThreads,
          (initial / nbThreads + if j < initial % nbThreads then 1 else 0) := by
        refine Finset.sum_congr rfl fun j _ => ?_
        rw [numToPop]
        split <;> rfl
    _ = nbThreads * (initial / nbThreads) + initial % nbThreads := by
        rw [Finset.sum_add_distrib, ← Finset.card_filter, first, Finset.card_range,
          Finset.sum_const_nat fun _ _ => rfl, Finset.card_range]
    _ = initial := Nat.div_add_mod initial nbThreads

namespace System

/-- The calls of `initial_populate`: `while(i < obj->num_populate)`, where `i` counts the insertions that
have succeeded. -/
def populates (initial nbThreads : Nat) (s : System) : SystemAct → Bool
  | .call i optype _ =>
      match s.apps i with
      | .idle => i < nbThreads && optype == .insert && (s.updates i).length < numToPop initial nbThreads i
      | _ => true
  | _ => true

structure Populating (quota : Nat) (app : AppPc) (updates : List (Operation × Op)) : Prop where
  inserts : ∀ update ∈ updates, update.1.optype = .insert
  atMost : updates.length ≤ quota
  another : ∀ op, app.op = some op → op.optype = .insert ∧ updates.length < quota

def quota (initial nbThreads i : Nat) : Nat := if i < nbThreads then numToPop initial nbThreads i else 0

theorem act_populating {machine : Machine} {initial nbThreads : Nat} {s s' : System} {act : SystemAct}
    (ok : ∀ i, Populating (quota initial nbThreads i) (s.apps i) (s.updates i))
    (populates : s.populates initial nbThreads act = true) (acted : s.act machine act = some s') (i : Nat) :
    Populating (quota initial nbThreads i) (s'.apps i) (s'.updates i) := by
  have mine := ok i
  have turned := act_turned acted i
  generalize s'.apps i = app, s'.updates i = updates at turned ⊢
  cases turned with
  | same => exact mine
  | called optype key pc isCall idle =>
      subst isCall
      simp only [System.populates, idle, Bool.and_eq_true, decide_eq_true_eq, beq_iff_eq] at populates
      obtain ⟨⟨inside, isInsert⟩, fewer⟩ := populates
      refine ⟨mine.inserts, mine.atMost, fun op isOp => ?_⟩
      obtain rfl := Option.some.inj isOp
      exact ⟨isInsert, by rwa [quota, if_pos inside]⟩
  | goes op pc before after =>
      refine ⟨mine.inserts, mine.atMost, fun other isOther => ?_⟩
      obtain rfl := Option.some.inj (after.symm.trans isOther)
      exact mine.another op before
  | updates op job before =>
      obtain ⟨isInsert, fewer⟩ := mine.another op before
      refine ⟨fun update member => ?_, ?_, fun other isOther => absurd isOther (Option.some_ne_none other).symm⟩
      · rcases List.mem_append.mp member with old | new
        · exact mine.inserts update old
        · rw [List.mem_singleton.mp new]
          exact isInsert
      · rw [List.length_append, List.length_singleton]
        omega
  | leaves pc none =>
      exact ⟨mine.inserts, mine.atMost, fun op isOp => absurd (none.symm.trans isOp) (Option.some_ne_none op).symm⟩

theorem populating_start (machine : Machine) {initial nbThreads : Nat} (i : Nat) : Populating
    (quota initial nbThreads i) (machine.startSystem.apps i) (machine.startSystem.updates i) :=
  ⟨fun _ none => absurd none List.not_mem_nil, Nat.zero_le _,
    fun op isOp => absurd isOp (Option.some_ne_none op).symm⟩

theorem Populating.counted {s : System} {quota i : Nat} (ok : Populating quota (s.apps i) (s.updates i)) :
    s.counted i .insert = (s.updates i).length ∧ s.counted i .delete = 0 := by
  constructor
  · rw [System.counted, List.countP_eq_length]
    exact fun update member => decide_eq_true (ok.inserts update member)
  · rw [System.counted, List.countP_eq_zero]
    intro update member isDelete
    rw [ok.inserts update member] at isDelete
    exact absurd isDelete (by decide)

end System

/-- All calls are those of the population. -/
def Machine.Populates (machine : Machine) (initial nbThreads : Nat) (acts : List SystemAct) : Prop :=
  Runs.Along (System.turn machine) (fun state act => ∀ s, state = some s → s.populates initial nbThreads act = true)
    (some machine.startSystem) acts

theorem Machine.Populates.populating {machine : Machine} {initial nbThreads : Nat} {acts : List SystemAct} {s : System}
    (populates : machine.Populates initial nbThreads acts) (ran : machine.runSystem acts = some s) :
    (∀ i, System.Populating (System.quota initial nbThreads i) (s.apps i) (s.updates i)) ∧
      s.Within (Finset.range nbThreads) := by
  have populating : ∀ i, System.Populating (System.quota initial nbThreads i) (s.apps i) (s.updates i) := by
    exact System.run_holds (fun _ _ _ holds populates acted => System.act_populating holds populates acted)
      acts _ s (System.populating_start machine) populates ran
  refine ⟨populating, fun i outside => ?_⟩
  have none : System.quota initial nbThreads i = 0 := if_neg (Finset.mem_range.not.mp outside)
  have mine := populating i
  rw [none] at mine
  refine ⟨?_, List.eq_nil_of_length_eq_zero (Nat.le_zero.mp mine.atMost)⟩
  cases isOp : (s.apps i).op with
  | none => rfl
  | some op => exact absurd (mine.another op isOp).2 (Nat.not_lt_zero _)

theorem System.Populating.share {initial nbThreads i : Nat} {s : System}
    (mine : System.Populating (System.quota initial nbThreads i) (s.apps i) (s.updates i))
    (below : i < nbThreads) (enough : numToPop initial nbThreads i ≤ (s.updates i).length) :
    s.counted i .insert = numToPop initial nbThreads i ∧ s.counted i .delete = 0 := by
  obtain ⟨inserted, deleted⟩ := mine.counted
  have atMost := mine.atMost
  rw [System.quota, if_pos below] at atMost
  exact ⟨inserted.trans (Nat.le_antisymm atMost enough), deleted⟩

theorem population_size (machine : Machine) {initial nbThreads : Nat} (threads : 0 < nbThreads)
    {acts : List SystemAct} (undisturbed : machine.Undisturbed acts)
    (populates : machine.Populates initial nbThreads acts) : ∃ s, machine.runSystem acts = some s ∧
    ((∀ i < nbThreads, (s.apps i).locals = none ∧ numToPop initial nbThreads i ≤ (s.updates i).length) →
      dataLayerSize s.nodes machine.head true = some initial) := by
  obtain ⟨s, linked, inner, ran, ok, _⟩ :=
    SystemOk.run acts machine.startSystem [machine.head] _ (SystemOk.initial machine undisturbed.1)
      undisturbed.2
  refine ⟨s, ran, fun ended => ?_⟩
  obtain ⟨populating, within⟩ := populates.populating ran
  have list : ListOk machine.head s.nodes linked inner.value := ok.layer.list
  have share : ∀ i ∈ Finset.range nbThreads, s.made i = (numToPop initial nbThreads i : Int) := by
    intro i member
    have below := Finset.mem_range.mp member
    obtain ⟨inserted, deleted⟩ := (populating i).share below (ended i below).2
    rw [System.made_outside (ended i below).1, inserted, deleted]
    exact Int.sub_zero _
  have size := ok.size _ within.made
  rw [Finset.sum_congr rfl share, ← Nat.cast_sum, sum_numToPop threads] at size
  rw [dataLayerSize_returns list ok.positive]
  exact congrArg some (Int.ofNat.inj size)

def sharedPopulation : List SystemAct :=
  [.call 1 .insert 4] ++ accessesOf 5 1 4 ++ [.call 0 .insert 4] ++ accessesOf 60 0 4 ++ accessesOf 60 1 4 ++
    [.call 1 .insert 9, .call 0 .insert 2] ++ accessesOf 5 1 9 ++ accessesOf 60 0 2 ++ accessesOf 60 1 9 ++
    [.pass 0, .pass 1]

theorem sharedPopulation_populates :
    numaMachine.Undisturbed sharedPopulation ∧ numaMachine.Populates 3 2 sharedPopulation := by
  have stays : Runs.Along (System.turn numaMachine)
      (fun state act => state.all (fun s => s.stays numaMachine act && s.populates 3 2 act) = true)
      (some numaMachine.startSystem) sharedPopulation := by decide +kernel
  refine ⟨⟨fun i => rfl, ?_⟩, ?_⟩
  · refine Runs.Along.imp ?_ sharedPopulation stays
    rintro state act stays s rfl
    exact System.undisturbed_of_stays (Bool.and_eq_true_iff.mp stays).1
  · refine Runs.Along.imp ?_ sharedPopulation stays
    rintro state act stays s rfl
    exact (Bool.and_eq_true_iff.mp stays).2

end Hosk
