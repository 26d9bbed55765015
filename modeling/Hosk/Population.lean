import Hosk.CounterLimit
import Hosk.SystemAllocators
import Hosk.SystemSize

/-! The initial population: nothing is deleted, no pass lowers an index, and so none disturbs a search. No
block is freed either, so of the allocators it only matters where they place blocks. -/

namespace Hosk

open Linearizability

/-- What an allocator has done that has been given no block back. -/
inductive Platform.Grown (platform : Platform) : List Event → Prop where
  | nil : Grown platform []
  | inodeNew {e : Enclave} (marked : Bool) : Grown platform e.trace →
      Grown platform (.inodeNew (platform.place e) marked :: e.trace)
  | mnodeNew {e : Enclave} : Grown platform e.trace →
      Grown platform (.mnodeNew (platform.place e) :: e.trace)
  | unlink {older : List Event} (address : Nat) : Grown platform older →
      Grown platform (.unlink address :: older)

/-- As long as no block is given back, each one is placed where none is. -/
def Platform.Fresh (platform : Platform) : Prop :=
  ∀ e : Enclave, platform.Grown e.trace → platform.place e ≠ 0 ∧ platform.place e ∉ live e.trace

theorem Platform.Grown.tidy {trace : List Event} (grown : numa.Grown trace) : Tidy trace := by
  induction grown with
  | nil => exact trivial
  | inodeNew marked _ earlier | mnodeNew _ earlier => exact ⟨rfl, earlier⟩
  | unlink address _ earlier => exact earlier

theorem numa_fresh : numa.Fresh := by
  intro e grown
  obtain ⟨positive, behind⟩ := grown.tidy.bumped.allocated
  exact ⟨Nat.ne_of_gt positive, fun alive => Nat.lt_irrefl _ (behind _ alive)⟩

theorem Platform.Fresh.agree {platform : Platform} (fresh : platform.Fresh) :
    platform.Agree platform.guarded platform.Grown where
  int := rfl
  place grown := (if_neg (not_or.mpr (fresh _ grown))).symm
  inodeNew marked grown := .inodeNew marked grown
  mnodeNew grown := .mnodeNew grown
  unlink address grown := .unlink address grown

namespace Replays

variable {jobs : List Job} {entries : List Entry}

theorem unmarked (replays : Replays jobs entries) (inserts : ∀ job ∈ jobs, job.node ≠ 0) :
    ∀ entry ∈ entries, entry.marked = false := by
  intro entry member
  obtain ⟨job, latest, marked⟩ := replays.latest entry member
  rw [marked]
  exact decide_eq_false (inserts job (latestJob_key latest).1)

theorem length_le (replays : Replays jobs entries) : entries.length ≤ jobs.length := by
  have keys : entries.map Entry.key ⊆ jobs.map Job.key := by
    intro key member
    obtain ⟨entry, inEntries, rfl⟩ := List.mem_map.mp member
    obtain ⟨job, inJobs, same, _⟩ := replays.inserted entry inEntries
    exact same ▸ List.mem_map_of_mem inJobs
  simpa using ((keys_nodup replays.sorted).subperm keys).length_le

end Replays

namespace Repr

variable {e : Enclave} {l : Layout} {known : Nat → Prop} {key left : Nat} {pc : SearchPc}

theorem lists_spared (repr : Repr e l) (unmarked : ∀ entry ∈ (abs e l).entries, entry.marked = false)
    {mnode here : Nat} (lists : l.Lists mnode here) : e.Spared mnode := by
  intro stored found ⟨_, marked⟩
  obtain ⟨entry, next, member, _, stored'⟩ := repr.lists_stored lists
  obtain rfl := Option.some.inj (stored'.symm.trans found)
  obtain ⟨node, rest, split⟩ := repr.intermed.first
  rw [split] at member
  rcases List.mem_cons.mp member with isFirst | inRest
  · obtain ⟨_, rfl⟩ := Prod.mk.inj isFirst
    exact Bool.false_ne_true marked
  · have listed : entry ∈ (abs e l).entries := by
      rw [abs, split]
      exact List.mem_map_of_mem inRest
    exact Bool.false_ne_true ((unmarked entry listed).symm.trans marked)

theorem lists_ahead (repr : Repr e l) {mnode here later there : Nat} (lists : l.Lists mnode here)
    (listsLater : l.Lists later there) (before : here < there) : ∃ next onward, l.Lists next onward ∧
      onward ≤ there ∧ e.Behind mnode next := by
  obtain ⟨entry, next, onward, stored, nonzero, listsNext, _, within⟩ :=
    repr.lists_next lists listsLater before
  have leads : nextAt e.mnodes mnode = some next := by
    rw [nextAt, show Store.get e.mnodes mnode = some (entry.at next) from stored]
    rfl
  exact ⟨next, onward, listsNext, within, next, leads, nonzero, .refl⟩

/-- Where nothing is marked, no search loses what it stands on. -/
theorem searchSpared_of_unmarked (repr : Repr e l)
    (unmarked : ∀ entry ∈ (abs e l).entries, entry.marked = false)
    (stands : Standing known e l key pc left) : e.SearchSpared key pc := by
  have spared : ∀ {mnode here}, l.Lists mnode here → e.Spared mnode := repr.lists_spared unmarked
  cases pc with
  | right _ | rightKey _ _ | rightKeyAgain _ _ | down _ | intermed _ | returned _ => exact trivial
  | next mnode | node mnode =>
      obtain ⟨here, lists, _⟩ := stands
      exact spared lists
  | nextAgain mnode =>
      obtain ⟨here, later, there, lists, _, listsLater, greater, _⟩ := stands
      obtain ⟨next, onward, listsNext, _, behind⟩ := repr.lists_ahead lists listsLater greater
      exact ⟨spared lists, next, behind, spared listsNext⟩
  | nextKey mnode next =>
      obtain ⟨here, there, lists, _, listsNext, _⟩ := stands
      exact ⟨spared lists, spared listsNext⟩
  | advance mnode =>
      obtain ⟨here, later, there, lists, _, listsLater, greater, notPast, _⟩ := stands
      obtain ⟨next, onward, listsNext, within, behind⟩ := repr.lists_ahead lists listsLater greater
      obtain ⟨entry, _, _, isKey, stored⟩ := repr.lists_stored listsNext
      refine ⟨spared lists, next, _, behind, stored, ?_, spared listsNext⟩
      show entry.key ≤ key
      omega

section Agree

variable {platform other : Platform} {held : List Event → Prop}

theorem travMnodesLoop_agree (agree : platform.Agree other held) (todo : List (Nat × Entry)) :
    ∀ fuel e l before p, Repr e l → held e.trace → l.mnodes = before ++ p :: todo →
      (∀ q ∈ todo, q.2.marked = false) →
      Twins (e.travMnodesLoop platform fuel p.1 (firstOf todo))
        (e.travMnodesLoop other fuel p.1 (firstOf todo)) fun e' => held e'.trace := by
  induction todo with
  | nil =>
      intro fuel e l before p _ holds _ _
      cases fuel with
      | zero => exact .one (.none _)
      | succ fuel => exact .some holds
  | cons q rest ih =>
      intro fuel e l before p repr holds split unmarked
      cases fuel with
      | zero => exact .one (.none _)
      | succ fuel =>
          have nonzero : q.1 ≠ 0 := repr.intermed.nonzero (by simp [split])
          have behind : l.mnodes = (before ++ [p]) ++ q :: rest := by simp [split]
          have stored : e.mnode q.1 = some (q.2.at (firstOf rest)) := repr.intermed.at_split behind
          have stays : q.2.stays = true := by simp [Entry.stays, unmarked q List.mem_cons_self]
          have counts : e.countMnode platform (q.2.at (firstOf rest)) =
              e.countMnode other (q.2.at (firstOf rest)) := by
            rw [Enclave.countMnode, Enclave.countMnode, agree.int]
          obtain ⟨counted, _⟩ := repr.countMnode_repr other q.2 (firstOf rest)
          rw [firstOf_cons, Enclave.travMnodesLoop, Enclave.travMnodesLoop, if_neg nonzero, if_neg nonzero,
            repr.bgMremove_keeps platform behind stays, repr.bgMremove_keeps other behind stays]
          simp only [Option.bind_eq_bind, Option.bind_some, Bool.false_eq_true, if_false, stored, counts]
          refine ih fuel _ l (before ++ [p]) q counted ?_ behind fun later member =>
            unmarked later (List.mem_cons_of_mem _ member)
          rw [Enclave.countMnode]
          split
          · exact holds
          split <;> exact holds

theorem raiseIndexLayer_agree (agree : platform.Agree other held) (repr : Repr e l) (holds : held e.trace)
    (unmarked : ∀ entry ∈ (abs e l).entries, entry.marked = false) :
    Twins (e.raiseIndexLayer platform) (e.raiseIndexLayer other) fun ended => held ended.2.trace := by
  refine Enclave.raiseIndexLayer_twins agree ?_
  obtain ⟨_, inode, _, _, _, found, _, isBase⟩ := repr.sentinel
  obtain ⟨node, rest, split⟩ := repr.intermed.first
  have stored : e.mnode l.base = some (Entry.at ⟨0, node, l.rows.length, false⟩ (firstOf rest)) :=
    repr.intermed.at_split (show l.mnodes = [] ++ (l.base, ⟨0, node, l.rows.length, false⟩) :: rest
      from split)
  rw [Enclave.bgTravMnodes, Enclave.bgTravMnodes, found]
  simp only [Option.bind_eq_bind, Option.bind_some, isBase, stored, Entry.at]
  refine travMnodesLoop_agree agree rest (e.mnodes.length + 1) e l []
    (l.base, ⟨0, node, l.rows.length, false⟩) repr holds split fun q member => unmarked q.2 ?_
  rw [abs, split]
  exact List.mem_map_of_mem member

/-- A call of the population on platforms that hand out the same blocks. -/
theorem call_agree (agree : platform.Agree other held) (repr : Repr e l) (holds : held e.trace)
    (unmarked : ∀ entry ∈ (abs e l).entries, entry.marked = false) {call : Call}
    (stays : call = .pass → e.lowersAt other = none) :
    Twins (e.call platform call) (e.call other call) fun e' => held e'.trace := by
  cases call with
  | job job => exact Enclave.updateIntermediateLayer_twins agree holds job
  | reset => exact Enclave.resetIndex_twins agree holds
  | pass =>
      have lowersNot := stays rfl
      have twins := repr.raiseIndexLayer_agree agree holds unmarked
      rw [Enclave.lowersAt] at lowersNot
      show Twins (e.updateIndexLayer platform) (e.updateIndexLayer other) _
      rw [Enclave.updateIndexLayer, Enclave.updateIndexLayer, twins.same]
      cases raised : e.raiseIndexLayer other with
      | none => exact .one (.none _)
      | some ended =>
          rw [raised] at lowersNot
          have notLower : Enclave.lowers other ended.1 ended.2 = none := lowersNot
          have notHere : Enclave.lowers platform ended.1 ended.2 = none := by
            rw [Enclave.lowers, agree.int]
            exact notLower
          simp only [Option.bind_eq_bind, Option.bind_some, notLower, notHere]
          exact .some (twins.ends ended (twins.same.trans raised))

end Agree

end Repr

/-- The counters after so many passes over no more than so many mnodes, none of them marked. -/
structure Enclave.Filling (share passes : Nat) (e : Enclave) : Prop where
  counted : 0 ≤ e.nonDel
  noneTall : e.tallDel = 0
  atMost : e.nonDel ≤ passes * share

namespace Enclave.Filling

variable {e e' : Enclave} {l : Layout} {share passes more : Nat}

theorem mono (filling : e.Filling share passes) (fewer : passes ≤ more) : e.Filling share more := by
  have products := Nat.mul_le_mul_right share fewer
  have atMost := filling.atMost
  exact ⟨filling.counted, filling.noneTall, by omega⟩

theorem undeleted (filling : e.Filling share passes)
    (unmarked : ∀ entry ∈ (abs e l).entries, entry.marked = false) : (abs e l).Undeleted :=
  ⟨unmarked, filling.counted, filling.noneTall⟩

section Calls

variable {platform : Platform}

theorem passExact (repr : Repr e l) (wraps : platform.Wraps32) (filling : e.Filling share passes)
    (unmarked : ∀ entry ∈ (abs e l).entries, entry.marked = false)
    (length : (abs e l).entries.length ≤ share) (few : (passes + 1) * share ≤ counterLimit) :
    e.PassExact platform.guarded := by
  have guarded : platform.guarded.Wraps32 := wraps
  refine repr.passExact_of_fits platform.guarded_honest (filling.undeleted unmarked) (guarded.intFits ?_)
  have counts : unmarkedIn e.listedEntries ≤ share := by
    rw [repr.listedEntries_eq]
    exact List.countP_le_length.trans length
  have atMost := filling.atMost
  rw [Int.add_mul, Int.one_mul] at few
  rw [Enclave.CountFits]
  omega

theorem call (repr : Repr e l) (wraps : platform.Wraps32) (filling : e.Filling share passes)
    (unmarked : ∀ entry ∈ (abs e l).entries, entry.marked = false)
    (length : (abs e l).entries.length ≤ share) {call : Call}
    (jobOk : ∀ job, call = .job job → 1 ≤ job.key ∧
      (job.node ≠ 0 → (Store.get e.nodes job.node).map Node.key = some job.key))
    (inserts : ∀ job, call = .job job → job.node ≠ 0)
    (few : call = .pass → (passes + 1) * share ≤ counterLimit)
    (called : e.call platform.guarded call = some e') :
    e'.Filling share (passes + if call = .pass then 1 else 0) := by
  have isExact := fun isPass => filling.passExact repr wraps unmarked length (few isPass)
  obtain ⟨after, l', called', _, _, undeleted, absEq⟩ :=
    repr.call_undeleted platform.guarded_honest (filling.undeleted unmarked) call jobOk inserts isExact
  obtain rfl := Option.some.inj (called'.symm.trans called)
  have nonDel : after.nonDel = ((abs e l).call platform.guarded.int call).nonDel := by
    rw [← absEq]
    rfl
  refine ⟨undeleted.counted, undeleted.noneTall, ?_⟩
  have atMost := filling.atMost
  cases call with
  | job job | reset =>
      rw [show after.nonDel = e.nonDel from nonDel, if_neg Call.noConfusion]
      exact atMost
  | pass =>
      rw [Index.call, repr.not_lowers platform.guarded_honest (isExact rfl).stays,
        (repr.raised_counts platform.guarded_honest (isExact rfl)).1] at nonDel
      have same : (abs e l).nonDel = e.nonDel := rfl
      have counts : unmarkedIn (abs e l).entries ≤ share := List.countP_le_length.trans length
      rw [nonDel, same, if_pos rfl, Int.natCast_add, Int.add_mul, Int.natCast_one, Int.one_mul]
      omega

end Calls

end Enclave.Filling

def SystemAct.isPassOf (i : Nat) : SystemAct → Bool
  | .pass j => j == i
  | _ => false

/-- The threads draw keys of at least 1, and no index is reset before the population ends. -/
def SystemAct.ofPopulation : SystemAct → Bool
  | .call _ _ key => decide (1 ≤ key)
  | .reset _ => false
  | _ => true

def System.Fills (initial nbThreads : Nat) (passes : Nat → Nat) (s : System) : Prop :=
  ∀ i e, s.enclaves i = some e → e.Filling (quota initial nbThreads i) (passes i)

section Step

variable {machine : Machine} {s s' : System} {linked : List Nat}
  {inner : AtomicState (Finset Nat) Operation Nat} {initial nbThreads i : Nat} {passes : Nat → Nat}
  {act : SystemAct}

/-- The jobs of the helper are insertions, so that nothing is marked. -/
theorem SystemOk.unmarked (ok : SystemOk machine s linked inner) {quota : Nat}
    (populating : System.Populating quota (s.apps i) (s.updates i)) {entries : List Entry}
    (replays : Replays ((s.rings i).returned.map Op.job) entries) :
    (∀ entry ∈ entries, entry.marked = false) ∧ entries.length ≤ quota := by
  have pipe := ok.pipes i
  have returned := pipe.returned_prefix
  constructor
  · refine replays.unmarked fun job member => ?_
    obtain ⟨op, inReturned, rfl⟩ := List.mem_map.mp member
    obtain ⟨update, isUpdate, rfl⟩ := List.mem_map.mp (returned.subset inReturned)
    exact (pipe.told update isUpdate).inserts.mpr (populating.inserts update isUpdate)
  · have length := replays.length_le
    have fewer := returned.length_le
    have atMost := populating.atMost
    rw [List.length_map] at length fewer
    omega

theorem System.Fills.at (fills : s.Fills initial nbThreads passes) {e : Enclave}
    (isEnclave : s.enclave i = some e) : e.Filling (System.quota initial nbThreads i) (passes i) := by
  obtain ⟨before, isBefore, rfl⟩ := Option.map_eq_some_iff.mp isEnclave
  have filling := fills i before isBefore
  exact ⟨filling.counted, filling.noneTall, filling.atMost⟩

def System.Growing (machine : Machine) (s : System) : Prop :=
  s.Traces fun i => (machine.platform i).Grown

theorem System.Fills.undisturbed (fresh : ∀ i, (machine.platform i).Fresh)
    (wraps : ∀ i, (machine.platform i).Wraps32) (ok : SystemOk machine s linked inner)
    (growing : s.Growing machine)
    (populating : ∀ i, System.Populating (System.quota initial nbThreads i) (s.apps i) (s.updates i))
    (fills : s.Fills initial nbThreads passes) (proper : act.ofPopulation = true)
    (few : ∀ i, act = .pass i → (passes i + 1) * System.quota initial nbThreads i ≤ counterLimit) :
    s.Undisturbed machine act ∧ ∀ i call e, s.Helps i act call → s.enclave i = some e →
      Twins (e.call (machine.platform i) call) (e.call (machine.platform i).guarded call)
        fun e' => (machine.platform i).Grown e'.trace := by
  have stays : ∀ i e, act = .pass i → s.enclave i = some e →
      e.lowersAt (machine.platform i).guarded = none := by
    intro i e isPass isEnclave
    obtain ⟨l, repr, replays, _⟩ := ok.seen isEnclave
    obtain ⟨unmarked, length⟩ := ok.unmarked (populating i) replays
    exact ((fills.at isEnclave).passExact repr (wraps i) unmarked length (few i isPass)).stays
  have twins : ∀ i call e, s.Helps i act call → s.enclave i = some e →
      Twins (e.call (machine.platform i) call) (e.call (machine.platform i).guarded call)
        fun e' => (machine.platform i).Grown e'.trace := by
    intro i call e helps isEnclave
    obtain ⟨l, repr, replays, _⟩ := ok.seen isEnclave
    obtain ⟨unmarked, _⟩ := ok.unmarked (populating i) replays
    refine repr.call_agree (fresh i).agree (System.Traces.at growing isEnclave) unmarked ?_
    rintro rfl
    cases helps with
    | pass _ => exact stays i e rfl isEnclave
  refine ⟨?_, twins⟩
  cases act with
  | call i optype key =>
      have positive : 1 ≤ key := by simpa [SystemAct.ofPopulation] using proper
      exact positive
  | app i malloc => exact trivial
  | remove i => exact fun e op isEnclave returning => (twins i _ e (.job returning) isEnclave).same
  | reset i => exact absurd proper Bool.false_ne_true
  | pass i =>
      intro e isEnclave idle
      have notLower := stays i e rfl isEnclave
      refine ⟨(twins i _ e (.pass idle) isEnclave).same, Enclave.cleanPass_of_stays notLower,
        fun op pc searching => ⟨Enclave.passesBy_of_stays notLower _, ?_⟩⟩
      obtain ⟨l, repr, replays, stands⟩ := ok.seen isEnclave
      obtain ⟨left, standing⟩ := stands op pc searching
      exact repr.searchSpared_of_unmarked (ok.unmarked (populating i) replays).1 standing

theorem System.Fills.onward (wraps : ∀ i, (machine.platform i).Wraps32)
    (ok : SystemOk machine s linked inner)
    (populating : ∀ i, System.Populating (System.quota initial nbThreads i) (s.apps i) (s.updates i))
    (fills : s.Fills initial nbThreads passes)
    (few : ∀ i, act = .pass i → (passes i + 1) * System.quota initial nbThreads i ≤ counterLimit)
    (frees : ∀ i call e, s.Helps i act call → s.enclave i = some e →
      e.FreesGiven (machine.platform i) call)
    (acted : s.act machine act = some s') :
    s'.Fills initial nbThreads fun i => passes i + if act.isPassOf i then 1 else 0 := by
  intro j e isEnclave
  cases System.act_changed acted with
  | same kept =>
      rw [kept] at isEnclave
      exact (fills j e isEnclave).mono (Nat.le_add_right _ _)
  | called i call before after helps isBefore called changed =>
      rw [changed] at isEnclave
      by_cases same : j = i
      · subst same
        rw [Function.update_self] at isEnclave
        obtain rfl := Option.some.inj isEnclave
        obtain ⟨l, repr, replays, _⟩ := ok.seen isBefore
        obtain ⟨unmarked, length⟩ := ok.unmarked (populating j) replays
        rw [show before.call _ call = _ from frees j call before helps isBefore] at called
        have nodes : before.nodes = s.nodes := by
          obtain ⟨_, _, rfl⟩ := Option.map_eq_some_iff.mp isBefore
          rfl
        refine ((fills.at isBefore).call repr (wraps j) unmarked length ?_ ?_ ?_ called).mono ?_
        · rintro job rfl
          cases helps with
          | job returning =>
              rw [nodes]
              exact (ok.handed returning).1.stored ok.layer.list
        · rintro job rfl
          cases helps with
          | job returning =>
              obtain ⟨update, isUpdate, inserts⟩ := (ok.handed returning).2
              exact inserts.mpr ((populating j).inserts update isUpdate)
        · rintro rfl
          cases helps with
          | pass _ => exact few j rfl
        · cases helps with
          | job _ | reset _ => exact Nat.le_add_right _ _
          | pass _ => exact Nat.le_of_eq (by simp [SystemAct.isPassOf])
      · rw [Function.update_of_ne same] at isEnclave
        exact (fills j e isEnclave).mono (Nat.le_add_right _ _)

end Step

section Start

variable {machine : Machine}

theorem Machine.starts_growing (fresh : ∀ i, (machine.platform i).Fresh) :
    machine.startSystem.Growing machine ∧ ∀ i, machine.startSystem.enclaves i =
      Enclave.threadInit (machine.platform i).guarded (DataLayer.new machine.head).nodes machine.head := by
  have twins := fun i => Enclave.threadInit_twins (fresh i).agree .nil
    (DataLayer.new machine.head).nodes machine.head
  exact ⟨fun i e isEnclave => (twins i).ends e isEnclave, fun i => (twins i).same⟩

theorem Machine.starts_filling (begins : ∀ i, machine.startSystem.enclaves i =
      Enclave.threadInit (machine.platform i).guarded (DataLayer.new machine.head).nodes machine.head)
    (initial nbThreads : Nat) : machine.startSystem.Fills initial nbThreads fun _ => 0 := by
  intro i e isEnclave
  have started := Consistent.initial machine.guarded
  obtain ⟨node, found, _⟩ := started.list.found List.mem_cons_self
  have key : node.key = 0 := (keyAt_found found).symm.trans started.list.headKey
  obtain ⟨e', l, enters, _, _, absEq, _⟩ := threadInit_refines (machine.guarded.honest i) found key
  obtain rfl := Option.some.inj (enters.symm.trans ((begins i).symm.trans isEnclave))
  have nonDel : e'.nonDel = 0 := congrArg Index.nonDel absEq
  exact ⟨Int.le_of_eq nonDel.symm, congrArg Index.tallDel absEq, by rw [nonDel]; simp⟩

end Start

/-- Nothing disturbs a search of a population, as long as the counts of its passes do not come to the
limit. -/
theorem Machine.Populates.undisturbed {machine : Machine} (fresh : ∀ i, (machine.platform i).Fresh)
    (wraps : ∀ i, (machine.platform i).Wraps32) {initial nbThreads : Nat} {acts : List SystemAct}
    (populates : machine.Populates initial nbThreads acts)
    (proper : ∀ act ∈ acts, act.ofPopulation = true)
    (few : ∀ i, acts.countP (·.isPassOf i) * System.quota initial nbThreads i ≤ counterLimit) :
    machine.Undisturbed acts := by
  have along : ∀ (acts : List SystemAct) (passes : Nat → Nat) s linked inner,
      SystemOk machine s linked inner → s.Growing machine →
      (∀ i, System.Populating (System.quota initial nbThreads i) (s.apps i) (s.updates i)) →
      s.Fills initial nbThreads passes →
      Runs.Along (System.turn machine)
        (fun state act => ∀ s, state = some s → s.populates initial nbThreads act = true) (some s) acts →
      (∀ act ∈ acts, act.ofPopulation = true) →
      (∀ i, (passes i + acts.countP (·.isPassOf i)) * System.quota initial nbThreads i ≤ counterLimit) →
      Runs.Along (System.turn machine) (fun state act => ∀ s, state = some s → s.Undisturbed machine act)
        (some s) acts := by
    intro acts
    induction acts with
    | nil => exact fun _ _ _ _ _ _ _ _ _ _ _ => trivial
    | cons act rest ih =>
        rintro passes s linked inner ok growing populating fills ⟨now, later⟩ proper few
        have fewNow : ∀ i, act = .pass i → (passes i + 1) * System.quota initial nbThreads i ≤ counterLimit := by
          rintro i rfl
          refine le_trans (Int.mul_le_mul_of_nonneg_right ?_ (Int.natCast_nonneg _)) (few i)
          rw [List.countP_cons_of_pos (by simp [SystemAct.isPassOf])]
          omega
        obtain ⟨undisturbed, twins⟩ := fills.undisturbed fresh wraps ok growing populating
          (proper act List.mem_cons_self) fewNow
        obtain ⟨middle, linked', inner', acted, moves, _⟩ := ok.act_goes act undisturbed
        have turned : System.turn machine (some s) act = some middle := acted
        refine ⟨fun other same => Option.some.inj same ▸ undisturbed, ?_⟩
        rw [turned] at later ⊢
        refine ih _ middle linked' inner' (moves.ok ok)
          (System.Traces.onward growing acted fun i call e helps isEnclave =>
            (twins i call e helps isEnclave).ends)
          (System.act_populating populating (now s rfl) acted)
          (fills.onward wraps ok populating fewNow (fun i call e helps isEnclave =>
            (twins i call e helps isEnclave).same) acted) later
          (fun other member => proper other (List.mem_cons_of_mem act member)) fun i => ?_
        have all := few i
        rw [List.countP_cons] at all
        rwa [Int.natCast_add, Int.add_assoc, Int.add_comm (if act.isPassOf i then 1 else 0 : Nat),
          ← Int.natCast_add]
  obtain ⟨growing, begins⟩ := Machine.starts_growing fresh
  refine ⟨begins, along acts (fun _ => 0) _ _ _ (SystemOk.initial machine begins) growing
    (System.populating_start machine) (Machine.starts_filling begins initial nbThreads) populates proper
    fun i => ?_⟩
  simpa using few i

/-- However the threads of the population and their helpers fall between each other, and whichever keys
they draw: when each thread has made its share of insertions and left `sl_do_operation`, the set has
`initial` keys. -/
theorem population_exact (machine : Machine) (fresh : ∀ i, (machine.platform i).Fresh)
    (wraps : ∀ i, (machine.platform i).Wraps32) {initial nbThreads : Nat} (threads : 0 < nbThreads)
    {acts : List SystemAct} (populates : machine.Populates initial nbThreads acts)
    (proper : ∀ act ∈ acts, act.ofPopulation = true)
    (few : ∀ i < nbThreads, (acts.countP (·.isPassOf i) * numToPop initial nbThreads i : Int) ≤ counterLimit) :
    ∃ s, machine.runSystem acts = some s ∧
      ((∀ i < nbThreads, (s.apps i).locals = none ∧ numToPop initial nbThreads i ≤ (s.updates i).length) →
        dataLayerSize s.nodes machine.head true = some initial) := by
  refine population_size machine threads (populates.undisturbed fresh wraps proper fun i => ?_) populates
  rw [System.quota]
  split
  · rename_i below
    exact few i below
  · rw [Int.natCast_zero, Int.mul_zero]
    decide

theorem sharedPopulation_exact : ∃ s, numaMachine.runSystem sharedPopulation = some s ∧
    dataLayerSize s.nodes numaMachine.head true = some 3 := by
  have ended : (numaMachine.runSystem sharedPopulation).all (fun s => decide (∀ i < 2,
      (s.apps i).locals.isNone ∧ numToPop 3 2 i ≤ (s.updates i).length)) = true := by decide +kernel
  obtain ⟨s, ran, exact⟩ := population_exact numaMachine (fun _ => numa_fresh) (fun _ _ => rfl)
    (by decide : 0 < 2) sharedPopulation_populates.2 (by decide +kernel) (by decide +kernel)
  rw [ran] at ended
  simp only [Option.all_some, decide_eq_true_eq, Option.isNone_iff_eq_none] at ended
  exact ⟨s, ran, exact ended⟩

end Hosk
