import Mathlib.Data.List.Count
import Hosk.MainPlan
import Hosk.Progress

/-! The threads of the program follow the plan of `main`, in every interleaving. -/

namespace Hosk

def LastOut {α : Type} (home out : α → Prop) (list : List α) : Prop :=
  ∃ first last, list = first ++ [last] ∧ (∀ item ∈ first, home item) ∧ out last

namespace LastOut

variable {α : Type} {home out out' : α → Prop} {list : List α}

theorem create (all : ∀ item ∈ list, home item) {new : α} (isOut : out new) :
    LastOut home out (list ++ [new]) := ⟨list, new, rfl, all, isOut⟩

theorem imp (lastOut : LastOut home out list) (weaker : ∀ item, out item → out' item) :
    LastOut home out' list := by
  obtain ⟨first, last, split, all, isOut⟩ := lastOut
  exact ⟨first, last, split, all, weaker last isOut⟩

theorem step (lastOut : LastOut home out list) {i : Nat} {item new : α}
    (located : list[i]? = some item) (away : ¬ home item) (isOut : out item → out' new) :
    LastOut home out' (list.set i new) := by
  obtain ⟨first, last, rfl, all, lastIsOut⟩ := lastOut
  have bound := (List.getElem?_eq_some_iff.mp located).1
  rw [List.length_append, List.length_singleton] at bound
  by_cases inFirst : i < first.length
  · rw [List.getElem?_append_left inFirst] at located
    exact absurd (all item (List.mem_of_getElem? located)) away
  · obtain rfl : i = first.length := by omega
    rw [List.getElem?_concat_length] at located
    obtain rfl := Option.some.inj located
    refine ⟨first, new, ?_, all, isOut lastIsOut⟩
    rw [List.set_append_right _ _ (Nat.le_refl _), Nat.sub_self]
    rfl

theorem join (lastOut : LastOut home out list) (last : ∀ item ∈ list.getLast?, home item) :
    (∀ item ∈ list, home item) ∧ ∃ item, home item ∧ out item := by
  obtain ⟨first, item, rfl, all, isOut⟩ := lastOut
  have isHome := last item (by simp)
  refine ⟨?_, item, isHome, isOut⟩
  intro other member
  rcases List.mem_append.mp member with inFirst | isLast
  · exact all other inFirst
  · rw [List.mem_singleton.mp isLast]
    exact isHome

theorem away (lastOut : LastOut home out list) {item : α} (member : item ∈ list)
    (isAway : ¬ home item) : out item := by
  obtain ⟨first, last, rfl, all, isOut⟩ := lastOut
  rcases List.mem_append.mp member with inFirst | isLast
  · exact absurd (all item inFirst) isAway
  · rw [List.mem_singleton.mp isLast]
    exact isOut

theorem countP_none {isAway : α → Bool} (all : ∀ item ∈ list, home item)
    (spec : ∀ item, home item → isAway item = false) : list.countP isAway = 0 :=
  List.countP_eq_zero.mpr fun item member => by
    rw [spec item (all item member)]
    exact Bool.false_ne_true

theorem countP_le_one (lastOut : LastOut home out list) (isAway : α → Bool)
    (spec : ∀ item, home item → isAway item = false) : list.countP isAway ≤ 1 := by
  obtain ⟨first, last, rfl, all, _⟩ := lastOut
  rw [List.countP_append, countP_none all spec, Nat.zero_add]
  exact List.countP_le_length

end LastOut

def HelperPc.begun : HelperPc → Bool
  | .readPopulateInit | .readReset | .clearReset | .resetIndex => false
  | _ => true

/-- Whether the helper that is out starts with a reset, the flag, where it is, and how many resets
are left to do. -/
inductive ResetStage : Bool → Bool → HelperPc → Nat → Prop where
  | never {pc : HelperPc} : pc ≠ .clearReset → pc ≠ .resetIndex → ResetStage false false pc 0
  | before {pc : HelperPc} : pc = .readPopulateInit ∨ pc = .readReset ∨ pc = .clearReset →
      ResetStage true true pc 1
  | during : ResetStage true false .resetIndex 1
  | past {pc : HelperPc} : pc.begun = true → ResetStage true false pc 0

structure HelperOut (post : Post) (crew : Crew) (helper : HelperThread) : Prop where
  pace : helper.pc = .readPopulateInit ∨ helper.updateAll = post.populateInit
  stage : ∃ left, ResetStage post.resets crew.resetIndex helper.pc left ∧
    crew.resets + left = crew.requests

structure WorkerOut (started worker : WorkerPc) : Prop where
  populates : worker = .populating → started = .populating
  measures : worker = .readStop ∨ worker = .operating → started = .readStop

/-- The enclave object and its threads are as `main` has planned. -/
structure Post.Tracks (post : Post) (crew : Crew) : Prop where
  populateInit : crew.populateInit = post.populateInit
  running : crew.running = post.running
  finished : crew.finished = post.finished
  requests : crew.requests = post.requests
  deleted : crew.deleted = post.deleted
  home : post.out = false → (∀ helper ∈ crew.helpers, helper.pc = .ended) ∧
    crew.resetIndex = post.due ∧ crew.resets + post.due.toNat = crew.requests
  out : post.out = true →
    LastOut (fun helper => helper.pc = .ended) (HelperOut post crew) crew.helpers
  idle : post.worker = none → ∀ worker ∈ crew.workers, worker = .ended
  working : ∀ started, post.worker = some started →
    LastOut (fun worker => worker = .ended) (WorkerOut started) crew.workers

section Steps

variable {post : Post} {crew : Crew}

section Stages

variable {resets flag : Bool} {left : Nat}

theorem ResetStage.starts (stage : ResetStage resets flag .readPopulateInit left) :
    ResetStage resets flag .readReset left := by
  cases stage with
  | never => exact .never (by decide) (by decide)
  | before => exact .before (.inr (.inl rfl))
  | past begun => exact absurd begun (by decide)

theorem ResetStage.looks (stage : ResetStage resets flag .readReset left) :
    ResetStage resets flag (if flag then .clearReset else .readFinished) left := by
  cases stage with
  | never => exact .never (by decide) (by decide)
  | before => exact .before (.inr (.inr rfl))
  | past begun => exact absurd begun (by decide)

theorem ResetStage.clears (stage : ResetStage resets flag .clearReset left) :
    ResetStage resets false .resetIndex left := by
  cases stage with
  | never notClear => exact absurd rfl notClear
  | before => exact .during
  | past begun => exact absurd begun (by decide)

theorem ResetStage.ends (stage : ResetStage resets flag .resetIndex left) :
    left = 1 ∧ ResetStage resets flag .readFinished 0 := by
  cases stage with
  | never _ notReset => exact absurd rfl notReset
  | before early => exact absurd early (by decide)
  | during => exact ⟨rfl, .past rfl⟩
  | past begun => exact absurd begun (by decide)

theorem ResetStage.onward {pc pc' : HelperPc} (stage : ResetStage resets flag pc left)
    (begun : pc.begun = true) (begun' : pc'.begun = true) : ResetStage resets flag pc' left := by
  cases stage with
  | never =>
      refine .never ?_ ?_
      · rintro rfl
        exact absurd begun' (by decide)
      · rintro rfl
        exact absurd begun' (by decide)
  | before early =>
      rcases early with rfl | rfl | rfl <;> exact absurd begun (by decide)
  | during => exact absurd begun (by decide)
  | past => exact .past begun'

theorem HelperThread.next_begun {crew : Crew} {helper : HelperThread} (choice : Bool)
    (begun : helper.pc.begun = true) : (helper.next crew choice).pc.begun = true := by
  obtain ⟨updateAll, pc⟩ := helper
  cases pc with
  | readPopulateInit | readReset | clearReset | resetIndex => exact absurd begun Bool.false_ne_true
  | updateIntermediate | updateIndex | ended => rfl
  | readFinished => cases finished : crew.finished <;> simp [next, finished, HelperPc.begun]
  | removeJob => cases choice <;> cases updateAll <;> rfl
  | drawUpdate => cases choice <;> rfl

end Stages

theorem HelperOut.next {helper : HelperThread} (isOut : HelperOut post crew helper)
    (same : crew.populateInit = post.populateInit) (choice : Bool) (helpers : List HelperThread) :
    HelperOut post { crew with
      helpers := helpers
      resetIndex := if helper.pc = .clearReset then false else crew.resetIndex
      resets := if helper.pc = .resetIndex then crew.resets + 1 else crew.resets }
      (helper.next crew choice) := by
  obtain ⟨pace, left, stage, total⟩ := isOut
  obtain ⟨updateAll, pc⟩ := helper
  have paced : pc ≠ .readPopulateInit → updateAll = post.populateInit := fun started =>
    pace.resolve_left started
  cases pc with
  | readPopulateInit => exact ⟨.inr same, left, stage.starts, total⟩
  | readReset => exact ⟨.inr (paced (by decide)), left, stage.looks, total⟩
  | clearReset => exact ⟨.inr (paced (by decide)), left, stage.clears, total⟩
  | resetIndex =>
      obtain ⟨rfl, past⟩ := stage.ends
      exact ⟨.inr (paced (by decide)), 0, past, total⟩
  | readFinished | removeJob | updateIntermediate | drawUpdate | updateIndex | ended =>
      exact ⟨.inr (paced (by decide)), left,
        stage.onward rfl (HelperThread.next_begun choice rfl), total⟩

theorem Post.Tracks.helperStep (tracks : post.Tracks crew) (i : Nat) (choice : Bool) :
    post.Tracks (crew.helperStep i choice) := by
  rw [Crew.helperStep]
  cases located : crew.helpers[i]? with
  | none => exact tracks
  | some helper =>
      dsimp only
      by_cases ended : helper.pc = .ended
      · have same : helper.next crew choice = helper := by
          obtain ⟨updateAll, pc⟩ := helper
          obtain rfl : pc = .ended := ended
          rfl
        have unchanged : crew.helpers.set i helper = crew.helpers := by
          obtain ⟨bound, isHere⟩ := List.getElem?_eq_some_iff.mp located
          rw [← isHere]
          exact List.set_getElem_self bound
        simp only [same, unchanged, ended]
        exact tracks
      · have isOut : post.out = true := by
          by_contra isHome
          exact ended ((tracks.home (eq_false_of_ne_true isHome)).1 helper
            (List.mem_of_getElem? located))
        refine ⟨tracks.populateInit, tracks.running, tracks.finished, tracks.requests,
          tracks.deleted, fun wrong => absurd (isOut.symm.trans wrong).symm Bool.false_ne_true,
          fun _ => ?_, tracks.idle, tracks.working⟩
        exact (tracks.out isOut).step located ended fun out =>
          out.next tracks.populateInit choice _

theorem WorkerOut.next {started worker : WorkerPc} (isOut : WorkerOut started worker)
    (stop choice : Bool) : WorkerOut started (worker.next stop choice) := by
  cases worker with
  | populating =>
      have isPopulating := isOut.populates rfl
      refine ⟨fun _ => isPopulating, fun measures => ?_⟩
      cases choice <;> simp [WorkerPc.next] at measures
  | readStop =>
      have measures := isOut.measures (.inl rfl)
      refine ⟨fun populates => ?_, fun _ => measures⟩
      cases stop <;> simp [WorkerPc.next] at populates
  | operating =>
      have measures := isOut.measures (.inr rfl)
      exact ⟨fun populates => WorkerPc.noConfusion populates, fun _ => measures⟩
  | ended => exact isOut

theorem Post.Tracks.workerStep (tracks : post.Tracks crew) (stop : Bool) (i : Nat) (choice : Bool) :
    post.Tracks (crew.workerStep stop i choice) := by
  rw [Crew.workerStep]
  cases located : crew.workers[i]? with
  | none => exact tracks
  | some worker =>
      dsimp only
      have member := List.mem_of_getElem? located
      refine ⟨tracks.populateInit, tracks.running, tracks.finished, tracks.requests,
        tracks.deleted, tracks.home, fun isOut => ?_, ?_, ?_⟩
      · exact (tracks.out isOut).imp fun _ out => ⟨out.pace, out.stage⟩
      · intro isIdle other inList
        rcases List.mem_or_eq_of_mem_set inList with old | new
        · exact tracks.idle isIdle other old
        · rw [new, tracks.idle isIdle worker member]
          rfl
      · intro started isWorking
        by_cases ended : worker = .ended
        · have unchanged : crew.workers.set i (worker.next stop choice) = crew.workers := by
            obtain ⟨bound, isHere⟩ := List.getElem?_eq_some_iff.mp located
            have same : worker.next stop choice = worker := by
              rw [ended]
              rfl
            rw [same, ← isHere]
            exact List.set_getElem_self bound
          rw [unchanged]
          exact tracks.working started isWorking
        · exact (tracks.working started isWorking).step located ended fun out => out.next stop choice

end Steps

namespace Program

/-- The enclaves are as a plan says from which the calls that are left are in place. -/
structure Follows (final plan : Plan) (s : Program) : Prop where
  tracks : ∀ k, (plan k).Tracks (s.crews k)
  steady : plan.Steady
  accepted : Plan.Accepts final plan s.code

variable {final plan : Plan} {s : Program} {k : Nat} {instr : Instr} {rest code : List Instr}

theorem Follows.expand (follows : s.Follows final plan) (accepted : Plan.Accepts final plan code) :
    ({ s with code := code } : Program).Follows final plan :=
  ⟨follows.tracks, follows.steady, accepted⟩

theorem Follows.store (follows : s.Follows final plan) {new : Post → Post} {crew : Crew}
    (steady : (plan.change k new).Steady) (accepted : Plan.Accepts final (plan.change k new) rest)
    (tracks : (new (plan k)).Tracks crew) :
    ({ s.setCrew k crew with code := rest } : Program).Follows final (plan.change k new) := by
  refine ⟨fun j => ?_, steady, accepted⟩
  dsimp only [setCrew]
  by_cases here : j = k
  · rw [here, Plan.change_same, Function.update_self]
    exact tracks
  · rw [Plan.change_other _ _ here, Function.update_of_ne here]
    exact follows.tracks j

theorem Follows.createHelper (follows : s.Follows final plan)
    (isNext : s.code = .createHelper k :: rest) : s.mainStep.Follows final (plan.after (.createHelper k)) := by
  have accepted := follows.accepted
  have tracks := follows.tracks k
  rw [isNext] at accepted
  obtain ⟨allowed, later⟩ := accepted
  obtain ⟨all, flag, total⟩ := tracks.home allowed.1
  have steady := follows.steady.createHelper allowed
  rw [Plan.after] at later steady ⊢
  rw [mainStep, isNext]
  refine follows.store steady later ?_
  refine ⟨tracks.populateInit, tracks.running, tracks.finished, tracks.requests, tracks.deleted,
    fun wrong => absurd wrong Bool.noConfusion, fun _ => ?_, tracks.idle, tracks.working⟩
  refine LastOut.create all ⟨.inl rfl, (plan k).due.toNat, ?_, total⟩
  rw [flag]
  cases (plan k).due
  · exact .never (by decide) (by decide)
  · exact .before (.inl rfl)

theorem Follows.joinHelper (follows : s.Follows final plan)
    (isNext : s.code = .joinHelper k :: rest)
    (ended : ∀ helper ∈ (s.crews k).helpers.getLast?, helper.pc = .ended) :
    ({ s with code := rest } : Program).Follows final (plan.after (.joinHelper k)) := by
  have accepted := follows.accepted
  have tracks := follows.tracks k
  have own := follows.steady.own k
  rw [isNext] at accepted
  obtain ⟨⟨isOut, _⟩, later⟩ := accepted
  obtain ⟨all, helper, isEnded, out⟩ := (tracks.out isOut).join ended
  have same : ({ s with code := rest } : Program) = { s.setCrew k (s.crews k) with code := rest } := by
    rw [setCrew, Function.update_eq_self]
  have steady := follows.steady.joinHelper (k := k)
  rw [Plan.after] at later steady ⊢
  rw [same]
  refine follows.store steady later ?_
  refine ⟨tracks.populateInit, tracks.running, tracks.finished, tracks.requests, tracks.deleted,
    fun _ => ⟨all, ?_⟩, fun wrong => absurd wrong Bool.noConfusion, tracks.idle, tracks.working⟩
  obtain ⟨left, stage, total⟩ := out.stage
  have settled : (s.crews k).resetIndex = false ∧ left = 0 := by
    rw [isEnded] at stage
    generalize (s.crews k).resetIndex = flag at stage
    generalize (plan k).resets = resets at stage
    cases stage with
    | never => exact ⟨rfl, rfl⟩
    | before early => exact absurd early (by decide)
    | past => exact ⟨rfl, rfl⟩
  obtain ⟨flag, rfl⟩ := settled
  dsimp only
  rw [flag, own.taken isOut]
  exact ⟨rfl, total⟩

theorem none_ne {worker : WorkerPc} : (none : Option WorkerPc) ≠ some worker :=
  (Option.some_ne_none worker).symm

theorem Follows.joinWorker (follows : s.Follows final plan)
    (isNext : s.code = .joinWorker k :: rest)
    (ended : ∀ worker ∈ (s.crews k).workers.getLast?, worker = .ended) :
    ({ s with code := rest } : Program).Follows final (plan.after (.joinWorker k)) := by
  have accepted := follows.accepted
  have tracks := follows.tracks k
  have steady := follows.steady.joinWorker (k := k)
  rw [isNext] at accepted
  obtain ⟨⟨started, isWorking⟩, later⟩ := accepted
  obtain ⟨all, _⟩ := (tracks.working started isWorking).join ended
  have same : ({ s with code := rest } : Program) = { s.setCrew k (s.crews k) with code := rest } := by
    rw [setCrew, Function.update_eq_self]
  rw [Plan.after] at later steady ⊢
  rw [same]
  refine follows.store steady later ?_
  exact ⟨tracks.populateInit, tracks.running, tracks.finished, tracks.requests, tracks.deleted,
    tracks.home, fun isOut => (tracks.out isOut).imp fun _ out => ⟨out.pace, out.stage⟩,
    fun _ => all, fun _ wrong => absurd wrong none_ne⟩

theorem Follows.createWorker (follows : s.Follows final plan) {worker : WorkerPc}
    (isNext : s.code = .createWorker k worker :: rest) :
    s.mainStep.Follows final (plan.after (.createWorker k worker)) := by
  have accepted := follows.accepted
  have tracks := follows.tracks k
  rw [isNext] at accepted
  obtain ⟨allowed, later⟩ := accepted
  have steady := follows.steady.createWorker allowed
  obtain ⟨isIdle, _, _, kind⟩ := allowed
  have isOut : WorkerOut worker worker := by
    rcases kind with rfl | ⟨rfl, _⟩
    · exact ⟨fun _ => rfl, fun wrong => absurd wrong (by decide)⟩
    · exact ⟨fun wrong => absurd wrong (by decide), fun _ => rfl⟩
  rw [Plan.after] at later steady ⊢
  rw [mainStep, isNext]
  refine follows.store steady later ?_
  refine ⟨tracks.populateInit, tracks.running, tracks.finished, tracks.requests, tracks.deleted,
    tracks.home, fun isOut => (tracks.out isOut).imp fun _ out => ⟨out.pace, out.stage⟩,
    fun wrong => absurd wrong (Option.some_ne_none worker), fun started same => ?_⟩
  obtain rfl : worker = started := Option.some.inj same
  exact LastOut.create (tracks.idle isIdle) isOut

theorem Follows.resetIndexLayer (follows : s.Follows final plan)
    (isNext : s.code = .resetIndexLayer k :: rest) :
    s.mainStep.Follows final (plan.after (.resetIndexLayer k)) := by
  have accepted := follows.accepted
  have tracks := follows.tracks k
  rw [isNext] at accepted
  obtain ⟨allowed, later⟩ := accepted
  have steady := follows.steady.resetIndexLayer allowed
  obtain ⟨isIn, notDue, _⟩ := allowed
  obtain ⟨all, flag, total⟩ := tracks.home isIn
  rw [notDue] at total
  rw [Plan.after] at later steady ⊢
  rw [mainStep, isNext]
  refine follows.store steady later ?_
  refine ⟨tracks.populateInit, tracks.running, tracks.finished, ?_, tracks.deleted,
    fun _ => ⟨all, rfl, ?_⟩, fun isOut => absurd (isIn.symm.trans isOut) Bool.false_ne_true,
    tracks.idle, tracks.working⟩
  · exact congrArg (· + 1) tracks.requests
  · exact congrArg (· + 1) total

theorem Follows.setPopulateInit (follows : s.Follows final plan) {value : Bool}
    (isNext : s.code = .setPopulateInit k value :: rest) :
    s.mainStep.Follows final (plan.after (.setPopulateInit k value)) := by
  have accepted := follows.accepted
  have tracks := follows.tracks k
  rw [isNext] at accepted
  obtain ⟨allowed, later⟩ := accepted
  have steady := follows.steady.setPopulateInit allowed
  have isIn : (plan k).out = false := allowed
  rw [Plan.after] at later steady ⊢
  rw [mainStep, isNext]
  refine follows.store steady later ?_
  exact ⟨rfl, tracks.running, tracks.finished, tracks.requests, tracks.deleted, tracks.home,
    fun isOut => absurd (isIn.symm.trans isOut) Bool.false_ne_true, tracks.idle, tracks.working⟩

theorem Follows.setRunning (follows : s.Follows final plan) {value : Bool}
    (isNext : s.code = .setRunning k value :: rest) :
    s.mainStep.Follows final (plan.after (.setRunning k value)) := by
  have accepted := follows.accepted
  have tracks := follows.tracks k
  rw [isNext] at accepted
  have later := accepted.2
  rw [Plan.after] at later ⊢
  rw [mainStep, isNext]
  refine follows.store (follows.steady.aside rfl) later ?_
  exact ⟨tracks.populateInit, rfl, tracks.finished, tracks.requests, tracks.deleted, tracks.home,
    fun isOut => (tracks.out isOut).imp fun _ out => ⟨out.pace, out.stage⟩, tracks.idle,
    tracks.working⟩

theorem Follows.setFinished (follows : s.Follows final plan) {value : Bool}
    (isNext : s.code = .setFinished k value :: rest) :
    s.mainStep.Follows final (plan.after (.setFinished k value)) := by
  have accepted := follows.accepted
  have tracks := follows.tracks k
  rw [isNext] at accepted
  have later := accepted.2
  rw [Plan.after] at later ⊢
  rw [mainStep, isNext]
  refine follows.store (follows.steady.aside rfl) later ?_
  exact ⟨tracks.populateInit, tracks.running, rfl, tracks.requests, tracks.deleted, tracks.home,
    fun isOut => (tracks.out isOut).imp fun _ out => ⟨out.pace, out.stage⟩, tracks.idle,
    tracks.working⟩

theorem Follows.free (follows : s.Follows final plan) (isNext : s.code = .free k :: rest) :
    s.mainStep.Follows final (plan.after (.free k)) := by
  have accepted := follows.accepted
  have tracks := follows.tracks k
  rw [isNext] at accepted
  obtain ⟨allowed, later⟩ := accepted
  have steady := follows.steady.free allowed
  rw [Plan.after] at later steady ⊢
  rw [mainStep, isNext]
  refine follows.store steady later ?_
  exact ⟨tracks.populateInit, tracks.running, tracks.finished, tracks.requests, rfl, tracks.home,
    fun isOut => (tracks.out isOut).imp fun _ out => ⟨out.pace, out.stage⟩, tracks.idle,
    tracks.working⟩

/-- One step of `main`: a test takes the branch that the plan foresees, a join may go on waiting. -/
theorem Follows.main (follows : s.Follows final plan) :
    ∃ plan', s.mainStep.Follows final plan' := by
  have accepted := follows.accepted
  cases isNext : s.code with
  | nil =>
      rw [mainStep, isNext]
      exact ⟨plan, follows⟩
  | cons instr rest =>
      rw [isNext] at accepted
      cases instr with
      | startHelper k popAll =>
          rw [mainStep, isNext]
          dsimp only
          rw [(follows.tracks k).running, accepted.1.1, if_neg Bool.false_ne_true]
          exact ⟨plan, follows.expand accepted.startHelper⟩
      | stopHelper k =>
          rw [mainStep, isNext]
          dsimp only
          rw [(follows.tracks k).running, accepted.1.1, if_pos rfl]
          exact ⟨plan, follows.expand accepted.stopHelper⟩
      | deleteEnclave k =>
          rw [mainStep, isNext]
          dsimp only
          rw [(follows.tracks k).finished, accepted.1.1, if_pos rfl]
          exact ⟨plan, follows.expand accepted.deleteEnclave⟩
      | joinHelper k =>
          rw [mainStep, isNext]
          dsimp only
          split
          · rename_i ended
            exact ⟨_, follows.joinHelper isNext ended⟩
          · exact ⟨plan, follows⟩
      | joinWorker k =>
          rw [mainStep, isNext]
          dsimp only
          split
          · rename_i ended
            exact ⟨_, follows.joinWorker isNext ended⟩
          · exact ⟨plan, follows⟩
      | storeStop =>
          rw [mainStep, isNext]
          exact ⟨plan, follows.tracks, follows.steady, accepted.2⟩
      | setPopulateInit k value => exact ⟨_, follows.setPopulateInit isNext⟩
      | setRunning k value => exact ⟨_, follows.setRunning isNext⟩
      | setFinished k value => exact ⟨_, follows.setFinished isNext⟩
      | createHelper k => exact ⟨_, follows.createHelper isNext⟩
      | resetIndexLayer k => exact ⟨_, follows.resetIndexLayer isNext⟩
      | createWorker k worker => exact ⟨_, follows.createWorker isNext⟩
      | free k => exact ⟨_, follows.free isNext⟩

/-- A thread takes a step that keeps its enclave on the plan. -/
theorem Follows.thread (follows : s.Follows final plan) {crew : Crew}
    (tracks : (plan k).Tracks crew) : (s.setCrew k crew).Follows final plan := by
  refine ⟨fun j => ?_, follows.steady, follows.accepted⟩
  dsimp only [setCrew]
  by_cases here : j = k
  · rw [here, Function.update_self]
    exact tracks
  · rw [Function.update_of_ne here]
    exact follows.tracks j

theorem Follows.act (follows : s.Follows final plan) (act : ProgramAct) :
    ∃ plan', (s.act act).Follows final plan' := by
  cases act with
  | main => exact follows.main
  | helper k i choice => exact ⟨plan, follows.thread ((follows.tracks k).helperStep i choice)⟩
  | worker k i choice =>
      exact ⟨plan, follows.thread ((follows.tracks k).workerStep s.stop i choice)⟩

section Apart

variable {j : Nat} {helper : HelperThread} {worker : WorkerPc}

theorem Follows.helperOut (follows : s.Follows final plan) (member : helper ∈ (s.crews k).helpers)
    (away : helper.pc ≠ .ended) : (plan k).out = true ∧ HelperOut (plan k) (s.crews k) helper := by
  have tracks := follows.tracks k
  have isOut : (plan k).out = true := by
    by_contra isHome
    exact away ((tracks.home (eq_false_of_ne_true isHome)).1 helper member)
  exact ⟨isOut, (tracks.out isOut).away member away⟩

theorem Follows.workerOut (follows : s.Follows final plan) (member : worker ∈ (s.crews k).workers)
    (away : worker ≠ .ended) : ∃ started, (plan k).worker = some started ∧
      WorkerOut started worker := by
  have tracks := follows.tracks k
  cases working : (plan k).worker with
  | none => exact absurd (tracks.idle working worker member) away
  | some started => exact ⟨started, rfl, (tracks.working started working).away member away⟩

theorem Follows.measuring (follows : s.Follows final plan) (member : worker ∈ (s.crews k).workers)
    (measures : worker = .readStop ∨ worker = .operating) :
    (plan k).worker = some .readStop := by
  have away : worker ≠ .ended := by
    rcases measures with rfl | rfl <;> decide
  obtain ⟨started, working, kind⟩ := follows.workerOut member away
  rw [working, kind.measures measures]

theorem Follows.oneHelper (follows : s.Follows final plan) (k : Nat) :
    (s.crews k).helpers.countP (fun helper => helper.pc ≠ .ended) ≤ 1 := by
  have spec : ∀ helper : HelperThread, helper.pc = .ended → decide (helper.pc ≠ .ended) = false :=
    fun _ ended => decide_eq_false (not_not_intro ended)
  cases isOut : (plan k).out with
  | false =>
      have all := ((follows.tracks k).home isOut).1
      rw [LastOut.countP_none all spec]
      exact Nat.zero_le 1
  | true => exact ((follows.tracks k).out isOut).countP_le_one _ spec

theorem Follows.oneWorker (follows : s.Follows final plan) (k : Nat) :
    (s.crews k).workers.countP (fun worker => worker ≠ .ended) ≤ 1 := by
  have spec : ∀ worker : WorkerPc, worker = .ended → decide (worker ≠ .ended) = false :=
    fun _ ended => decide_eq_false (not_not_intro ended)
  cases working : (plan k).worker with
  | none =>
      have all := (follows.tracks k).idle working
      rw [LastOut.countP_none all spec]
      exact Nat.zero_le 1
  | some started => exact ((follows.tracks k).working started working).countP_le_one _ spec

theorem Follows.resetsAlone (follows : s.Follows final plan)
    (member : helper ∈ (s.crews k).helpers) (resetting : helper.pc = .resetIndex)
    (inWorkers : worker ∈ (s.crews j).workers) : worker = .ended := by
  obtain ⟨_, out⟩ := follows.helperOut member (by rw [resetting]; decide)
  obtain ⟨left, stage, _⟩ := out.stage
  have resets : (plan k).resets = true := by
    rw [resetting] at stage
    generalize (s.crews k).resetIndex = flag at stage
    generalize (plan k).resets = resets at stage
    cases stage with
    | never _ wrong => exact absurd rfl wrong
    | before => rfl
    | during => rfl
    | past => rfl
  exact (follows.tracks j).idle ((follows.steady.beside k j).alone resets) worker inWorkers

theorem Follows.paced (follows : s.Follows final plan) (member : helper ∈ (s.crews k).helpers)
    (updating : helper.pc = .updateIndex) (everyTurn : helper.updateAll = true)
    (inWorkers : worker ∈ (s.crews j).workers) : worker = .populating ∨ worker = .ended := by
  obtain ⟨isOut, out⟩ := follows.helperOut member (by rw [updating]; decide)
  have popAll : (plan k).populateInit = true := by
    rw [← out.pace.resolve_left (by rw [updating]; decide)]
    exact everyTurn
  have unmeasured : ¬ (worker = .readStop ∨ worker = .operating) := by
    intro measures
    have slow := (follows.steady.beside j k).paced (follows.measuring inWorkers measures) isOut
    exact Bool.false_ne_true (slow.symm.trans popAll)
  cases worker with
  | populating => exact .inl rfl
  | readStop => exact absurd (.inl rfl) unmeasured
  | operating => exact absurd (.inr rfl) unmeasured
  | ended => exact .inr rfl

theorem Follows.served (follows : s.Follows final plan)
    (measures : .operating ∈ (s.crews j).workers) (k : Nat) :
    (s.crews k).resets = (s.crews k).requests := by
  have tracks := follows.tracks k
  have measured := follows.measuring measures (.inr rfl)
  have notDue := (follows.steady.beside j k).served measured
  have settled : (plan k).resets = false := by
    by_contra resets
    have quiet := (follows.steady.beside k j).alone (eq_true_of_ne_false resets)
    rw [quiet] at measured
    exact absurd measured (Option.some_ne_none _).symm
  cases isOut : (plan k).out with
  | false =>
      have total := (tracks.home isOut).2.2
      rwa [notDue] at total
  | true =>
      obtain ⟨_, _, _, _, out⟩ := tracks.out isOut
      obtain ⟨left, stage, total⟩ := out.stage
      rw [settled] at stage
      generalize (s.crews k).resetIndex = flag at stage
      cases stage with
      | never => exact total

/-- What the plan says of the threads that are out. -/
theorem Follows.keptApart (follows : s.Follows final plan) {n : Nat}
    (closes : ∀ k < n, (final k).deleted = true ∧ (final k).out = false ∧ (final k).due = false ∧
      (final k).requests = 1) : KeptApart n s := by
  refine ⟨follows.oneHelper, follows.oneWorker, ?_, ?_, fun j => follows.served, ?_, ?_⟩
  · exact fun k helper member resetting j worker => follows.resetsAlone member resetting
  · exact fun k helper member updating all j worker => follows.paced member updating all
  · intro k deleted
    have tracks := follows.tracks k
    obtain ⟨isHome, idle⟩ := (follows.steady.own k).released (tracks.deleted.symm.trans deleted)
    exact ⟨(tracks.home isHome).1, tracks.idle idle⟩
  · intro isEnd k bound
    have accepted := follows.accepted
    rw [isEnd] at accepted
    obtain rfl : plan = final := accepted
    have tracks := follows.tracks k
    obtain ⟨deleted, isHome, notDue, requests⟩ := closes k bound
    have total := (tracks.home isHome).2.2
    rw [notDue, tracks.requests, requests] at total
    exact ⟨tracks.deleted.trans deleted, total⟩

end Apart

end Program

theorem Program.start_follows (n : Nat) :
    (Program.start n).Follows (Plan.midway n Plan.spaced Plan.closed n) fun _ => Post.new := by
  refine ⟨fun k => ?_, ⟨fun k => ?_, fun j k => ?_⟩, Plan.accepts_mainCode n⟩
  · exact ⟨rfl, rfl, rfl, rfl, rfl, fun _ => ⟨fun _ wrong => absurd wrong List.not_mem_nil, rfl, rfl⟩,
      fun wrong => absurd wrong Bool.false_ne_true,
      fun _ _ wrong => absurd wrong List.not_mem_nil, fun _ wrong => absurd wrong none_ne⟩
  · exact ⟨fun wrong => absurd wrong Bool.false_ne_true,
      fun wrong => absurd wrong Bool.false_ne_true, fun _ wrong => absurd wrong Program.none_ne,
      fun wrong => absurd wrong Bool.false_ne_true⟩
  · exact ⟨fun wrong => absurd wrong Bool.false_ne_true, fun wrong => absurd wrong none_ne,
      fun wrong => absurd wrong none_ne⟩

theorem Program.run_follows (n : Nat) (acts : List ProgramAct) : ∃ plan,
    (Runs.run Program.act (Program.start n) acts).Follows (Plan.midway n Plan.spaced Plan.closed n) plan :=
  Runs.run_invariant (fun s : Program => ∃ plan, s.Follows (Plan.midway n Plan.spaced Plan.closed n) plan)
    ⟨_, Program.start_follows n⟩ (fun _ act ⟨_, follows⟩ => follows.act act) acts

/-- However `main`, the helpers and the application threads interleave: an enclave has one helper
at work at a time, no helper resets an index under an application thread, the passes are not made
at every turn any more once operations are measured, and no enclave is deleted under a thread. -/
theorem threads_kept_apart (n : Nat) (acts : List ProgramAct) :
    Program.KeptApart n (Runs.run Program.act (Program.start n) acts) := by
  obtain ⟨plan, follows⟩ := Program.run_follows n acts
  refine follows.keptApart fun k bound => ?_
  rw [Plan.midway, if_pos bound]
  exact ⟨rfl, rfl, rfl, rfl⟩

-- one enclave, to the end of main
example : (Runs.run Program.act (Program.start 1) (List.replicate 41 [ProgramAct.main,
    .helper 0 0 false, .helper 0 1 false, .helper 0 2 false, .worker 0 0 true,
    .worker 0 1 true]).flatten).code = [] := by
  decide +kernel

section Waiting

def HelperPc.stepsLeft : HelperPc → Nat
  | .ended => 0
  | .readFinished => 1
  | .updateIndex | .resetIndex => 2
  | .drawUpdate | .clearReset => 3
  | .removeJob | .readReset => 4
  | .updateIntermediate | .readPopulateInit => 5

theorem HelperPc.stepsLeft_le (pc : HelperPc) : pc.stepsLeft ≤ 5 := by
  cases pc <;> decide

theorem HelperThread.next_stepsLeft {crew : Crew} (told : crew.finished = true) (choice : Bool)
    {helper : HelperThread} (away : helper.pc ≠ .ended) :
    (helper.next crew choice).pc.stepsLeft + 1 ≤
      helper.pc.stepsLeft + 2 * if choice = true ∧ helper.pc = .removeJob then 1 else 0 := by
  obtain ⟨updateAll, pc⟩ := helper
  cases pc with
  | ended => exact absurd rfl away
  | readReset => cases flag : crew.resetIndex <;> simp [next, flag, HelperPc.stepsLeft]
  | readFinished => simp [next, told, HelperPc.stepsLeft]
  | removeJob => cases choice <;> cases updateAll <;> simp [next, HelperPc.stepsLeft]
  | drawUpdate => cases choice <;> simp [next, HelperPc.stepsLeft]
  | readPopulateInit | clearReset | resetIndex | updateIntermediate | updateIndex =>
      simp [next, HelperPc.stepsLeft]

theorem sum_map_set {α : Type} (amount : α → Nat) (list : List α) : ∀ {i : Nat} {old : α} (new : α),
    list[i]? = some old →
      ((list.set i new).map amount).sum + amount old = (list.map amount).sum + amount new := by
  induction list with
  | nil => exact fun _ located => absurd located (by simp)
  | cons head list ih =>
      intro i old new located
      cases i with
      | zero =>
          obtain rfl : head = old := by simpa using located
          simp only [List.set_cons_zero, List.map_cons, List.sum_cons]
          omega
      | succ i =>
          have later := ih new (by simpa using located)
          simp only [List.set_cons_succ, List.map_cons, List.sum_cons]
          omega

namespace Crew

def stepsLeft (crew : Crew) : Nat := (crew.helpers.map fun helper => helper.pc.stepsLeft).sum

def atStep (crew : Crew) (i : Nat) (isAt : HelperPc → Bool) : Nat :=
  if (crew.helpers[i]?).any fun helper => isAt helper.pc then 1 else 0

theorem helperStep_stepsLeft {crew : Crew} (told : crew.finished = true) (i : Nat) (choice : Bool) :
    (crew.helperStep i choice).stepsLeft + crew.atStep i (· ≠ .ended) ≤
      crew.stepsLeft + 2 * if choice then crew.atStep i (· = .removeJob) else 0 := by
  rw [helperStep, atStep, atStep]
  cases located : crew.helpers[i]? with
  | none => simp
  | some helper =>
      have moved := sum_map_set (fun helper : HelperThread => helper.pc.stepsLeft) crew.helpers
        (helper.next crew choice) located
      rw [stepsLeft, stepsLeft]
      dsimp only
      generalize ((crew.helpers.set i (helper.next crew choice)).map
        fun helper => helper.pc.stepsLeft).sum = left at moved ⊢
      by_cases ended : helper.pc = .ended
      · have same : helper.next crew choice = helper := by
          obtain ⟨updateAll, pc⟩ := helper
          obtain rfl : pc = .ended := ended
          rfl
        rw [same] at moved
        simp [ended]
        omega
      · have lower := HelperThread.next_stepsLeft told choice ended
        cases choice <;> simp [ended] at lower ⊢ <;> omega

end Crew

namespace Program

def helperSteps (k : Nat) (s : Program) : ProgramAct → Nat
  | .helper j i _ => if j = k then (s.crews k).atStep i (· ≠ .ended) else 0
  | _ => 0

def jobsTaken (k : Nat) (s : Program) : ProgramAct → Nat
  | .helper j i true => if j = k then (s.crews k).atStep i (· = .removeJob) else 0
  | _ => 0

theorem helper_stepsLeft (k : Nat) (s : Program) (act : ProgramAct)
    (told : (s.crews k).finished = true) (waiting : act ≠ .main) :
    ((s.act act).crews k).finished = true ∧
      ((s.act act).crews k).stepsLeft + helperSteps k s act ≤
        (s.crews k).stepsLeft + 2 * jobsTaken k s act := by
  cases act with
  | main => exact absurd rfl waiting
  | helper j i choice =>
      by_cases here : j = k
      · subst here
        have step := Crew.helperStep_stepsLeft told i choice
        have kept : ((s.crews j).helperStep i choice).finished = true := by
          rw [Crew.helperStep]
          split <;> exact told
        have isHere : ((s.act (.helper j i choice)).crews j) = (s.crews j).helperStep i choice :=
          Function.update_self _ _ _
        rw [isHere, helperSteps, if_pos rfl]
        refine ⟨kept, ?_⟩
        cases choice with
        | false => exact step
        | true =>
            rw [jobsTaken, if_pos rfl]
            exact step
      · have other : (s.act (.helper j i choice)).crews k = s.crews k :=
          Function.update_of_ne (Ne.symm here) _ _
        rw [other, helperSteps, if_neg here]
        exact ⟨told, Nat.le_add_right _ _⟩
  | worker j i choice =>
      have same : ((s.act (.worker j i choice)).crews k).finished = (s.crews k).finished ∧
          ((s.act (.worker j i choice)).crews k).stepsLeft = (s.crews k).stepsLeft := by
        by_cases here : j = k
        · subst here
          have isHere : ((s.act (.worker j i choice)).crews j) =
              (s.crews j).workerStep s.stop i choice := Function.update_self _ _ _
          rw [isHere, Crew.workerStep]
          split <;> exact ⟨rfl, rfl⟩
        · have other : (s.act (.worker j i choice)).crews k = s.crews k :=
            Function.update_of_ne (Ne.symm here) _ _
          rw [other]
          exact ⟨rfl, rfl⟩
      rw [same.1, same.2]
      exact ⟨told, Nat.le_refl _⟩

end Program

/-- `stop_helper` returns: while `main` is in its join, the helper makes at most five steps more than
two for each job that it still takes. -/
theorem stop_helper_returns (n : Nat) (acts more : List ProgramAct) (k : Nat) (rest : List Instr)
    (waits : (Runs.run Program.act (Program.start n) acts).code = .joinHelper k :: rest)
    (waiting : ∀ act ∈ more, act ≠ .main) :
    Progress.along Program.act (Program.helperSteps k)
        (Runs.run Program.act (Program.start n) acts) more ≤
      2 * Progress.along Program.act (Program.jobsTaken k)
        (Runs.run Program.act (Program.start n) acts) more + 5 := by
  obtain ⟨plan, follows⟩ := Program.run_follows n acts
  generalize Runs.run Program.act (Program.start n) acts = s at waits follows ⊢
  have tracks := follows.tracks k
  have accepted := follows.accepted
  rw [waits] at accepted
  obtain ⟨isOut, finished⟩ := accepted.1
  obtain ⟨first, last, split, home, _⟩ := tracks.out isOut
  have few : (s.crews k).stepsLeft ≤ 5 := by
    have none : (first.map fun helper => helper.pc.stepsLeft).sum = 0 :=
      List.sum_eq_zero fun amount member => by
        obtain ⟨helper, inFirst, rfl⟩ := List.mem_map.mp member
        rw [home helper inFirst]
        rfl
    have least := last.pc.stepsLeft_le
    rw [Crew.stepsLeft, split, List.map_append, List.sum_append, none]
    simpa using least
  have spent := Progress.spent_le (fun s => (s.crews k).stepsLeft) (Program.helperSteps k)
    (fun s act => 2 * Program.jobsTaken k s act) (fun s => (s.crews k).finished = true)
    (fun s act told waiting => (Program.helper_stepsLeft k s act told waiting).1)
    (fun s act told waiting => (Program.helper_stepsLeft k s act told waiting).2) more s
    (tracks.finished.trans finished) waiting
  rw [Progress.along_mul] at spent
  omega

def toFirstJoin : List ProgramAct :=
  List.replicate 6 .main ++ .worker 0 0 true :: List.replicate 3 .main

theorem oneEnclave_stops : ∃ rest,
    (Runs.run Program.act (Program.start 1) toFirstJoin).code = .joinHelper 0 :: rest ∧
    Progress.along Program.act (Program.helperSteps 0)
        (Runs.run Program.act (Program.start 1) toFirstJoin) (List.replicate 9 (.helper 0 0 false)) ≤
      2 * Progress.along Program.act (Program.jobsTaken 0)
        (Runs.run Program.act (Program.start 1) toFirstJoin)
        (List.replicate 9 (.helper 0 0 false)) + 5 := by
  refine ⟨_, rfl, stop_helper_returns 1 toFirstJoin _ 0 _ rfl ?_⟩
  intro act member
  rw [List.eq_of_mem_replicate member]
  exact fun wrong => ProgramAct.noConfusion wrong

end Waiting

end Hosk
