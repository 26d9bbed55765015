import Hosk.IndexRefinement
import Hosk.Runs

/-! Runs of one helper: jobs, passes over the index and resets, in any order. -/

namespace Hosk

inductive Call where
  | job (job : Job)
  | pass
  | reset
  deriving DecidableEq

def Enclave.call (platform : Platform) (e : Enclave) : Call → Option Enclave
  | .job job => e.updateIntermediateLayer platform job
  | .pass => e.updateIndexLayer platform
  | .reset => e.resetIndex platform

def Index.call (int : Int → Int) (index : Index) : Call → Index
  | .job job => index.updateIntermediateLayer job
  | .pass => index.updateIndexLayer int
  | .reset => index.reset

def Enclave.turn (platform : Platform) (state : Option Enclave) (call : Call) : Option Enclave :=
  state.bind fun e => e.call platform call

def Call.asJob : Call → Option Job
  | .job given => some given
  | _ => none

def jobsOf (calls : List Call) : List Job := calls.filterMap Call.asJob

@[simp] theorem jobsOf_nil : jobsOf [] = [] := rfl

theorem jobsOf_cons (call : Call) (calls : List Call) :
    jobsOf (call :: calls) = call.asJob.toList ++ jobsOf calls := by
  cases call <;> rfl

theorem jobsOf_snoc (calls : List Call) (call : Call) :
    jobsOf (calls ++ [call]) = jobsOf calls ++ call.asJob.toList := by
  rw [jobsOf, List.filterMap_append]
  cases call <;> rfl

theorem jobs_given {calls : List Call} {holds : Job → Prop} (all : ∀ job ∈ jobsOf calls, holds job) :
    ∀ call ∈ calls, ∀ job, call = .job job → holds job := by
  rintro call member job rfl
  exact all job (List.mem_filterMap.mpr ⟨_, member, rfl⟩)

/-- The jobs of a run: positive keys, and the insertions of a key with its one data node. -/
structure JobsOk (nodes : Nodes) (jobs : List Job) : Prop where
  positive : ∀ job ∈ jobs, 1 ≤ job.key
  stored : ∀ job ∈ jobs, job.node ≠ 0 → (Store.get nodes job.node).map Node.key = some job.key
  sameNode : ∀ job ∈ jobs, ∀ other ∈ jobs, job.key = other.key → job.node ≠ 0 → other.node ≠ 0 →
    job.node = other.node

theorem JobsOk.sublist {nodes : Nodes} {jobs some : List Job} (ok : JobsOk nodes jobs)
    (inside : some ⊆ jobs) : JobsOk nodes some :=
  ⟨fun job member => ok.positive job (inside member),
    fun job member => ok.stored job (inside member),
    fun job member other otherMember => ok.sameNode job (inside member) other (inside otherMember)⟩

theorem JobsOk.front {nodes : Nodes} {calls first rest : List Call} (ok : JobsOk nodes (jobsOf calls))
    (split : calls = first ++ rest) : JobsOk nodes (jobsOf first) := by
  subst split
  refine ok.sublist ?_
  rw [jobsOf, jobsOf, List.filterMap_append]
  exact List.subset_append_left _ _

theorem JobsOk.first {nodes : Nodes} {call : Call} {rest : List Call}
    (ok : JobsOk nodes (jobsOf (call :: rest))) : ∀ job, call = .job job → 1 ≤ job.key ∧
      (job.node ≠ 0 → (Store.get nodes job.node).map Node.key = some job.key) := by
  rintro job rfl
  have here : job ∈ jobsOf (.job job :: rest) := by
    rw [jobsOf_cons]
    exact List.mem_cons_self
  exact ⟨ok.positive job here, ok.stored job here⟩

theorem JobsOk.later {nodes nodes' : Nodes} {call : Call} {rest : List Call}
    (ok : JobsOk nodes (jobsOf (call :: rest))) (levels : LevelsOnly nodes nodes') :
    JobsOk nodes' (jobsOf rest) := by
  have part := ok.sublist (show jobsOf rest ⊆ jobsOf (call :: rest) by
    rw [jobsOf_cons]
    exact List.subset_append_right _ _)
  refine ⟨part.positive, ?_, part.sameNode⟩
  intro job member inserts
  obtain ⟨node, found, key⟩ := Option.map_eq_some_iff.mp (part.stored job member inserts)
  obtain ⟨node', found', same⟩ := levels.keys _ node found
  rw [found', Option.map_some, same, key]

def Enclave.lowersAt (platform : Platform) (e : Enclave) : Option Nat := do
  let (inodes, e) ← e.raiseIndexLayer platform
  lowers platform inodes e

theorem Enclave.cleanPass_of_stays {platform : Platform} {e : Enclave}
    (stays : e.lowersAt platform = none) : e.CleanPass platform := by
  intro inodes middle newLow raised drops
  rw [Enclave.lowersAt, raised] at stays
  exact absurd (stays.symm.trans drops) (Option.some_ne_none newLow).symm

theorem Enclave.passesBy_of_stays {platform : Platform} {e : Enclave}
    (stays : e.lowersAt platform = none) (held : List Nat) : e.PassesBy platform held := by
  intro inodes middle newLow raised drops
  rw [Enclave.lowersAt, raised] at stays
  exact absurd (stays.symm.trans drops) (Option.some_ne_none newLow).symm

structure DataNodes where
  nodes : Nodes
  null : Store.get nodes 0 = none
  sentinel : Nat
  isSentinel : (Store.get nodes sentinel).map Node.key = some 0

/-- What a helper runs on: an allocator that reuses no live block, and the data nodes. -/
structure Setting extends DataNodes where
  platform : Platform
  honest : platform.Honest

namespace Setting

variable (setting : Setting)

def start : Option Enclave :=
  Enclave.threadInit setting.platform setting.nodes setting.sentinel

def run (calls : List Call) : Option Enclave :=
  Runs.run (Enclave.turn setting.platform) setting.start calls

/-- Every pass of the run that lowers the index drops the lowest row cleanly. -/
def Cleanly (calls : List Call) : Prop :=
  Runs.Along (Enclave.turn setting.platform)
    (fun state call => ∀ e, state = some e → call = .pass → e.CleanPass setting.platform)
    setting.start calls

def NeverLowers (calls : List Call) : Prop :=
  Runs.Along (Enclave.turn setting.platform)
    (fun state call => call = .pass → (state.bind (Enclave.lowersAt setting.platform)) = none)
    setting.start calls

instance (calls : List Call) : Decidable (setting.NeverLowers calls) :=
  Runs.decidableAlong _ _ _ _

theorem NeverLowers.cleanly {setting : Setting} {calls : List Call}
    (never : setting.NeverLowers calls) : setting.Cleanly calls := by
  refine Runs.Along.imp ?_ calls never
  rintro state call stays e rfl isPass
  exact Enclave.cleanPass_of_stays (stays isPass)

end Setting

namespace Repr

variable {e : Enclave} {l : Layout} {platform : Platform}

theorem call_keeps (honest : platform.Honest) (repr : Repr e l) (call : Call)
    (jobOk : ∀ job, call = .job job → 1 ≤ job.key ∧
      (job.node ≠ 0 → (Store.get e.nodes job.node).map Node.key = some job.key))
    (clean : call = .pass → e.CleanPass platform) {held : List Nat}
    (goods : ∀ root ∈ held, call ≠ .reset ∧ l.good root)
    (away : call = .pass → e.PassesBy platform held) : ∃ e' l',
      e.call platform call = some e' ∧ LevelsOnly e.nodes e'.nodes ∧ Repr e' l' ∧
      Keeps (· ∈ held) (l.mnodes.filter fun p => call ≠ .pass || p.2.stays) e l e' l' ∧
      abs e' l' = (abs e l).call platform.int call := by
  cases call with
  | job job =>
      obtain ⟨positive, stored⟩ := jobOk job rfl
      obtain ⟨e', l', done, repr', absEq, nodes, keeps⟩ :=
        repr.updateIntermediateLayer_refines honest job positive fun inserts =>
          Option.map_eq_some_iff.mp (stored inserts)
      exact ⟨e', l', done, nodes ▸ LevelsOnly.refl _, repr',
        keeps.mono (fun root isHeld => (goods root isHeld).2) (List.filter_subset_self _), absEq⟩
  | pass =>
      obtain ⟨e', l', done, levels, repr', keeps, absEq⟩ := repr.updateIndexLayer_refines honest
        (clean rfl) (fun root isHeld => (goods root isHeld).2) (away rfl)
      exact ⟨e', l', done, levels, repr', keeps, absEq⟩
  | reset =>
      obtain ⟨e', l', done, levels, repr', keeps, absEq⟩ := repr.resetIndex_refines honest
      exact ⟨e', l', done, levels, repr',
        keeps.mono (fun root isHeld => (goods root isHeld).1 rfl) (List.filter_subset_self _), absEq⟩

theorem call_refines (honest : platform.Honest) (repr : Repr e l) (call : Call)
    (jobOk : ∀ job, call = .job job → 1 ≤ job.key ∧
      (job.node ≠ 0 → (Store.get e.nodes job.node).map Node.key = some job.key))
    (clean : call = .pass → e.CleanPass platform) : ∃ e' l',
      e.call platform call = some e' ∧ LevelsOnly e.nodes e'.nodes ∧ Repr e' l' ∧
      abs e' l' = (abs e l).call platform.int call := by
  obtain ⟨e', l', done, levels, repr', _, absEq⟩ := repr.call_keeps honest call jobOk clean
    (fun root (none : root ∈ []) => absurd none List.not_mem_nil) fun _ => e.passesBy_nil platform
  exact ⟨e', l', done, levels, repr', absEq⟩

/-- Runs keep what each call keeps, for calls of a given kind in states that allow them. -/
theorem calls_rule (honest : platform.Honest) {given : Call → Prop} {allowed : Enclave → Call → Prop}
    {motive : List Call → Index → Prop}
    (step : ∀ e l before call, Repr e l → motive before (abs e l) → given call → allowed e call →
      (call = .pass → e.CleanPass platform) ∧
        motive (before ++ [call]) ((abs e l).call platform.int call))
    (calls : List Call) : ∀ e l before, Repr e l → motive before (abs e l) →
    JobsOk e.nodes (jobsOf calls) → (∀ call ∈ calls, given call) →
    Runs.Along (Enclave.turn platform) (fun state call => ∀ e, state = some e → allowed e call) (some e)
      calls →
    ∃ e' l', Runs.run (Enclave.turn platform) (some e) calls = some e' ∧
      LevelsOnly e.nodes e'.nodes ∧ Repr e' l' ∧ motive (before ++ calls) (abs e' l') ∧
      abs e' l' = calls.foldl (Index.call platform.int) (abs e l) := by
  induction calls with
  | nil =>
      intro e l before repr holds _ _ _
      rw [← List.append_nil before] at holds
      exact ⟨e, l, rfl, LevelsOnly.refl _, repr, holds, rfl⟩
  | cons call rest ih =>
      rintro e l before repr holds jobs isGiven ⟨now, later⟩
      obtain ⟨clean, onward⟩ :=
        step e l before call repr holds (isGiven call List.mem_cons_self) (now e rfl)
      obtain ⟨middle, l₁, called, levels, repr₁, abs₁⟩ := repr.call_refines honest call jobs.first clean
      have turned : Enclave.turn platform (some e) call = some middle := called
      rw [turned] at later
      rw [← abs₁] at onward
      obtain ⟨e', l', ran, levels', repr', holds', absEq⟩ := ih middle l₁ (before ++ [call]) repr₁
        onward (jobs.later levels) (fun other member => isGiven other (List.mem_cons_of_mem _ member))
        later
      refine ⟨e', l', ?_, levels.trans levels', repr', by simpa using holds', ?_⟩
      · rw [Runs.run_cons, turned]
        exact ran
      · rw [absEq, abs₁, List.foldl_cons]

end Repr

namespace Setting

theorem prefix_ok (setting : Setting) {calls first rest : List Call}
    (jobs : JobsOk setting.nodes (jobsOf calls)) (clean : setting.Cleanly calls)
    (split : calls = first ++ rest) :
    JobsOk setting.nodes (jobsOf first) ∧ setting.Cleanly first := by
  refine ⟨jobs.front split, ?_⟩
  subst split
  exact Runs.Along.first clean

theorem starts (setting : Setting) : ∃ first l, setting.start = some first ∧
    first.nodes = setting.nodes ∧ Repr first l ∧ abs first l = Index.initial ∧
    ∀ p ∈ l.mnodes, p.2.node = setting.sentinel := by
  obtain ⟨node, found, key⟩ := Option.map_eq_some_iff.mp setting.isSentinel
  exact threadInit_refines setting.honest found key

theorem run_rule (setting : Setting) {given : Call → Prop} {allowed : Enclave → Call → Prop}
    {motive : List Call → Index → Prop} (initial : motive [] Index.initial)
    (step : ∀ e l before call, Repr e l → motive before (abs e l) → given call → allowed e call →
      (call = .pass → e.CleanPass setting.platform) ∧
        motive (before ++ [call]) ((abs e l).call setting.platform.int call))
    {calls : List Call} (jobs : JobsOk setting.nodes (jobsOf calls))
    (isGiven : ∀ call ∈ calls, given call)
    (along : Runs.Along (Enclave.turn setting.platform)
      (fun state call => ∀ e, state = some e → allowed e call) setting.start calls) : ∃ e l,
      setting.run calls = some e ∧ LevelsOnly setting.nodes e.nodes ∧ Repr e l ∧
      motive calls (abs e l) ∧ abs e l = calls.foldl (Index.call setting.platform.int) Index.initial := by
  obtain ⟨first, l, begins, nodes, repr, absEq, _⟩ := setting.starts
  rw [begins] at along
  rw [← nodes] at jobs
  rw [← absEq] at initial
  obtain ⟨e, l', ran, levels, repr', holds, absFinal⟩ :=
    Repr.calls_rule setting.honest step calls first l [] repr initial jobs isGiven along
  refine ⟨e, l', ?_, nodes ▸ levels, repr', holds, ?_⟩
  · rw [Setting.run, begins]
    exact ran
  · rw [absFinal, absEq]

/-- A run that drops its rows cleanly returns, and its memory holds what the calls make of the
lists. -/
theorem run_refines (setting : Setting) {calls : List Call}
    (jobs : JobsOk setting.nodes (jobsOf calls)) (clean : setting.Cleanly calls) : ∃ e l,
      setting.run calls = some e ∧ LevelsOnly setting.nodes e.nodes ∧ Repr e l ∧
      abs e l = calls.foldl (Index.call setting.platform.int) Index.initial := by
  have isGiven : ∀ call ∈ calls, True := fun _ _ => trivial
  obtain ⟨e, l, ran, levels, repr, _, absEq⟩ := setting.run_rule (motive := fun _ _ => True) trivial
    (fun _ _ _ _ _ _ _ isClean => ⟨isClean, trivial⟩) jobs isGiven clean
  exact ⟨e, l, ran, levels, repr, absEq⟩

end Setting

end Hosk
