import Hosk.BlockReuse

/-! Runs of a helper on the allocator of its enclave, with `nfree` as it is. -/

namespace Hosk

namespace Enclave

/-- No lowering of this pass begins with an inode of the lowest row that `nfree` takes for another
block. -/
def PassSpares (e : Enclave) : Prop := ∀ middle ∈ e.beforeLowering numa, middle.Spares

/-- A pass that lowers drops its row cleanly, and `nfree` takes no other block for an inode of it. -/
def SoundPass (e : Enclave) : Prop := e.CleanPass numa ∧ e.PassSpares

/-- A pass that lowers finds towers that stand, and no inode that `nfree` takes for another block. -/
def SafePass (e : Enclave) : Prop :=
  ∀ middle ∈ e.beforeLowering numa, middle.TowersStand ∧ middle.Spares

instance (e : Enclave) : Decidable e.SafePass := inferInstanceAs (Decidable (∀ _ ∈ _, _))

end Enclave

namespace Repr

variable {e : Enclave} {l : Layout}

theorem beforeLowering_same (repr : Repr e l) (tidy : Tidy e.trace) :
    e.beforeLowering numa = e.beforeLowering numa.guarded := by
  rw [Enclave.beforeLowering, Enclave.beforeLowering, (repr.raiseIndexLayer_twins tidy).same]
  rfl

theorem cleanPass_iff (repr : Repr e l) (tidy : Tidy e.trace) :
    e.CleanPass numa ↔ e.CleanPass numa.guarded := by
  rw [Enclave.CleanPass, Enclave.CleanPass, (repr.raiseIndexLayer_twins tidy).same]
  exact Iff.rfl

theorem passesBy_iff (repr : Repr e l) (tidy : Tidy e.trace) (held : List Nat) :
    e.PassesBy numa held ↔ e.PassesBy numa.guarded held := by
  rw [Enclave.PassesBy, Enclave.PassesBy, (repr.raiseIndexLayer_twins tidy).same]
  exact Iff.rfl

theorem soundPass_of_safe (repr : Repr e l) (tidy : Tidy e.trace) (safe : e.SafePass) : e.SoundPass := by
  refine ⟨(repr.cleanPass_iff tidy).mpr (repr.cleanPass_of_stand numa.guarded_honest ?_),
    fun middle isBefore => (safe middle isBefore).2⟩
  rw [← repr.beforeLowering_same tidy]
  exact fun middle isBefore => (safe middle isBefore).1

/-- Calls whose passes are sound do what they do when `nfree` compares addresses. -/
theorem calls_twins {allowed : Enclave → Prop}
    (sound : ∀ e l, Repr e l → Tidy e.trace → allowed e → e.SoundPass) (calls : List Call) : ∀ e l,
    Repr e l → Tidy e.trace → JobsOk e.nodes (jobsOf calls) →
    Runs.Along (Enclave.turn numa) (fun state call => call = .pass → ∀ e ∈ state, allowed e) (some e)
      calls →
    ∃ e' l', Runs.run (Enclave.turn numa) (some e) calls = some e' ∧
      Runs.run (Enclave.turn numa.guarded) (some e) calls = some e' ∧ Repr e' l' ∧ Tidy e'.trace ∧
      Runs.Along (Enclave.turn numa) (fun state call => call = .pass → ∀ e ∈ state, e.SoundPass) (some e)
        calls ∧
      Runs.Along (Enclave.turn numa.guarded)
        (fun state call => ∀ e, state = some e → call = .pass → e.CleanPass numa.guarded) (some e)
        calls := by
  induction calls with
  | nil => exact fun e l repr tidy _ _ => ⟨e, l, rfl, rfl, repr, tidy, trivial, trivial⟩
  | cons call rest ih =>
      rintro e l repr tidy jobs ⟨now, later⟩
      have soundNow := fun isPass => sound e l repr tidy (now isPass e rfl)
      have clean : call = .pass → e.CleanPass numa.guarded := fun isPass =>
        (repr.cleanPass_iff tidy).mp (soundNow isPass).1
      obtain ⟨middle, l₁, called, levels, repr₁, _⟩ :=
        repr.call_refines numa.guarded_honest call jobs.first clean
      have twins := repr.call_twins tidy call fun isPass => (soundNow isPass).2
      have turned : Enclave.turn numa (some e) call = some middle := twins.same.trans called
      have turned' : Enclave.turn numa.guarded (some e) call = some middle := called
      have tidy₁ : Tidy middle.trace := twins.ends middle (twins.same.trans called)
      rw [turned] at later
      obtain ⟨e', l', ran, ran', repr', tidy', soundly, along⟩ :=
        ih middle l₁ repr₁ tidy₁ (jobs.later levels) later
      refine ⟨e', l', ?_, ?_, repr', tidy',
        ⟨fun isPass before same => Option.some.inj same ▸ soundNow isPass, ?_⟩,
        fun before same => Option.some.inj same ▸ clean, ?_⟩
      · rw [Runs.run_cons, turned]
        exact ran
      · rw [Runs.run_cons, turned']
        exact ran'
      · rw [turned]
        exact soundly
      · rw [turned']
        exact along

end Repr

namespace DataNodes

variable (data : DataNodes)

def start : Option Enclave := Enclave.threadInit numa data.nodes data.sentinel

def run (calls : List Call) : Option Enclave := Runs.run (Enclave.turn numa) data.start calls

def Soundly (calls : List Call) : Prop :=
  Runs.Along (Enclave.turn numa) (fun state call => call = .pass → ∀ e ∈ state, e.SoundPass) data.start
    calls

def Safely (calls : List Call) : Prop :=
  Runs.Along (Enclave.turn numa) (fun state call => call = .pass → ∀ e ∈ state, e.SafePass) data.start
    calls

instance (calls : List Call) : Decidable (data.Safely calls) := Runs.decidableAlong _ _ _ _

variable {data} {calls : List Call}

theorem run_twins {allowed : Enclave → Prop}
    (sound : ∀ e l, Repr e l → Tidy e.trace → allowed e → e.SoundPass)
    (jobs : JobsOk data.nodes (jobsOf calls))
    (along : Runs.Along (Enclave.turn numa) (fun state call => call = .pass → ∀ e ∈ state, allowed e)
      data.start calls) :
    ∃ e l, data.run calls = some e ∧ data.guarded.run calls = some e ∧ Repr e l ∧ Tidy e.trace ∧
      data.Soundly calls ∧ data.guarded.Cleanly calls := by
  obtain ⟨first, l, begins, nodes, repr, _⟩ := data.guarded.starts
  have twins := Enclave.threadInit_twins numa_agree trivial data.nodes data.sentinel
  have begins' : data.start = some first := twins.same.trans begins
  have tidy : Tidy first.trace := twins.ends first begins'
  have jobsHere : JobsOk first.nodes (jobsOf calls) := by
    rw [nodes]
    exact jobs
  rw [begins'] at along
  obtain ⟨e, l', ran, ran', repr', tidy', soundly, clean⟩ :=
    Repr.calls_twins sound calls first l repr tidy jobsHere along
  refine ⟨e, l', ?_, ?_, repr', tidy', ?_, ?_⟩
  · rw [run, begins']
    exact ran
  · rw [Setting.run, begins]
    exact ran'
  · rw [Soundly, begins']
    exact soundly
  · rw [Setting.Cleanly, begins]
    exact clean

theorem Safely.run_twins (jobs : JobsOk data.nodes (jobsOf calls)) (safely : data.Safely calls) :
    ∃ e l, data.run calls = some e ∧ data.guarded.run calls = some e ∧ Repr e l ∧ Tidy e.trace ∧
      data.Soundly calls ∧ data.guarded.Cleanly calls :=
  DataNodes.run_twins (fun _ _ repr tidy safe => repr.soundPass_of_safe tidy safe) jobs safely

theorem Soundly.run_twins (jobs : JobsOk data.nodes (jobsOf calls)) (soundly : data.Soundly calls) :
    ∃ e l, data.run calls = some e ∧ data.guarded.run calls = some e ∧ Repr e l ∧ Tidy e.trace ∧
      data.Soundly calls ∧ data.guarded.Cleanly calls :=
  DataNodes.run_twins (fun _ _ _ _ sound => sound) jobs soundly

end DataNodes

/-- No deleted inode or mnode is within reach after any call, as long as every lowering finds towers
that stand over its lowest row and `nfree` takes no other block for an inode of that row. -/
theorem deleted_unreachable_of_safe (data : DataNodes) {calls : List Call}
    (jobs : JobsOk data.nodes (jobsOf calls)) (safely : data.Safely calls) :
    ∀ first rest, calls = first ++ rest → ∃ e, data.run first = some e ∧ e.NoneDeleted := by
  intro first rest split
  have jobsFirst := jobs.front split
  subst split
  obtain ⟨e, l, ran, _, repr, _⟩ :=
    DataNodes.Safely.run_twins jobsFirst (Runs.Along.first safely)
  exact ⟨e, ran, repr.none_deleted⟩

theorem twiceLowered_none_deleted : ∃ e, (numaData twiceLoweredKeys).run twiceLowered = some e ∧
    e.NoneDeleted := by
  have safely : (numaData twiceLoweredKeys).Safely twiceLowered := by decide +kernel
  exact deleted_unreachable_of_safe (numaData twiceLoweredKeys) twiceLowered_ok.1 safely twiceLowered []
    (List.append_nil _).symm

theorem staggered_same : (numaData (List.range' 1 15)).run staggered =
    (numaSetting (List.range' 1 15)).run staggered := by
  decide +kernel

theorem staggered_keeps_deleted : JobsOk (numaData (List.range' 1 15)).nodes (jobsOf staggered) ∧
    ∃ e, (numaData (List.range' 1 15)).run staggered = some e ∧ ¬ e.NoneDeleted := by
  obtain ⟨jobs, e, ran, notNone⟩ := staggered_reaches_deleted
  exact ⟨jobs, e, staggered_same.trans ran, notNone⟩

end Hosk
