import Hosk.LoweringDecision

/-! The counters of `update_index_layer` as 32-bit signed integers, where nothing is deleted. -/

namespace Hosk

/-- The largest `non_del` whose tenfold is still a 32-bit signed integer. -/
def counterLimit : Int := 214748364

def Platform.Wraps32 (platform : Platform) : Prop :=
  ∀ value, platform.int value = value.bmod (2 ^ 32)

theorem Platform.Wraps32.exact {platform : Platform} (wraps : platform.Wraps32) {value : Int}
    (lower : -(2 ^ 31) ≤ value) (upper : value < 2 ^ 31) : platform.int value = value := by
  rw [wraps]
  apply Int.bmod_eq_of_le_mul_two <;> omega

theorem Platform.Wraps32.below {platform : Platform} (wraps : platform.Wraps32) (value : Int) :
    platform.int value < 2 ^ 31 := by
  rw [wraps]
  have bound := @Int.bmod_lt value (2 ^ 32) (by decide)
  omega

/-- The counters of this pass and their product are what they are without a bound on integers, and
the pass lowers nothing. -/
def Enclave.PassExact (platform : Platform) (e : Enclave) : Prop :=
  ∃ inodes middle, e.raiseIndexLayer platform = some (inodes, middle) ∧
    middle.nonDel = e.nonDel + unmarkedIn e.listedEntries ∧
    middle.tallDel = e.tallDel + tallMarkedIn e.listedEntries ∧
    platform.int (middle.nonDel * 10) = middle.nonDel * 10 ∧
    Enclave.lowers platform inodes middle = none

theorem Enclave.PassExact.stays {platform : Platform} {e : Enclave} (isExact : e.PassExact platform) :
    e.lowersAt platform = none := by
  obtain ⟨inodes, middle, raised, _, _, _, notLower⟩ := isExact
  rw [Enclave.lowersAt, raised]
  exact notLower

def Enclave.IntFits (platform : Platform) (e : Enclave) : Prop :=
  ∀ value, 0 ≤ value → value ≤ (e.nonDel + unmarkedIn e.listedEntries) * 10 →
    platform.int value = value

/-- The next count of the unmarked mnodes stays within the limit. -/
def Enclave.CountFits (e : Enclave) : Prop :=
  e.nonDel + unmarkedIn e.listedEntries ≤ counterLimit

instance (e : Enclave) : Decidable e.CountFits := inferInstanceAs (Decidable (_ ≤ _))

theorem Platform.Wraps32.intFits {platform : Platform} (wraps : platform.Wraps32) {e : Enclave}
    (fits : e.CountFits) : e.IntFits platform := by
  intro value positive bound
  rw [Enclave.CountFits, counterLimit] at fits
  exact wraps.exact (by omega) (by omega)

namespace Index

structure Undeleted (index : Index) : Prop where
  unmarked : ∀ entry ∈ index.entries, entry.marked = false
  counted : 0 ≤ index.nonDel
  noneTall : index.tallDel = 0

theorem unmarked_relevelled {entries entries' : List Entry} (levels : Relevelled entries entries')
    (unmarked : ∀ entry ∈ entries, entry.marked = false) :
    ∀ entry ∈ entries', entry.marked = false := by
  obtain ⟨change, same, rfl⟩ := levels
  intro entry member
  obtain ⟨old, inEntries, rfl⟩ := List.mem_map.mp member
  exact (same old).2.2.trans (unmarked old inEntries)

theorem Undeleted.tallMarked {index : Index} (undeleted : index.Undeleted) :
    tallMarkedIn index.entries = 0 := by
  rw [tallMarkedIn, List.countP_eq_zero]
  intro entry member
  simp [undeleted.unmarked entry member]

theorem unmarked_applyJob {job : Job} (inserts : job.node ≠ 0) {entries : List Entry}
    (unmarked : ∀ entry ∈ entries, entry.marked = false) :
    ∀ entry ∈ applyJob job entries, entry.marked = false := by
  intro entry member
  rcases applyJob_origin member with old | ⟨_, marked, _⟩
  · exact unmarked entry old
  · rw [marked, decide_eq_false inserts]

theorem Undeleted.job {index : Index} (undeleted : index.Undeleted) {job : Job}
    (inserts : job.node ≠ 0) : (index.updateIntermediateLayer job).Undeleted :=
  ⟨unmarked_applyJob inserts undeleted.unmarked, undeleted.counted, undeleted.noneTall⟩

theorem Undeleted.reset {index : Index} (undeleted : index.Undeleted) : index.reset.Undeleted :=
  ⟨unmarked_relevelled (reset_relevelled index) undeleted.unmarked, undeleted.counted,
    undeleted.noneTall⟩

theorem Undeleted.pass {index : Index} {int : Int → Int} (undeleted : index.Undeleted)
    (counts : (index.raiseIndexLayer int).nonDel = index.nonDel + unmarkedIn index.entries ∧
      (index.raiseIndexLayer int).tallDel = index.tallDel + tallMarkedIn index.entries) :
    (index.raiseIndexLayer int).Undeleted := by
  refine ⟨unmarked_relevelled (raiseIndexLayer_relevelled int index) ?_, ?_, ?_⟩
  · exact fun entry member => undeleted.unmarked entry (List.mem_filter.mp member).1
  · rw [counts.1]
    have counted := undeleted.counted
    omega
  · rw [counts.2, undeleted.noneTall, undeleted.tallMarked]
    rfl

end Index

namespace Repr

variable {e : Enclave} {l : Layout} {platform : Platform}

theorem passExact_of_fits (honest : platform.Honest) (repr : Repr e l)
    (undeleted : (abs e l).Undeleted) (fits : e.IntFits platform) : e.PassExact platform := by
  obtain ⟨middle, l₁, inodes, raised, _, repr₁, _, heads, abs₁⟩ :=
    repr.raiseIndexLayer_refines honest
  have counted : 0 ≤ e.nonDel := undeleted.counted
  have entries := repr.listedEntries_eq
  have exactNon : ∀ value, (abs e l).nonDel ≤ value →
      value ≤ (abs e l).nonDel + unmarkedIn (abs e l).entries → platform.int value = value := by
    intro value lower upper
    rw [← entries] at upper
    have lower' : e.nonDel ≤ value := lower
    have upper' : value ≤ e.nonDel + unmarkedIn e.listedEntries := upper
    exact fits value (by omega) (by omega)
  have exactTall : ∀ value, (abs e l).tallDel ≤ value →
      value ≤ (abs e l).tallDel + tallMarkedIn (abs e l).entries → platform.int value = value := by
    intro value lower upper
    rw [undeleted.tallMarked] at upper
    rw [undeleted.noneTall] at lower upper
    exact fits value (by omega) (by omega)
  obtain ⟨nonDel, tallDel⟩ := (abs e l).raiseIndexLayer_counts exactNon exactTall
  rw [← abs₁, ← entries] at nonDel tallDel
  have nonDel' : middle.nonDel = e.nonDel + unmarkedIn e.listedEntries := nonDel
  have noneTall : middle.tallDel = 0 := by
    rw [show middle.tallDel = _ from tallDel, undeleted.noneTall, entries, undeleted.tallMarked]
    rfl
  have product : platform.int (middle.nonDel * 10) = middle.nonDel * 10 :=
    fits _ (by omega) (by rw [nonDel'])
  refine ⟨inodes, middle, raised, nonDel', tallDel, product, ?_⟩
  rw [Enclave.lowers, product, noneTall, if_neg]
  omega

theorem passExact_iff (honest : platform.Honest) (wraps : platform.Wraps32) (repr : Repr e l)
    (undeleted : (abs e l).Undeleted) : e.PassExact platform ↔ e.CountFits := by
  constructor
  · rintro ⟨inodes, middle, raised, nonDel, _, product, _⟩
    rw [Enclave.CountFits, counterLimit]
    have below := wraps.below (middle.nonDel * 10)
    rw [product, nonDel] at below
    omega
  · exact fun fits => repr.passExact_of_fits honest undeleted (wraps.intFits fits)

theorem raised_counts (honest : platform.Honest) (repr : Repr e l) (isExact : e.PassExact platform) :
    ((abs e l).raiseIndexLayer platform.int).nonDel =
        (abs e l).nonDel + unmarkedIn (abs e l).entries ∧
      ((abs e l).raiseIndexLayer platform.int).tallDel =
        (abs e l).tallDel + tallMarkedIn (abs e l).entries := by
  obtain ⟨middle, l₁, inodes, raised, _, repr₁, _, heads, abs₁⟩ :=
    repr.raiseIndexLayer_refines honest
  obtain ⟨inodes', middle', raised', nonDel, tallDel, _, _⟩ := isExact
  rw [raised] at raised'
  obtain ⟨rfl, rfl⟩ := Prod.mk.inj (Option.some.inj raised')
  rw [← abs₁, ← repr.listedEntries_eq]
  exact ⟨nonDel, tallDel⟩

theorem undeleted_call (honest : platform.Honest) (repr : Repr e l) (undeleted : (abs e l).Undeleted)
    (call : Call) (inserts : ∀ job, call = .job job → job.node ≠ 0)
    (isExact : call = .pass → e.PassExact platform) :
    ((abs e l).call platform.int call).Undeleted := by
  cases call with
  | job job => exact undeleted.job (inserts job rfl)
  | reset => exact undeleted.reset
  | pass =>
      rw [Index.call, repr.not_lowers honest (isExact rfl).stays]
      exact undeleted.pass (repr.raised_counts honest (isExact rfl))

theorem call_undeleted (honest : platform.Honest) (repr : Repr e l)
    (undeleted : (abs e l).Undeleted) (call : Call)
    (jobOk : ∀ job, call = .job job → 1 ≤ job.key ∧
      (job.node ≠ 0 → (Store.get e.nodes job.node).map Node.key = some job.key))
    (inserts : ∀ job, call = .job job → job.node ≠ 0)
    (isExact : call = .pass → e.PassExact platform) : ∃ e' l',
      e.call platform call = some e' ∧ LevelsOnly e.nodes e'.nodes ∧ Repr e' l' ∧
      (abs e' l').Undeleted ∧ abs e' l' = (abs e l).call platform.int call := by
  obtain ⟨e', l', called, levels, repr', absEq⟩ := repr.call_refines honest call jobOk
    fun isPass => Enclave.cleanPass_of_stays (isExact isPass).stays
  refine ⟨e', l', called, levels, repr', ?_, absEq⟩
  rw [absEq]
  exact repr.undeleted_call honest undeleted call inserts isExact

theorem passes_exact_iff (honest : platform.Honest) (wraps : platform.Wraps32) (calls : List Call) :
    ∀ e l, Repr e l → (abs e l).Undeleted → JobsOk e.nodes (jobsOf calls) →
    (∀ job ∈ jobsOf calls, job.node ≠ 0) →
    (Runs.Along (Enclave.turn platform)
      (fun state call => call = .pass → ∃ e ∈ state, e.PassExact platform) (some e) calls ↔
    Runs.Along (Enclave.turn platform)
      (fun state call => call = .pass → ∃ e ∈ state, e.CountFits) (some e) calls) := by
  induction calls with
  | nil => exact fun _ _ _ _ _ _ => Iff.rfl
  | cons call rest ih =>
      intro e l repr undeleted jobs inserts
      have agree : (call = .pass → ∃ e' ∈ some e, e'.PassExact platform) ↔
          (call = .pass → ∃ e' ∈ some e, e'.CountFits) := by
        simp only [Option.mem_some, exists_eq_left', repr.passExact_iff honest wraps undeleted]
      have onward : (call = .pass → ∃ e' ∈ some e, e'.PassExact platform) →
          (Runs.Along (Enclave.turn platform)
            (fun state call => call = .pass → ∃ e ∈ state, e.PassExact platform)
              (Enclave.turn platform (some e) call) rest ↔
          Runs.Along (Enclave.turn platform)
            (fun state call => call = .pass → ∃ e ∈ state, e.CountFits)
              (Enclave.turn platform (some e) call) rest) := by
        intro isExact
        have now : ∀ job, call = .job job → job.node ≠ 0 := by
          rintro job rfl
          exact inserts job (by rw [jobsOf_cons]; exact List.mem_cons_self)
        obtain ⟨middle, l₁, called, levels, repr₁, undeleted₁, _⟩ := repr.call_undeleted honest undeleted
          call jobs.first now fun isPass => by simpa using isExact isPass
        rw [show Enclave.turn platform (some e) call = some middle from called]
        apply ih middle l₁ repr₁ undeleted₁ (jobs.later levels)
        intro job member
        exact inserts job (by rw [jobsOf_cons]; exact List.mem_append_right _ member)
      constructor
      · rintro ⟨isExact, later⟩
        exact ⟨agree.mp isExact, (onward isExact).mp later⟩
      · rintro ⟨fits, later⟩
        exact ⟨agree.mpr fits, (onward (agree.mpr fits)).mpr later⟩

end Repr

theorem Index.initial_undeleted : Index.initial.Undeleted :=
  ⟨fun _ none => absurd none List.not_mem_nil, Int.le_refl 0, rfl⟩

def Setting.IntFits (setting : Setting) (calls : List Call) : Prop :=
  Runs.Along (Enclave.turn setting.platform)
    (fun state call => call = .pass → ∀ e ∈ state, e.IntFits setting.platform) setting.start calls

theorem Setting.run_undeleted (setting : Setting) {calls : List Call}
    (jobs : JobsOk setting.nodes (jobsOf calls)) (inserts : ∀ job ∈ jobsOf calls, job.node ≠ 0)
    (fits : setting.IntFits calls) : ∃ e l, setting.run calls = some e ∧
      LevelsOnly setting.nodes e.nodes ∧ Repr e l ∧ (abs e l).Undeleted ∧
      abs e l = calls.foldl (Index.call setting.platform.int) Index.initial := by
  have along : Runs.Along (Enclave.turn setting.platform)
      (fun state call => ∀ e, state = some e → call = .pass → e.IntFits setting.platform)
      setting.start calls :=
    Runs.Along.imp (fun _ _ isFit e isState isPass => isFit isPass e isState) calls fits
  refine setting.run_rule (motive := fun _ index => index.Undeleted) Index.initial_undeleted ?_ jobs
    (jobs_given inserts) along
  intro e l _ call repr undeleted given isFit
  have isExact : call = .pass → e.PassExact setting.platform :=
    fun isPass => repr.passExact_of_fits setting.honest undeleted (isFit isPass)
  exact ⟨fun isPass => Enclave.cleanPass_of_stays (isExact isPass).stays,
    repr.undeleted_call setting.honest undeleted call given isExact⟩

/-- Where no delete job is given, the counters are exact and nothing is lowered if and only if
every count fits. -/
theorem counters_exact_iff_counts_fit (setting : Setting) (wraps : setting.platform.Wraps32)
    {calls : List Call} (jobs : JobsOk setting.nodes (jobsOf calls))
    (inserts : ∀ job ∈ jobsOf calls, job.node ≠ 0) :
    Runs.Along (Enclave.turn setting.platform)
      (fun state call => call = .pass → ∃ e ∈ state, e.PassExact setting.platform)
        setting.start calls ↔
    Runs.Along (Enclave.turn setting.platform)
      (fun state call => call = .pass → ∃ e ∈ state, e.CountFits) setting.start calls := by
  obtain ⟨first, l, begins, nodes, repr, absEq, _⟩ := setting.starts
  rw [begins]
  apply Repr.passes_exact_iff setting.honest wraps calls first l repr _ (nodes ▸ jobs) inserts
  rw [absEq]
  exact Index.initial_undeleted

theorem numa_wraps : numa.guarded.Wraps32 := fun _ => rfl

theorem secondRaised_counters :
    Runs.Along (Enclave.turn numa.guarded) (fun state call => call = .pass → ∃ e ∈ state, e.PassExact numa.guarded)
      (numaSetting [1, 2, 3]).start secondRaised ↔
    Runs.Along (Enclave.turn numa.guarded) (fun state call => call = .pass → ∃ e ∈ state, e.CountFits)
      (numaSetting [1, 2, 3]).start secondRaised :=
  counters_exact_iff_counts_fit (numaSetting [1, 2, 3]) numa_wraps
    ⟨by decide, by decide, by decide⟩ (by decide)

section Idle

def threeStable (counted : Int) : Index :=
  ⟨[⟨1, 1001, 0, false⟩, ⟨2, 1002, 1, false⟩, ⟨3, 1003, 0, false⟩], [[2], []], counted, 0, 0⟩

theorem threeStable_undeleted {counted : Int} (positive : 0 ≤ counted) :
    (threeStable counted).Undeleted :=
  ⟨by simp [threeStable], positive, rfl⟩

theorem threeStable_pass {int : Int → Int} {counted : Int}
    (isExact : ∀ value, counted ≤ value → value ≤ counted + 3 → int value = value) :
    (threeStable counted).raiseIndexLayer int = threeStable (counted + 3) := by
  have raised : (threeStable counted).raiseIndexLayer int =
      threeStable (int (int (int (counted + 1) + 1) + 1)) := rfl
  rw [raised, isExact (counted + 1) (by omega) (by omega), isExact (counted + 1 + 1) (by omega) (by omega),
    isExact (counted + 1 + 1 + 1) (by omega) (by omega)]
  congr 1
  omega

variable {e : Enclave} {l : Layout}

theorem countFits_stable (repr : Repr e l) {counted : Int} (stable : abs e l = threeStable counted) :
    e.CountFits ↔ counted + 3 ≤ counterLimit := by
  rw [Enclave.CountFits, repr.listedEntries_eq, show e.nonDel = (abs e l).nonDel from rfl, stable]
  rfl

theorem stable_pass (repr : Repr e l) {counted : Int} (positive : 0 ≤ counted)
    (stable : abs e l = threeStable counted) (fits : counted + 3 ≤ counterLimit) : ∃ e' l',
      e.call numa.guarded .pass = some e' ∧ Repr e' l' ∧ abs e' l' = threeStable (counted + 3) := by
  have isExact : e.PassExact numa.guarded := (repr.passExact_iff numa.guarded_honest numa_wraps
    (stable ▸ threeStable_undeleted positive)).mpr ((countFits_stable repr stable).mpr fits)
  have stays := isExact.stays
  obtain ⟨e', l', called, _, repr', absEq⟩ := repr.call_refines numa.guarded_honest .pass
    (fun job wrong => Call.noConfusion wrong) fun _ => Enclave.cleanPass_of_stays stays
  refine ⟨e', l', called, repr', ?_⟩
  rw [absEq, Index.call, repr.not_lowers numa.guarded_honest stays, stable]
  apply threeStable_pass
  rw [counterLimit] at fits
  intro value lower upper
  exact numa_wraps.exact (by omega) (by omega)

theorem stable_passes (count : Nat) : ∀ e l (counted : Int), Repr e l → 0 ≤ counted →
    abs e l = threeStable counted → counted + 3 * count ≤ counterLimit → ∃ e' l',
      Runs.run (Enclave.turn numa.guarded) (some e) (List.replicate count .pass) = some e' ∧ Repr e' l' ∧
      abs e' l' = threeStable (counted + 3 * count) := by
  induction count with
  | zero =>
      intro e l counted repr _ stable _
      exact ⟨e, l, rfl, repr, by simpa using stable⟩
  | succ count ih =>
      intro e l counted repr positive stable fits
      push_cast at fits
      obtain ⟨middle, l₁, called, repr₁, stable₁⟩ :=
        stable_pass repr positive stable (by omega)
      obtain ⟨e', l', ran, repr', stable'⟩ :=
        ih middle l₁ (counted + 3) repr₁ (by omega) stable₁ (by omega)
      refine ⟨e', l', ?_, repr', ?_⟩
      · rw [List.replicate_succ, Runs.run_cons,
          show Enclave.turn numa.guarded (some e) .pass = some middle from called]
        exact ran
      · rw [stable']
        push_cast
        congr 1
        omega

def idle (count : Nat) : List Call := secondRaised ++ List.replicate count .pass

theorem idle_jobs (count : Nat) : jobsOf (idle count) = jobsOf secondRaised := by
  rw [idle, jobsOf, List.filterMap_append, ← jobsOf, List.filterMap_replicate_of_none rfl]
  exact List.append_nil _

/-- After 71582788 passes over three keys the next one lowers the index, with nothing deleted. -/
theorem idle_lowered : JobsOk (numaSetting [1, 2, 3]).nodes (jobsOf (idle 71582787)) ∧
    (∀ job ∈ jobsOf (idle 71582787), job.node ≠ 0) ∧
    ∃ e newLow, (numaSetting [1, 2, 3]).run (idle 71582787) = some e ∧
      ¬ e.PassExact numa.guarded ∧ e.lowersAt numa.guarded = some newLow := by
  have jobs : JobsOk (numaSetting [1, 2, 3]).nodes (jobsOf secondRaised) :=
    ⟨by decide, by decide, by decide⟩
  have never : (numaSetting [1, 2, 3]).NeverLowers secondRaised := by decide +kernel
  obtain ⟨e, l, ran, _, repr, absEq⟩ := (numaSetting [1, 2, 3]).run_refines jobs never.cleanly
  have stable : abs e l = threeStable 3 := absEq.trans (by decide +kernel)
  obtain ⟨e', l', idles, repr', stable'⟩ := stable_passes 71582787 e l 3 repr (by decide) stable
    (by decide)
  rw [idle_jobs]
  refine ⟨jobs, by decide, e', ?_⟩
  have limit : (3 : Int) + 3 * (71582787 : Nat) = 214748364 := by decide
  rw [limit] at stable'
  have notFits : ¬ e'.CountFits := by
    rw [countFits_stable repr' stable']
    decide
  have notExact : ¬ e'.PassExact numa.guarded := fun isExact => notFits
    ((repr'.passExact_iff numa.guarded_honest numa_wraps
      (stable' ▸ threeStable_undeleted (by decide))).mp isExact)
  obtain ⟨middle, l₁, inodes, raised, _, repr₁, _, heads, abs₁⟩ :=
    repr'.raiseIndexLayer_refines numa.guarded_honest
  rw [stable', threeStable_pass fun value lower upper =>
    numa_wraps.exact (by omega) (by omega)] at abs₁
  rcases Repr.lowers_eq numa.guarded middle l₁ heads with ⟨_, notLower⟩ | ⟨newLow, drops, _⟩
  · rw [abs₁] at notLower
    exact absurd notLower (by decide)
  · refine ⟨newLow, ?_, notExact, ?_⟩
    · rw [idle, Setting.run, Runs.run_append]
      exact (congrArg (fun state => Runs.run _ state _) ran).trans idles
    · rw [Enclave.lowersAt, raised]
      exact drops

end Idle

end Hosk
