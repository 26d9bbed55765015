import Hosk.InsertedRuns
import Hosk.OverflowingPasses
import Hosk.StartUpQueue

/-! When the wait at start-up ends: the height of the index against the share of each enclave. -/

namespace Hosk

structure PublishedOk (setting : Setting) (published : List Op) : Prop where
  jobs : JobsOk setting.nodes (published.map Op.job)
  inserts : ∀ op ∈ published, op.node ≠ 0
  distinct : (published.map Op.key).Nodup

theorem Replays.length_eq {jobs : List Job} {entries : List Entry} (replays : Replays jobs entries)
    (inserts : ∀ job ∈ jobs, job.node ≠ 0) (distinct : (jobs.map Job.key).Nodup) :
    entries.length = jobs.length := by
  have same : (entries.map Entry.key).Perm (jobs.map Job.key) := by
    refine (List.perm_ext_iff_of_nodup (keys_nodup replays.sorted) distinct).mpr fun key => ?_
    constructor
    · intro member
      obtain ⟨entry, inEntries, rfl⟩ := List.mem_map.mp member
      obtain ⟨job, inJobs, key, _⟩ := replays.inserted entry inEntries
      exact key ▸ List.mem_map_of_mem inJobs
    · intro member
      cases latest : latestJob jobs key with
      | none =>
          obtain ⟨job, inJobs, rfl⟩ := List.mem_map.mp member
          have missing := List.find?_eq_none.mp latest job (List.mem_reverse.mpr inJobs)
          exact absurd (decide_eq_true rfl) missing
      | some job =>
          obtain ⟨entry, inEntries, rfl⟩ :=
            replays.present key job latest (inserts job (latestJob_key latest).1)
          exact List.mem_map_of_mem inEntries
  simpa using same.length_eq

namespace StartUp

variable {state : StartUp} {setting : Setting} {calls : List Call}

theorem Follows.ok (follows : state.Follows setting calls) (ok : PublishedOk setting state.published) :
    JobsOk setting.nodes (jobsOf calls) ∧ (∀ job ∈ jobsOf calls, job.node ≠ 0) ∧
      ((jobsOf calls).map Job.key).Nodup ∧ (jobsOf calls).length = state.buffer.hlpIdx := by
  have first := List.take_sublist state.buffer.hlpIdx state.published
  rw [follows.jobs]
  refine ⟨ok.jobs.sublist (first.map _).subset, ?_, ?_, ?_⟩
  · intro job member
    obtain ⟨op, inFirst, rfl⟩ := List.mem_map.mp member
    exact ok.inserts op (first.subset inFirst)
  · rw [List.map_map]
    exact ok.distinct.sublist (first.map Op.key)
  · rw [List.length_map, List.length_take]
    exact Nat.min_eq_left follows.tracks.hlp_le

theorem Follows.level_le (follows : state.Follows setting calls)
    (ok : PublishedOk setting state.published) {e : Enclave} (isEnclave : state.enclave = some e)
    {level : Nat} (isLevel : e.sentinelLevel = some level) :
    level ≤ max 1 (Nat.log 2 (state.buffer.hlpIdx + 1)) := by
  obtain ⟨jobs, inserts, distinct, count⟩ := follows.ok ok
  obtain ⟨e', l, ran, _, repr, spread, absEq⟩ := setting.run_spread jobs inserts
  rw [← follows.enclave, isEnclave] at ran
  obtain rfl := Option.some.inj ran
  have height := spread.height_le repr.linked
  have replays := calls_replay setting.platform.int calls
  rw [← absEq] at replays
  rw [replays.length_eq inserts distinct, count, Repr.rows_length] at height
  rw [repr.sentinelLevel_returns] at isLevel
  obtain rfl := Option.some.inj isLevel
  exact height

theorem Follows.round (follows : state.Follows setting calls) : ∃ more : List Job,
    (state.round setting.platform).Follows setting (calls ++ more.map .job ++ [.pass]) ∧
      (state.round setting.platform).published = state.published ∧
      (state.round setting.platform).buffer.opbufferRemove.1 = none ∧
      ∃ hlp, (state.round setting.platform).buffer = { state.buffer with hlpIdx := hlp } ∧
        (state.buffer.appIdx < state.buffer.hlpIdx → hlp = state.buffer.hlpIdx) := by
  have bound : state.buffer.appIdx ≤ state.buffer.hlpIdx + state.buffer.bufSize := by
    have app := follows.tracks.indices.app
    rw [follows.tracks.indices.size]
    omega
  obtain ⟨more, drained, published, empty, hlp, buffer, wrapped⟩ := follows.drain _ bound
  exact ⟨more, drained.call rfl, published, empty, hlp, buffer, wrapped⟩

theorem round_drained (platform : Platform) (empty : state.buffer.opbufferRemove.1 = none) :
    state.round platform = state.callHelper platform .pass := by
  rw [StartUp.round, StartUp.drain, empty]
  rfl

theorem Follows.rounds (follows : state.Follows setting calls) (count : Nat) : ∃ calls',
    (state.rounds setting.platform count).Follows setting calls' ∧
      (state.rounds setting.platform count).published = state.published := by
  induction count with
  | zero => exact ⟨calls, follows, rfl⟩
  | succ count ih =>
      obtain ⟨calls', later, published⟩ := ih
      obtain ⟨more, next, published', _⟩ := later.round
      exact ⟨_, next, published'.trans published⟩

theorem Follows.rounds_calls (follows : state.Follows setting calls) : ∃ more : List Job, ∀ count,
    (state.rounds setting.platform (count + 1)).Follows setting
        (calls ++ more.map .job ++ List.replicate (count + 1) .pass) ∧
      (state.rounds setting.platform (count + 1)).published = state.published ∧
      (state.rounds setting.platform (count + 1)).buffer.opbufferRemove.1 = none ∧
      (state.rounds setting.platform (count + 1)).buffer.appIdx = state.buffer.appIdx ∧
      (state.buffer.appIdx < state.buffer.hlpIdx →
        (state.rounds setting.platform (count + 1)).buffer.hlpIdx = state.buffer.hlpIdx) := by
  obtain ⟨more, first, published, empty, hlp, buffer, wrapped⟩ := follows.round
  refine ⟨more, fun count => ?_⟩
  induction count with
  | zero => exact ⟨first, published, empty, by rw [StartUp.rounds, StartUp.rounds, buffer], by
      rw [StartUp.rounds, StartUp.rounds, buffer]; exact wrapped⟩
  | succ count ih =>
      obtain ⟨later, publishedLater, emptyLater, app, stuck⟩ := ih
      rw [StartUp.rounds, round_drained _ emptyLater, List.replicate_succ', ← List.append_assoc]
      exact ⟨later.call rfl, publishedLater, emptyLater, app, stuck⟩

end StartUp

structure Index.Flat (index : Index) : Prop where
  sorted : index.entries.Pairwise fun x y => x.key < y.key
  rows : index.rows = [[]]
  ground : ∀ entry ∈ index.entries, entry.level = 0

namespace Index

variable {index : Index}

theorem Linked.reset (linked : index.Linked) : index.reset.Flat := by
  refine ⟨?_, rfl, fun entry member => ?_⟩
  · rw [Index.reset, List.pairwise_map]
    exact linked.sorted
  · obtain ⟨old, _, rfl⟩ := List.mem_map.mp member
    rfl

theorem Flat.job (flat : index.Flat) (job : Job) : (index.updateIntermediateLayer job).Flat := by
  refine ⟨applyJob_sorted job flat.sorted, flat.rows, fun entry member => ?_⟩
  rcases (mem_applyJob job flat.sorted).mp member with ⟨_, old⟩ | ⟨old, inEntries, _, rfl⟩ | ⟨_, _, rfl⟩
  · exact flat.ground entry old
  · exact flat.ground old inEntries
  · rfl

theorem Flat.jobs {int : Int → Int} (jobs : List Job) : ∀ {index : Index}, index.Flat →
    ((jobs.map Call.job).foldl (Index.call int) index).Flat ∧
      ((jobs.map Call.job).foldl (Index.call int) index).nonDel = index.nonDel := by
  induction jobs with
  | nil => exact fun flat => ⟨flat, rfl⟩
  | cons job rest ih => exact fun flat => ih (flat.job job)

theorem Flat.stacked (flat : index.Flat) : Stacked index.entries 0 index := by
  refine ⟨?_, flat.rows⟩
  rw [levelled]
  conv_lhs => rw [← List.map_id index.entries]
  apply List.map_congr_left
  intro entry member
  have ground := flat.ground entry member
  cases entry
  simp only at ground
  simp [tower, ground]

end Index

/-- The jobs that the helper has been given once it has drained the buffer: all but the last two, and no
more of them once the producer has wrapped. -/
def StartUp.handed (state : StartUp) : Nat :=
  if state.buffer.appIdx < state.buffer.hlpIdx then state.buffer.hlpIdx else state.buffer.appIdx - 2

/-- Some number of passes leaves so many levels, and not one alone on the way. -/
def StartUp.Rebuilds (state : StartUp) (height : Nat) : Prop :=
  ∃ e passes, state.enclave = some e ∧ 1 ≤ passes ∧ height ≤ levelLeft e.nonDel state.handed passes ∧
    ∀ count, 1 ≤ count → count < passes → 2 ≤ levelLeft e.nonDel state.handed count

namespace StartUp

variable {state : StartUp} {setting : Setting} {calls : List Call}

theorem Tracks.handed_eq (tracks : state.Tracks) (empty : state.buffer.opbufferRemove.1 = none) :
    state.buffer.hlpIdx = state.handed := by
  have size := tracks.indices.size
  have hlp := tracks.indices.hlp
  have app := tracks.indices.app
  have count := tracks.count
  have large : opbufferSz = 2000000 := rfl
  rw [OpBuffer.remove_none_iff, OpBuffer.seemsEmpty, OpBuffer.next_eq (by omega)] at empty
  rw [StartUp.handed]
  split <;> omega

/-- The level after so many rounds, by the counters that the population has left. -/
theorem Follows.rebuilt (follows : state.Follows setting calls)
    (ok : PublishedOk setting state.published) (wraps : setting.platform.Wraps32) (count : Nat) :
    ∃ old e level, state.enclave = some old ∧
      ((state.restarted setting.platform).rounds setting.platform (count + 1)).enclave = some e ∧
      e.sentinelLevel = some level ∧ ∀ height, 2 ≤ height → (height ≤ level ↔
        height ≤ levelLeft old.nonDel state.handed (count + 1) ∧
          ∀ earlier, 1 ≤ earlier → earlier < count + 1 → 2 ≤ levelLeft old.nonDel state.handed earlier) := by
  have restarts : (state.restarted setting.platform).Follows setting (calls ++ [.reset]) :=
    follows.call rfl
  obtain ⟨more, eachRound⟩ := restarts.rounds_calls
  obtain ⟨last, published, empty, app, stuck⟩ := eachRound count
  generalize (state.restarted setting.platform).rounds setting.platform (count + 1) = final at *
  have lastOk : PublishedOk setting final.published := published.symm ▸ ok
  obtain ⟨jobs, inserts, distinct, given⟩ := last.ok lastOk
  have noPass : jobsOf (calls ++ [.reset] ++ more.map .job ++ List.replicate (count + 1) .pass) =
      jobsOf (calls ++ [.reset] ++ more.map .job) := by
    rw [jobsOf, List.filterMap_append, ← jobsOf, List.filterMap_replicate_of_none rfl]
    exact List.append_nil _
  obtain ⟨e', l', ran', _, repr', _, absEq'⟩ := setting.run_spread jobs inserts
  rw [noPass] at jobs inserts distinct given
  obtain ⟨e, l, ran, _, repr, spread, absEq⟩ := setting.run_spread jobs inserts
  have before : jobsOf calls ⊆ jobsOf (calls ++ [.reset] ++ more.map .job) := by
    rw [List.append_assoc, jobsOf, jobsOf, List.filterMap_append]
    exact List.subset_append_left _ _
  obtain ⟨old, l₀, ranOld, _, reprOld, _, absOld⟩ := setting.run_spread
    (jobs.sublist before) fun job member => inserts job (before member)
  have folded : abs e l = (more.map Call.job).foldl (Index.call setting.platform.int)
      (abs old l₀).reset := by
    rw [absEq, absOld, List.foldl_append, List.foldl_append]
    rfl
  obtain ⟨flat, nonDel⟩ : (abs e l).Flat ∧ (abs e l).nonDel = (abs old l₀).reset.nonDel := by
    rw [folded]
    exact Index.Flat.jobs more reprOld.linked.reset
  have handed : ((abs e l).entries.map Entry.key).length = state.handed := by
    have replays := calls_replay setting.platform.int (calls ++ [.reset] ++ more.map .job)
    rw [← absEq] at replays
    rw [List.length_map, replays.length_eq inserts distinct, given, last.tracks.handed_eq empty,
      StartUp.handed, StartUp.handed]
    have sameApp : final.buffer.appIdx = state.buffer.appIdx := app
    have sameHlp : state.buffer.appIdx < state.buffer.hlpIdx →
      final.buffer.hlpIdx = state.buffer.hlpIdx := stuck
    have sameCount : final.published.length = state.published.length := congrArg List.length published
    have count := follows.tracks.count
    have lastCount := last.tracks.count
    have large : opbufferSz = 2000000 := rfl
    by_cases wrapped : state.buffer.appIdx < state.buffer.hlpIdx
    · rw [if_pos wrapped, sameHlp wrapped, sameApp, if_pos wrapped]
    · rw [if_neg wrapped, sameApp, if_neg (by omega)]
  have left := (flat.stacked.afterPasses wraps flat.sorted spread.unmarked spread.noneTall count).2
  rw [nonDel] at left
  have passes : abs e' l' = (List.replicate (count + 1) Call.pass).foldl (Index.call setting.platform.int)
      (abs e l) := by
    rw [absEq', absEq, List.foldl_append]
  rw [← passes] at left
  refine ⟨old, e', l'.rows.length, follows.enclave.trans ranOld, last.enclave.trans ran',
    repr'.sentinelLevel_returns, fun height atLeast => ?_⟩
  have decided := left.length_iff atLeast (Nat.succ_pos count)
  rw [Repr.rows_length, handed] at decided
  exact decided

theorem Follows.reset_level (follows : state.Follows setting calls)
    (ok : PublishedOk setting state.published) :
    ∃ e, (state.restarted setting.platform).enclave = some e ∧ e.sentinelLevel = some 1 := by
  have restarts : (state.restarted setting.platform).Follows setting (calls ++ [.reset]) :=
    follows.call rfl
  obtain ⟨jobs, inserts, _⟩ := restarts.ok ok
  obtain ⟨e, l, ran, _, repr, _, absEq⟩ := setting.run_spread jobs inserts
  refine ⟨e, restarts.enclave.trans ran, ?_⟩
  have rows : (abs e l).rows = [[]] := by
    rw [absEq, List.foldl_append]
    rfl
  have length := congrArg List.length rows
  rw [Repr.rows_length] at length
  rw [repr.sentinelLevel_returns, length]
  rfl

end StartUp

theorem asUint_small {value : Nat} (small : value < 2 ^ 32) : asUint (value : Int) = value := by
  rw [asUint, Int.emod_eq_of_lt (Int.natCast_nonneg _) (by exact_mod_cast small)]
  exact Int.toNat_natCast value

theorem stillWaits_iff {level d : Nat} (share : 2 ≤ d) (bound : d < 2 ^ 32) :
    stillWaits level d ↔ level < Nat.log 2 d - 1 := by
  have log := Nat.log_pos Nat.one_lt_two share
  have less := Nat.log_le_self 2 d
  rw [stillWaits, floorLog2_eq (by omega) bound,
    show ((Nat.log 2 d : Nat) : Int) - 1 = ((Nat.log 2 d - 1 : Nat) : Int) by omega,
    asUint_small (by omega)]

theorem stillWaits_of_small {level d : Nat} (share : d < 2) (low : level < 2 ^ 32 - 2) :
    stillWaits level d := by
  have right : 2 ^ 32 - 2 ≤ asUint (floorLog2 d - 1) := by
    match d with
    | 0 | 1 => decide
    | d + 2 => omega
  exact Nat.lt_of_lt_of_le low right

section Wait

variable {setting : Setting} {acts : List StartUpAct} {d : Nat}

/-- A share below 2 asks for a level that no index reaches. -/
theorem Setting.EndsWait.share (ok : PublishedOk setting (setting.populated acts).published)
    (few : (setting.populated acts).published.length ≤ d + 1) {count : Nat}
    (ends : setting.EndsWait acts d count) : 2 ≤ d := by
  obtain ⟨e, level, isEnclave, isLevel, ended⟩ := ends
  obtain ⟨calls, follows⟩ := setting.populated_follows acts
  have restarts : ((setting.populated acts).restarted setting.platform).Follows setting
      (calls ++ [.reset]) := follows.call rfl
  obtain ⟨calls', last, published⟩ := restarts.rounds count
  have same : (((setting.populated acts).restarted setting.platform).rounds setting.platform
      count).published = (setting.populated acts).published := published
  have height := last.level_le (same.symm ▸ ok) isEnclave isLevel
  have given := last.tracks.hlp_le
  rw [same] at given
  have less := Nat.log_le_self 2 ((((setting.populated acts).restarted setting.platform).rounds
    setting.platform count).buffer.hlpIdx + 1)
  by_contra small
  exact ended (stillWaits_of_small (by omega) (by omega))

end Wait

/-- The wait ends if the share is at least 2 and, from 8 on, the jobs handed over and the counters left
by the population let the index grow high enough. -/
theorem start_up_wait_ends_iff (setting : Setting) (wraps : setting.platform.Wraps32)
    {initial nbThreads : Nat} (accepted : initial < 2 ^ 31) (acts : List StartUpAct)
    (ok : PublishedOk setting (setting.populated acts).published)
    (share : (setting.populated acts).published.length = initial / nbThreads ∨
      (setting.populated acts).published.length = initial / nbThreads + 1) :
    (∃ count, setting.EndsWait acts (initial / nbThreads) count) ↔
      2 ≤ initial / nbThreads ∧ (initial / nbThreads < 8 ∨
        (setting.populated acts).Rebuilds (Nat.log 2 (initial / nbThreads) - 1)) := by
  have bound : initial / nbThreads < 2 ^ 32 :=
    (Nat.div_le_self initial nbThreads).trans_lt (by omega)
  obtain ⟨calls, follows⟩ := setting.populated_follows acts
  obtain ⟨first, isFirst, firstLevel⟩ := follows.reset_level ok
  generalize initial / nbThreads = d at *
  constructor
  · rintro ⟨count, ends⟩
    have enough := ends.share ok (by omega)
    refine ⟨enough, ?_⟩
    by_cases small : d < 8
    · exact .inl small
    · right
      have high : 2 ≤ Nat.log 2 d - 1 := by
        have log : 3 ≤ Nat.log 2 d := Nat.le_log_of_pow_le Nat.one_lt_two (by omega)
        omega
      obtain ⟨e, level, isEnclave, isLevel, ended⟩ := ends
      rw [stillWaits_iff enough bound, Nat.not_lt] at ended
      cases count with
      | zero =>
          obtain rfl : first = e := Option.some.inj (isFirst.symm.trans isEnclave)
          obtain rfl : 1 = level := Option.some.inj (firstLevel.symm.trans isLevel)
          omega
      | succ count =>
          obtain ⟨old, e', level', isOld, isEnclave', isLevel', decides⟩ := follows.rebuilt ok wraps count
          obtain rfl : e' = e := Option.some.inj (isEnclave'.symm.trans isEnclave)
          obtain rfl : level' = level := Option.some.inj (isLevel'.symm.trans isLevel)
          obtain ⟨reached, before⟩ := (decides _ high).mp ended
          exact ⟨old, count + 1, isOld, Nat.succ_pos count, reached, before⟩
  · rintro ⟨enough, cases⟩
    by_cases small : d < 8
    · refine ⟨0, first, 1, isFirst, firstLevel, ?_⟩
      have log : Nat.log 2 d < 3 := Nat.log_lt_of_lt_pow (by omega) (by omega)
      rw [stillWaits_iff enough bound]
      omega
    · obtain ⟨old, passes, isOld, positive, reached, before⟩ := cases.resolve_left small
      have high : 2 ≤ Nat.log 2 d - 1 := by
        have log : 3 ≤ Nat.log 2 d := Nat.le_log_of_pow_le Nat.one_lt_two (by omega)
        omega
      obtain ⟨count, rfl⟩ : ∃ count, passes = count + 1 := ⟨passes - 1, by omega⟩
      obtain ⟨old', e, level, isOld', isEnclave, isLevel, decides⟩ := follows.rebuilt ok wraps count
      obtain rfl : old' = old := Option.some.inj (isOld'.symm.trans isOld)
      refine ⟨count + 1, e, level, isEnclave, isLevel, ?_⟩
      rw [stillWaits_iff enough bound, Nat.not_lt]
      exact (decides _ high).mpr ⟨reached, before⟩

theorem Setting.populated_publishes (setting : Setting) (ops : List Op) : ops.length < opbufferSz →
    (setting.populated (ops.map .publish)).published = ops ∧
      (setting.populated (ops.map .publish)).enclave = setting.start ∧
      (setting.populated (ops.map .publish)).buffer.bufSize = opbufferSz ∧
      (setting.populated (ops.map .publish)).buffer.appIdx = ops.length ∧
      (setting.populated (ops.map .publish)).buffer.hlpIdx = 0 := by
  induction ops using List.reverseRecOn with
  | nil => exact fun _ => ⟨rfl, rfl, rfl, rfl, rfl⟩
  | append_singleton ops op ih =>
      intro room
      rw [List.length_append, List.length_singleton] at room
      obtain ⟨published, enclave, size, app, hlp⟩ := ih (by omega)
      have next : (setting.populated (ops.map .publish)).buffer.next
          (setting.populated (ops.map .publish)).buffer.appIdx = ops.length + 1 := by
        rw [OpBuffer.next, app, size, Nat.mod_eq_of_lt room]
      have one : setting.populated ((ops ++ [op]).map .publish) =
          (setting.populated (ops.map .publish)).publish op := by
        rw [Setting.populated, List.map_append, List.map_singleton, Runs.run_snoc]
        rfl
      rw [one, StartUp.publish, OpBuffer.opbufferInsert, if_neg (by omega), List.length_append]
      exact ⟨congrArg (· ++ [op]) published, enclave, size, next, hlp⟩

def publishKey (key : Nat) : StartUpAct := .publish ⟨key, 1000 + key⟩

theorem publishKeys_ok {keys : List Nat} {published : List Op}
    (isPublished : published = keys.map fun key => ⟨key, 1000 + key⟩)
    (jobs : JobsOk (numaSetting keys).nodes (keys.map fun key => ⟨key, 1000 + key⟩))
    (distinct : keys.Nodup) : PublishedOk (numaSetting keys) published := by
  subst isPublished
  refine ⟨?_, ?_, ?_⟩
  · rw [List.map_map]
    exact jobs
  · intro op member
    obtain ⟨key, _, rfl⟩ := List.mem_map.mp member
    exact Nat.ne_of_gt (Nat.lt_of_lt_of_le (by decide) (Nat.le_add_right 1000 key))
  · rw [List.map_map]
    exact (List.map_id keys).symm ▸ distinct

theorem tenEach_ends : ∃ count, (numaSetting (List.range' 1 10)).EndsWait
    ((List.range' 1 10).map publishKey) (20 / 2) count := by
  have populated := (numaSetting (List.range' 1 10)).populated_publishes
    ((List.range' 1 10).map fun key => ⟨key, 1000 + key⟩) (by decide)
  rw [List.map_map, show StartUpAct.publish ∘ (fun key : Nat => ⟨key, 1000 + key⟩) = publishKey from
    rfl] at populated
  obtain ⟨published, enclave, _, app, hlp⟩ := populated
  have ok := publishKeys_ok published ⟨by decide, by decide, by decide⟩ (by decide)
  refine (start_up_wait_ends_iff (numaSetting (List.range' 1 10)) numa_wraps (by decide)
    ((List.range' 1 10).map publishKey) ok (.inl (congrArg List.length published))).mpr
    ⟨by decide, .inr ?_⟩
  have handed : ((numaSetting (List.range' 1 10)).populated ((List.range' 1 10).map publishKey)).handed
      = 8 := by
    rw [StartUp.handed, app, hlp]
    rfl
  refine ⟨_, 1, enclave, Nat.le_refl 1, ?_, fun count positive earlier => absurd earlier (by omega)⟩
  rw [handed]
  decide

/-- One key for each of two enclaves: the right side is `UINT_MAX`, which no level reaches. -/
theorem oneEach_waits :
    PublishedOk (numaSetting [1]) ((numaSetting [1]).populated [publishKey 1]).published ∧
      ((numaSetting [1]).populated [publishKey 1]).published.length = 2 / 2 ∧
      ¬ ∃ count, (numaSetting [1]).EndsWait [publishKey 1] (2 / 2) count := by
  have ok : PublishedOk (numaSetting [1]) ((numaSetting [1]).populated [publishKey 1]).published :=
    publishKeys_ok rfl ⟨by decide, by decide, by decide⟩ (by decide)
  refine ⟨ok, rfl, ?_⟩
  rintro ⟨count, ends⟩
  have enough := ends.share ok (show 1 ≤ 2 / 2 + 1 by decide)
  exact absurd enough (by decide)

end Hosk
