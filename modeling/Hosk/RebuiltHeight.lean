import Hosk.RebuiltIndex

/-! The height that an index grows to again after `reset_index`. -/

namespace Hosk

namespace Index

theorem reset_stacked (index : Index) : Stacked index.entries 0 index.reset :=
  ⟨rfl, rfl⟩

variable {base : List Entry} {rows : Nat} {index : Index}

theorem Stacked.rebase (stacked : Stacked base rows index) : Stacked index.entries rows index := by
  have keys : index.entries.map Entry.key = base.map Entry.key := by
    rw [stacked.entries, levelled_keys]
  refine ⟨?_, keys ▸ stacked.rows⟩
  rw [levelled, keys, stacked.entries, levelled, List.map_map]
  rfl

theorem Stacked.full (stacked : Stacked base rows index) (isFull : rows + 1 = fullRows base) :
    index.rows = (List.range (fullRows base)).map (filled (base.map Entry.key)) := by
  have empty : filled (base.map Entry.key) rows = [] := by
    by_contra nonempty
    have more := (filled_iff_full base rows).mp nonempty
    omega
  rw [stacked.rows, ← isFull, List.range_succ, List.map_append, List.map_singleton, empty]

end Index

namespace Repr

variable {platform : Platform} {base : List Entry}

/-- Passes with nothing else between them, each one filling rows until the index is full. -/
theorem passes_rebuild (honest : platform.Honest)
    (sorted : base.Pairwise fun x y => x.key < y.key)
    (unmarked : ∀ entry ∈ base, entry.marked = false) (passes : Nat) : ∀ e l rows, Repr e l →
    (abs e l).Undeleted → Index.Stacked base rows (abs e l) → rows < fullRows base →
    Runs.Along (Enclave.turn platform)
      (fun state call => call = .pass → ∀ e ∈ state, e.IntFits platform) (some e)
      (List.replicate passes .pass) →
    ∃ e' l' rows', Runs.run (Enclave.turn platform) (some e) (List.replicate passes .pass) = some e' ∧
      Repr e' l' ∧ (abs e' l').Undeleted ∧ Index.Stacked base rows' (abs e' l') ∧
      rows' < fullRows base ∧ (rows' + 1 = fullRows base ∨ rows + passes ≤ rows') := by
  induction passes with
  | zero =>
      intro e l rows repr undeleted stacked bound _
      exact ⟨e, l, rows, rfl, repr, undeleted, stacked, bound, .inr (Nat.le_refl rows)⟩
  | succ passes ih =>
      rintro e l rows repr undeleted stacked bound ⟨fits, later⟩
      have isExact := repr.passExact_of_fits honest undeleted (fits rfl e rfl)
      obtain ⟨middle, l₁, called, _, repr₁, undeleted₁, abs₁⟩ := repr.call_undeleted honest undeleted
        .pass (fun job wrong => Call.noConfusion wrong) (fun job wrong => Call.noConfusion wrong)
        fun _ => isExact
      have turned : Enclave.turn platform (some e) .pass = some middle := called
      rw [turned] at later
      obtain ⟨rows₁, order, bound₁, more, stacked₁⟩ :=
        stacked.pass sorted unmarked platform.int bound
      rw [Index.call, repr.not_lowers honest isExact.stays] at abs₁
      rw [← abs₁] at stacked₁
      obtain ⟨e', l', rows', ran, repr', undeleted', stacked', bound', filled⟩ :=
        ih middle l₁ rows₁ repr₁ undeleted₁ stacked₁ bound₁ later
      refine ⟨e', l', rows', ?_, repr', undeleted', stacked', bound', ?_⟩
      · rw [List.replicate_succ, Runs.run_cons, turned]
        exact ran
      · omega

end Repr

theorem range_at {bound i j : Nat} (isAt : (List.range bound)[i]? = some j) : i = j := by
  obtain ⟨_, value⟩ := List.getElem?_eq_some_iff.mp isAt
  rwa [List.getElem_range] at value

/-- In an enclave that is given no delete job, with counters that do not overflow, the passes after
a reset bring the index to the height of the logarithm and then leave it alone. -/
theorem rebuilt_index_height (setting : Setting)
    (unbounded : ∀ value, setting.platform.int value = value) {calls : List Call}
    (jobs : JobsOk setting.nodes (jobsOf calls)) (inserts : ∀ job ∈ jobsOf calls, job.node ≠ 0) :
    ∃ e, setting.run (calls ++ [.reset]) = some e ∧ (e.listedEntries ≠ [] →
      ∃ enough rows entries,
        rows.length = Nat.log 2 (e.listedEntries.length + 1) ∧
        rows[0]? = some (everySecond (e.listedEntries.map Entry.key)) ∧
        (∀ (i : Nat) row above, rows[i]? = some row → rows[i + 1]? = some above →
          above = everySecond row) ∧
        ∀ passes, enough ≤ passes → ∃ e',
          setting.run (calls ++ [.reset] ++ List.replicate passes .pass) = some e' ∧
          e'.sentinelLevel = some (Nat.log 2 (e.listedEntries.length + 1)) ∧
          e'.linkedKeys = rows ∧ e'.listedEntries = entries) := by
  have fitsAll : ∀ (state : Option Enclave) calls, Runs.Along (Enclave.turn setting.platform)
      (fun state call => call = .pass → ∀ e ∈ state, e.IntFits setting.platform) state calls :=
    fun state calls => Runs.Along.of_all (fun _ _ _ _ _ value _ _ => unbounded value) calls
  have jobsReset : jobsOf (calls ++ [.reset]) = jobsOf calls := by
    rw [jobsOf_snoc]
    exact List.append_nil _
  obtain ⟨e, l, ran, _, repr, undeleted, absEq⟩ := setting.run_undeleted
    (jobsReset ▸ jobs) (jobsReset ▸ inserts) (fitsAll _ (calls ++ [.reset]))
  refine ⟨e, ran, fun nonempty => ?_⟩
  have sorted : e.listedEntries.Pairwise fun x y => x.key < y.key := by
    rw [repr.listedEntries_eq, absEq]
    exact (calls_replay setting.platform.int (calls ++ [.reset])).sorted
  have unmarked := undeleted.unmarked
  have stacked : Index.Stacked e.listedEntries 0 (abs e l) := by
    have last := Index.reset_stacked (calls.foldl (Index.call setting.platform.int) Index.initial)
    rw [List.foldl_append, List.foldl_cons, List.foldl_nil, Index.call] at absEq
    rw [← absEq] at last
    exact repr.listedEntries_eq ▸ last.rebase
  rw [← repr.listedEntries_eq] at unmarked
  have positive := fullRows_positive e.listedEntries
  have isLog : fullRows e.listedEntries = Nat.log 2 (e.listedEntries.length + 1) :=
    Nat.max_eq_right
      (Nat.log_pos Nat.one_lt_two (Nat.succ_le_succ (List.length_pos_iff.mpr nonempty)))
  refine ⟨fullRows e.listedEntries,
    (List.range (fullRows e.listedEntries)).map (filled (e.listedEntries.map Entry.key)),
    levelled e.listedEntries (fullRows e.listedEntries - 1), ?_, ?_, ?_, ?_⟩
  · rw [List.length_map, List.length_range, isLog]
  · rw [List.getElem?_map, List.getElem?_range positive]
    rfl
  · intro i row above isRow isAbove
    rw [List.getElem?_map] at isRow isAbove
    obtain ⟨j, isAt, rfl⟩ := Option.map_eq_some_iff.mp isRow
    obtain ⟨k, isNext, rfl⟩ := Option.map_eq_some_iff.mp isAbove
    obtain rfl := range_at isAt
    obtain rfl := range_at isNext
    rfl
  · intro passes enough
    obtain ⟨e', l', rows, ran', repr', _, stacked', bound, filled⟩ :=
      Repr.passes_rebuild setting.honest sorted unmarked passes e l 0 repr undeleted stacked positive
        (fitsAll _ _)
    have isFull : rows + 1 = fullRows e.listedEntries := by omega
    refine ⟨e', ?_, ?_, ?_, ?_⟩
    · rw [Setting.run, Runs.run_append]
      exact (congrArg (fun state => Runs.run _ state _) ran).trans ran'
    · rw [repr'.sentinelLevel_returns, ← Repr.rows_length, stacked'.rows_length, isFull, isLog]
    · rw [repr'.linkedKeys_eq, stacked'.full isFull]
    · rw [repr'.listedEntries_eq, stacked'.entries, ← isFull]
      rfl

theorem sevenKeys_rebuilt : ∃ enough, ∀ passes, enough ≤ passes → ∃ e,
    (exactSetting (List.range' 1 7)).run
      ((List.range' 1 7).map insertJob ++ [.reset] ++ List.replicate passes .pass) = some e ∧
    e.sentinelLevel = some 3 := by
  have jobs : JobsOk (exactSetting (List.range' 1 7)).nodes
      (jobsOf ((List.range' 1 7).map insertJob)) := ⟨by decide, by decide, by decide⟩
  obtain ⟨e, ran, rebuilt⟩ := rebuilt_index_height (exactSetting (List.range' 1 7))
    (exactSetting_int _) jobs (by decide)
  have size : ((exactSetting (List.range' 1 7)).run ((List.range' 1 7).map insertJob ++ [.reset])).map
      (fun e => e.listedEntries.length) = some 7 := by decide +kernel
  rw [ran, Option.map_some, Option.some_inj] at size
  obtain ⟨enough, rows, entries, _, _, _, onward⟩ :=
    rebuilt (List.ne_nil_of_length_pos (by omega))
  refine ⟨enough, fun passes more => ?_⟩
  obtain ⟨e', ran', level, _⟩ := onward passes more
  rw [size] at level
  exact ⟨e', ran', level.trans (by decide)⟩

end Hosk
