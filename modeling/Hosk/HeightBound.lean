import Hosk.StandingTowers
import Hosk.TornPass

/-! The logarithmic height of the index, in runs that leave torn towers alone. -/

namespace Hosk

def maxLevels : Nat := 128

namespace Enclave

/-- A row links the key that the row below it does not link. -/
def Torn (e : Enclave) (key : Nat) : Prop :=
  ∃ i low high, e.linkedKeys[i]? = some low ∧ e.linkedKeys[i + 1]? = some high ∧
    key ∈ high ∧ key ∉ low

theorem torn_iff (e : Enclave) (key : Nat) : e.Torn key ↔
    ∃ pair ∈ e.linkedKeys.zip e.linkedKeys.tail, key ∈ pair.2 ∧ key ∉ pair.1 := by
  constructor
  · rintro ⟨i, low, high, isLow, isHigh, member, missing⟩
    rw [← List.getElem?_tail] at isHigh
    exact ⟨(low, high), List.mem_of_getElem? (List.getElem?_zip_eq_some.mpr ⟨isLow, isHigh⟩), member,
      missing⟩
  · rintro ⟨⟨low, high⟩, isPair, member, missing⟩
    obtain ⟨i, located⟩ := List.mem_iff_getElem?.mp isPair
    obtain ⟨isLow, isHigh⟩ := List.getElem?_zip_eq_some.mp located
    rw [List.getElem?_tail] at isHigh
    exact ⟨i, low, high, isLow, isHigh, member, missing⟩

instance (e : Enclave) (key : Nat) : Decidable (e.Torn key) := decidable_of_iff _ (e.torn_iff key).symm

end Enclave

/-- No insertion is of a key whose tower is torn. -/
def Setting.LeavesTorn (setting : Setting) (calls : List Call) : Prop :=
  Runs.Along (Enclave.turn setting.platform)
    (fun state call => ∀ e job, state = some e → call = .job job → job.node ≠ 0 → ¬ e.Torn job.key)
    setting.start calls

def insertedKeys (calls : List Call) : Finset Nat := ((jobsOf calls).map Job.key).toFinset

theorem insertedKeys_snoc (calls : List Call) (call : Call) :
    insertedKeys (calls ++ [call]) =
      (call.asJob.elim (insertedKeys calls) fun job => insert job.key (insertedKeys calls)) := by
  rw [insertedKeys, jobsOf_snoc, List.map_append, List.toFinset_append]
  cases call with
  | job job =>
      rw [Finset.union_comm]
      rfl
  | pass | reset => exact Finset.union_empty _

theorem insertedKeys_card (calls : List Call) : (insertedKeys calls).card ≤ (jobsOf calls).length :=
  (List.toFinset_card_le _).trans_eq (List.length_map _)

namespace Repr

variable {e : Enclave} {l : Layout} {platform : Platform} {seen : Finset Nat}

theorem untorn_below (repr : Repr e l) {key : Nat} (untorn : ¬ e.Torn key) (i : Nat)
    (linkedAt : (abs e l).LinkedAt (i + 1) key) : (abs e l).LinkedAt i key := by
  obtain ⟨high, isHigh, member⟩ := linkedAt.located
  have bound := (List.getElem?_eq_some_iff.mp isHigh).1
  obtain ⟨low, isLow⟩ : ∃ low, (abs e l).rows[i]? = some low :=
    ⟨_, List.getElem?_eq_getElem (by omega)⟩
  by_contra missing
  apply untorn
  rw [Index.linkedAt_of_row isLow] at missing
  rw [← repr.linkedKeys_eq] at isLow isHigh
  exact ⟨i, low, high, isLow, isHigh, member, missing⟩

theorem call_apart (repr : Repr e l) {before : List Call}
    (apart : (abs e l).Apart (insertedKeys before)) (call : Call)
    (leaves : ∀ job, call = .job job → job.node ≠ 0 → ¬ e.Torn job.key) (int : Int → Int) :
    ((abs e l).call int call).Apart (insertedKeys (before ++ [call])) := by
  rw [insertedKeys_snoc]
  cases call with
  | job job => exact apart.job job fun inserts => repr.untorn_below (leaves job rfl inserts)
  | reset => exact apart.reset
  | pass =>
      have raised := apart.raiseIndexLayer repr.linked repr.rows_positive int
      rw [Index.call, Index.updateIndexLayer]
      split
      · exact raised.lower
      · exact raised

end Repr

theorem Index.bottomRaised_rows (int : Int → Int) (index : Index) :
    (index.bottomRaised int).rows.length ≤ max 2 index.rows.length := by
  have travelled : (index.trav int).rows.length = index.rows.length := by rw [Index.trav_rows]
  rw [Index.bottomRaised]
  split
  · rename_i grows
    rw [Index.grow, List.length_append, grows.2]
    exact Nat.le_max_left 2 _
  · rw [Index.raise, List.length_modify, travelled]
    exact Nat.le_max_right 2 _

/-- As long as torn towers are left alone, the level of the sentinel is at most logarithmic in the
number of jobs, and `update_index_layer` stays inside its array. -/
theorem height_logarithmic_of_torn_left (setting : Setting) {calls : List Call}
    (jobs : JobsOk setting.nodes (jobsOf calls)) (clean : setting.Cleanly calls)
    (leaves : setting.LeavesTorn calls) : ∃ e level,
      setting.run calls = some e ∧ e.sentinelLevel = some level ∧
      level ≤ 2 + Nat.log 2 ((jobsOf calls).length + 1) ∧
      ((jobsOf calls).length < 2 ^ 125 → level < maxLevels ∧ ∃ inodes raised start,
        e.beginRows setting.platform = some (inodes, raised, start) ∧ inodes.length ≤ maxLevels) := by
  have isGiven : ∀ call ∈ calls, True := fun _ _ => trivial
  have initial : Index.initial.Apart (insertedKeys []) :=
    Index.single_apart _ rfl fun _ none => absurd none List.not_mem_nil
  have along : Runs.Along (Enclave.turn setting.platform)
      (fun state call => ∀ e, state = some e → (call = .pass → e.CleanPass setting.platform) ∧
        ∀ job, call = .job job → job.node ≠ 0 → ¬ e.Torn job.key) setting.start calls :=
    Runs.Along.imp (fun _ _ facts e isState => ⟨facts.1 e isState, fun job => facts.2 e job isState⟩)
      calls (Runs.Along.and calls clean leaves)
  obtain ⟨e, l, ran, _, repr, apart, _⟩ := setting.run_rule
    (motive := fun before index => index.Apart (insertedKeys before)) initial
    (fun e l before call repr apart _ facts =>
      ⟨facts.1, repr.call_apart apart call facts.2 setting.platform.int⟩) jobs isGiven along
  have length := Repr.rows_length e l
  have height : l.rows.length ≤ 2 + Nat.log 2 ((jobsOf calls).length + 1) := by
    have more := insertedKeys_card calls
    have monotone : Nat.log 2 ((insertedKeys calls).card + 1) ≤
        Nat.log 2 ((jobsOf calls).length + 1) := Nat.log_mono_right (Nat.succ_le_succ more)
    have low := apart.height_le
    omega
  refine ⟨e, l.rows.length, ran, repr.sentinelLevel_returns, height, fun few => ?_⟩
  have small : Nat.log 2 ((jobsOf calls).length + 1) ≤ 125 :=
    (Nat.log_mono_right few).trans_eq (Nat.log_pow Nat.one_lt_two 125)
  have isLow : l.rows.length < maxLevels := by
    rw [maxLevels]
    omega
  obtain ⟨start, l₁, begins, _, _, _, absStart⟩ := repr.beginRows_refines setting.honest
  refine ⟨isLow, l₁.heads, _, start, begins, ?_⟩
  have rows := Index.bottomRaised_rows setting.platform.int (abs e l)
  rw [← absStart, Repr.rows_length, length] at rows
  rw [Repr.heads_length]
  rw [maxLevels] at isLow ⊢
  omega

def raisedAgain : List Call := twiceLowered.take 41 ++ (List.range' 21 7).map insertJob ++ [.pass]

theorem raisedAgain_leaves : (numaSetting twiceLoweredKeys).LeavesTorn raisedAgain := by
  have leaves : Runs.Along (Enclave.turn numa.guarded) (fun state call => state.all (fun e =>
      call.asJob.all fun job => decide (job.node ≠ 0 → ¬ e.Torn job.key)) = true)
      (numaSetting twiceLoweredKeys).start raisedAgain := by
    decide +kernel
  refine Runs.Along.imp ?_ raisedAgain leaves
  rintro state call leaves e job rfl rfl
  exact of_decide_eq_true leaves

theorem raisedAgain_height : ∃ e level, (numaSetting twiceLoweredKeys).run raisedAgain = some e ∧
    e.linkedKeys = [[22, 24, 26], [24], []] ∧ e.sentinelLevel = some level ∧
    level ≤ 2 + Nat.log 2 ((jobsOf raisedAgain).length + 1) ∧
    ((jobsOf raisedAgain).length < 2 ^ 125 → level < maxLevels ∧ ∃ inodes raised start,
      e.beginRows numa.guarded = some (inodes, raised, start) ∧ inodes.length ≤ maxLevels) := by
  have jobs : JobsOk (numaSetting twiceLoweredKeys).nodes (jobsOf raisedAgain) :=
    ⟨by decide, by decide, by decide⟩
  have stands : (numaSetting twiceLoweredKeys).Stands raisedAgain := by decide +kernel
  have rows : ((numaSetting twiceLoweredKeys).run raisedAgain).map Enclave.linkedKeys =
      some [[22, 24, 26], [24], []] := by
    decide +kernel
  obtain ⟨e, level, ran, bounded⟩ := height_logarithmic_of_torn_left (numaSetting twiceLoweredKeys) jobs
    (stands.cleanly jobs) raisedAgain_leaves
  rw [ran] at rows
  exact ⟨e, level, ran, Option.some.inj rows, bounded⟩

def rung (step : Nat) : List Call :=
  [insertJob (24 - 2 * step), insertJob (25 - 2 * step), .pass, deleteJob (24 - 2 * step), .pass,
    insertJob (24 - 2 * step), insertJob (6 + 2 * step), insertJob (7 + 2 * step), .pass,
    deleteJob (6 + 2 * step), .pass, insertJob (6 + 2 * step)]

def ladder : List Call :=
  [insertJob 1, insertJob 2, insertJob 3, .pass, insertJob 4, insertJob 5, .pass, insertJob 26,
    insertJob 27, .pass, deleteJob 4, .pass, insertJob 4] ++ (List.range 5).flatMap rung

theorem ladder_too_high : (JobsOk (numaSetting (List.range' 1 27)).nodes (jobsOf ladder) ∧
    .reset ∉ ladder ∧ (numaSetting (List.range' 1 27)).NeverLowers ladder) ∧ ∃ e,
      (numaSetting (List.range' 1 27)).run ladder = some e ∧ e.sentinelLevel = some 8 ∧
      ¬ 8 ≤ 2 + Nat.log 2 ((jobsOf ladder).length + 1) := by
  have ended : ((numaSetting (List.range' 1 27)).run ladder).bind Enclave.sentinelLevel = some 8 := by
    decide +kernel
  obtain ⟨e, ran, level⟩ := Option.bind_eq_some_iff.mp ended
  have count : (jobsOf ladder).length + 1 = 50 := by decide
  have logarithm : Nat.log 2 50 < 6 := Nat.log_lt_of_lt_pow (by omega) (by omega)
  refine ⟨⟨⟨by decide, by decide, by decide +kernel⟩, by decide, by decide +kernel⟩, e, ran, level, ?_⟩
  rw [count]
  omega

end Hosk
