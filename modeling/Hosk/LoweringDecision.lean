import Hosk.LoweredLevels

/-! What the counters hold when `update_index_layer` decides whether to lower the index. -/

namespace Hosk

def unmarkedIn (entries : List Entry) : Nat := entries.countP fun entry => entry.marked = false

def tallMarkedIn (entries : List Entry) : Nat :=
  entries.countP fun entry => entry.marked = true ∧ 1 ≤ entry.level

namespace Index

theorem counts_exact {int : Int → Int} (entries : List Entry) : ∀ index : Index,
    (∀ value, index.nonDel ≤ value → value ≤ index.nonDel + unmarkedIn entries → int value = value) →
    (∀ value, index.tallDel ≤ value → value ≤ index.tallDel + tallMarkedIn entries →
      int value = value) →
    entries.foldl (count int) index =
      { index with
        nonDel := index.nonDel + unmarkedIn entries
        tallDel := index.tallDel + tallMarkedIn entries } := by
  induction entries with
  | nil =>
      intro index _ _
      simp [unmarkedIn, tallMarkedIn]
  | cons entry rest ih =>
      intro index exactNon exactTall
      rw [List.foldl_cons]
      rw [unmarkedIn, List.countP_cons, ← unmarkedIn] at exactNon ⊢
      rw [tallMarkedIn, List.countP_cons, ← tallMarkedIn] at exactTall ⊢
      by_cases unmarked : entry.marked = false
      · have step : int (index.nonDel + 1) = index.nonDel + 1 :=
          exactNon _ (by omega) (by simp [unmarked])
        rw [count, if_pos unmarked, step, ih]
        · simp [unmarked]
          omega
        · intro value lower upper
          apply exactNon value
          · dsimp only at lower
            omega
          · simp [unmarked] at upper ⊢
            omega
        · intro value lower upper
          exact exactTall value lower (by simp [unmarked] at upper ⊢; omega)
      · rw [count, if_neg unmarked]
        have marked : entry.marked = true := Bool.not_eq_false _ ▸ unmarked
        by_cases tall : 1 ≤ entry.level
        · have step : int (index.tallDel + 1) = index.tallDel + 1 :=
            exactTall _ (by omega) (by simp [marked, tall])
          rw [if_pos tall, step, ih]
          · simp [marked, tall]
            omega
          · intro value lower upper
            exact exactNon value lower (by simp [marked] at upper ⊢; omega)
          · intro value lower upper
            apply exactTall value
            · dsimp only at lower
              omega
            · simp [marked, tall] at upper ⊢
              omega
        · rw [if_neg tall, ih]
          · simp [marked, tall]
          · intro value lower upper
            exact exactNon value lower (by simp [marked] at upper ⊢; omega)
          · intro value lower upper
            exact exactTall value lower (by simp [tall] at upper ⊢; omega)

theorem raiseRows_counters (count : Nat) : ∀ i (index : Index) raised,
    (raiseRows count i index raised).1.nonDel = index.nonDel ∧
      (raiseRows count i index raised).1.tallDel = index.tallDel := by
  induction count with
  | zero => exact fun _ _ _ => ⟨rfl, rfl⟩
  | succ count ih => exact fun i index raised => ih (i + 1) _ _

theorem raiseIndexLayer_counters (int : Int → Int) (index : Index) :
    (index.raiseIndexLayer int).nonDel = (index.trav int).nonDel ∧
      (index.raiseIndexLayer int).tallDel = (index.trav int).tallDel := by
  have grown : ∀ (grows : Prop) [Decidable grows] (index : Index),
      (if grows then index.grow else index).nonDel = index.nonDel ∧
        (if grows then index.grow else index).tallDel = index.tallDel := by
    intro grows _ index
    split <;> exact ⟨rfl, rfl⟩
  dsimp only [raiseIndexLayer]
  refine ⟨(grown _ _).1.trans ?_, (grown _ _).2.trans ?_⟩
  · rw [(raiseRows_counters _ _ _ _).1, (grown _ _).1]
    rfl
  · rw [(raiseRows_counters _ _ _ _).2, (grown _ _).2]
    rfl

theorem unmarkedIn_stays (entries : List Entry) :
    unmarkedIn (entries.filter Entry.stays) = unmarkedIn entries := by
  rw [unmarkedIn, unmarkedIn, List.countP_filter]
  refine List.countP_congr fun entry _ => ?_
  cases marked : entry.marked <;> simp [Entry.stays, marked]

theorem tallMarkedIn_stays (entries : List Entry) :
    tallMarkedIn (entries.filter Entry.stays) = tallMarkedIn entries := by
  rw [tallMarkedIn, tallMarkedIn, List.countP_filter]
  refine List.countP_congr fun entry _ => ?_
  cases marked : entry.marked <;> simp [Entry.stays, marked]
  omega

theorem raiseIndexLayer_counts {int : Int → Int} (index : Index)
    (exactNon : ∀ value, index.nonDel ≤ value →
      value ≤ index.nonDel + unmarkedIn index.entries → int value = value)
    (exactTall : ∀ value, index.tallDel ≤ value →
      value ≤ index.tallDel + tallMarkedIn index.entries → int value = value) :
    (index.raiseIndexLayer int).nonDel = index.nonDel + unmarkedIn index.entries ∧
      (index.raiseIndexLayer int).tallDel = index.tallDel + tallMarkedIn index.entries := by
  have counted := counts_exact (index.entries.filter Entry.stays) index
    (by rwa [unmarkedIn_stays]) (by rwa [tallMarkedIn_stays])
  rw [unmarkedIn_stays, tallMarkedIn_stays] at counted
  obtain ⟨nonDel, tallDel⟩ := raiseIndexLayer_counters int index
  rw [nonDel, tallDel, trav, counted]
  exact ⟨rfl, rfl⟩

end Index

namespace Enclave

/-- The pass removes its lowest row, if there is another one, exactly if the list that its own
`bg_trav_mnodes` leaves has more than ten times as many tall marked mnodes as unmarked ones. -/
def DecidesOnPresent (platform : Platform) (e : Enclave) : Prop :=
  ∃ travelled inodes middle e', e.bgTravMnodes platform = some travelled ∧
    e.raiseIndexLayer platform = some (inodes, middle) ∧ e.updateIndexLayer platform = some e' ∧
    (2 ≤ middle.linkedRows.length →
      (e'.linkedRows = middle.linkedRows.tail ↔
        10 * unmarkedIn travelled.listedEntries < tallMarkedIn travelled.listedEntries))

def presentExcess (e : Enclave) : Int :=
  tallMarkedIn e.listedEntries - 10 * unmarkedIn e.listedEntries

def carriedDebt (e : Enclave) : Int := 10 * e.nonDel - e.tallDel

/-- The excess does not lie between 0 and the debt. -/
def ExcessOutweighs (e : Enclave) : Prop :=
  ¬ (0 < e.presentExcess ∧ e.presentExcess ≤ e.carriedDebt) ∧
    ¬ (e.carriedDebt < e.presentExcess ∧ e.presentExcess ≤ 0)

instance (e : Enclave) : Decidable e.ExcessOutweighs := inferInstanceAs (Decidable (_ ∧ _))

end Enclave

namespace Repr

variable {e : Enclave} {l : Layout} {platform : Platform}

theorem lowers_row (honest : platform.Honest) (repr : Repr e l) {newLow : Nat}
    (isHead : l.heads[1]? = some newLow) : ∃ e',
      e.bgLowerIlevel platform newLow = some e' ∧ e'.linkedRows = e.linkedRows.tail := by
  obtain ⟨low, second, rest, _, rfl, layer, raised⟩ := repr.lowest_rows isHead
  obtain ⟨e', lowers, layer'⟩ := layer.bgLowerIlevel_returns honest raised
  refine ⟨e', lowers, ?_⟩
  rw [layer'.linkedRows_eq, layer.linkedRows_eq]
  rfl

/-- With unbounded counters the debt of the earlier passes is weighed against the present. -/
theorem updateIndexLayer_decides (honest : platform.Honest)
    (unbounded : ∀ value, platform.int value = value) (repr : Repr e l) :
    ∃ travelled inodes middle e', e.bgTravMnodes platform = some travelled ∧
      e.raiseIndexLayer platform = some (inodes, middle) ∧ e.updateIndexLayer platform = some e' ∧
      unmarkedIn travelled.listedEntries = unmarkedIn e.listedEntries ∧
      tallMarkedIn travelled.listedEntries = tallMarkedIn e.listedEntries ∧
      (2 ≤ middle.linkedRows.length →
        (e'.linkedRows = middle.linkedRows.tail ↔ e.carriedDebt < e.presentExcess)) := by
  obtain ⟨travelled, mnodes, travels, _, reprTravelled, _, absTravelled⟩ :=
    repr.bgTravMnodes_refines honest
  obtain ⟨middle, l₁, inodes, raised, _, repr₁, _, heads, abs₁⟩ :=
    repr.raiseIndexLayer_refines honest
  obtain ⟨nonDel, tallDel⟩ := (abs e l).raiseIndexLayer_counts
    (fun value _ _ => unbounded value) fun value _ _ => unbounded value
  rw [← abs₁, ← repr.listedEntries_eq] at nonDel tallDel
  have weighs : middle.nonDel * 10 < middle.tallDel ↔ e.carriedDebt < e.presentExcess := by
    rw [show middle.nonDel = _ from nonDel, show middle.tallDel = _ from tallDel]
    rw [Enclave.carriedDebt, Enclave.presentExcess]
    show (e.nonDel + _) * 10 < e.tallDel + _ ↔ _
    omega
  have entries : travelled.listedEntries = e.listedEntries.filter Entry.stays := by
    rw [reprTravelled.listedEntries_eq, absTravelled, repr.listedEntries_eq]
    rfl
  have updates : e.updateIndexLayer platform =
      (Enclave.lowers platform inodes middle).elim (some middle) (middle.bgLowerIlevel platform) := by
    rw [Enclave.updateIndexLayer, raised]
    cases drops : Enclave.lowers platform inodes middle <;> simp [drops]
  rw [updates]
  rcases lowers_eq platform middle l₁ heads with ⟨stays, notLower⟩ | ⟨newLow, drops, isHead, lower⟩
  · refine ⟨travelled, inodes, middle, middle, travels, raised, by rw [stays, Option.elim_none],
      entries ▸ Index.unmarkedIn_stays _, entries ▸ Index.tallMarkedIn_stays _, fun wide => ?_⟩
    have rows : 2 ≤ (abs middle l₁).rows.length := by
      rw [rows_length]
      rwa [repr₁.indexLayer.linkedRows_eq, List.length_map] at wide
    have notHeavy : ¬ middle.nonDel * 10 < middle.tallDel := by
      rw [Index.lowers, unbounded] at notLower
      have light : (abs middle l₁).tallDel ≤ (abs middle l₁).nonDel * 10 := by
        simpa [rows] using notLower
      exact Int.not_lt.mpr light
    constructor
    · intro same
      have lengths := congrArg List.length same
      rw [List.length_tail] at lengths
      omega
    · exact fun heavy => absurd (weighs.mpr heavy) notHeavy
  · obtain ⟨e', lowered, rows⟩ := repr₁.lowers_row honest isHead
    refine ⟨travelled, inodes, middle, e', travels, raised, by rw [drops]; exact lowered,
      entries ▸ Index.unmarkedIn_stays _, entries ▸ Index.tallMarkedIn_stays _, fun _ => ?_⟩
    have heavy : middle.nonDel * 10 < middle.tallDel := by
      rw [Index.lowers, unbounded, Bool.and_eq_true, decide_eq_true_eq] at lower
      exact lower.1
    exact ⟨fun _ => weighs.mp heavy, fun _ => rows⟩

/-- A pass decides on the present list exactly if the excess of that list outweighs the debt. -/
theorem decidesOnPresent (honest : platform.Honest)
    (unbounded : ∀ value, platform.int value = value) (repr : Repr e l)
    (outweighs : e.ExcessOutweighs) : e.DecidesOnPresent platform := by
  obtain ⟨travelled, inodes, middle, e', travels, raised, updated, unmarked, tall, decides⟩ :=
    repr.updateIndexLayer_decides honest unbounded
  refine ⟨travelled, inodes, middle, e', travels, raised, updated, fun wide => ?_⟩
  rw [decides wide, unmarked, tall]
  have present : 10 * unmarkedIn e.listedEntries < tallMarkedIn e.listedEntries ↔
      0 < e.presentExcess := by
    rw [Enclave.presentExcess]
    omega
  rw [present]
  obtain ⟨notUnder, notOver⟩ := outweighs
  constructor
  · intro heavier
    by_contra light
    exact notOver ⟨heavier, Int.not_lt.mp light⟩
  · intro heavy
    by_contra light
    exact notUnder ⟨heavy, Int.not_lt.mp light⟩

end Repr

def Setting.ExcessesOutweigh (setting : Setting) (calls : List Call) : Prop :=
  Runs.Along (Enclave.turn setting.platform)
    (fun state call => call = .pass → ∀ e ∈ state, e.ExcessOutweighs) setting.start calls

instance (setting : Setting) (calls : List Call) : Decidable (setting.ExcessesOutweigh calls) :=
  Runs.decidableAlong _ _ _ _

theorem lowering_decided_on_present (setting : Setting)
    (unbounded : ∀ value, setting.platform.int value = value) {calls : List Call}
    (jobs : JobsOk setting.nodes (jobsOf calls)) (clean : setting.Cleanly calls)
    (outweigh : setting.ExcessesOutweigh calls) :
    ∀ first rest, calls = first ++ .pass :: rest →
      ∃ e, setting.run first = some e ∧ e.DecidesOnPresent setting.platform := by
  intro first rest split
  obtain ⟨jobsFirst, cleanFirst⟩ := setting.prefix_ok jobs clean split
  obtain ⟨e, l, ran, _, repr, _⟩ := setting.run_refines jobsFirst cleanFirst
  refine ⟨e, ran, repr.decidesOnPresent setting.honest unbounded ?_⟩
  rw [split, ← List.singleton_append, ← List.append_assoc] at outweigh
  have here := ((Runs.along_snoc _ _ _ _ _).mp (Runs.Along.first outweigh)).2
  exact here rfl e (Option.mem_def.mpr ran)

def exactSetting (keys : List Nat) : Setting :=
  { numaSetting keys with
    platform := Platform.guarded { numa with int := id }
    honest := Platform.guarded_honest _ }

theorem exactSetting_int (keys : List Nat) (value : Int) :
    (exactSetting keys).platform.int value = value := rfl

def keptKeys : List Call := (List.range' 1 3).map insertJob ++ [.pass, deleteJob 2, .pass]

theorem keptKeys_decided : ∃ e,
    (exactSetting (List.range' 1 3)).run ((List.range' 1 3).map insertJob ++ [.pass, deleteJob 2]) =
      some e ∧ e.DecidesOnPresent (exactSetting (List.range' 1 3)).platform :=
  have jobs : JobsOk (exactSetting (List.range' 1 3)).nodes (jobsOf keptKeys) :=
    ⟨by decide, by decide, by decide⟩
  have never : (exactSetting (List.range' 1 3)).NeverLowers keptKeys := by decide +kernel
  have outweigh : (exactSetting (List.range' 1 3)).ExcessesOutweigh keptKeys := by decide +kernel
  lowering_decided_on_present (exactSetting (List.range' 1 3)) (exactSetting_int _) jobs
    never.cleanly outweigh ((List.range' 1 3).map insertJob ++ [.pass, deleteJob 2]) [] rfl

def emptied : List Call :=
  (List.range' 1 3).map insertJob ++ [.pass] ++ (List.range' 1 3).map deleteJob

theorem emptied_not_lowered : JobsOk (exactSetting (List.range' 1 3)).nodes (jobsOf emptied) ∧
    (exactSetting (List.range' 1 3)).Cleanly (emptied ++ [.pass]) ∧
    ∃ e, (exactSetting (List.range' 1 3)).run emptied = some e ∧
      ¬ e.DecidesOnPresent (exactSetting (List.range' 1 3)).platform := by
  have jobs : JobsOk (exactSetting (List.range' 1 3)).nodes (jobsOf emptied) :=
    ⟨by decide, by decide, by decide⟩
  have never : (exactSetting (List.range' 1 3)).NeverLowers (emptied ++ [.pass]) := by
    decide +kernel
  have ended : ((exactSetting (List.range' 1 3)).run emptied).map (fun e =>
      ((e.bgTravMnodes (exactSetting (List.range' 1 3)).platform).map fun travelled =>
        (unmarkedIn travelled.listedEntries, tallMarkedIn travelled.listedEntries),
      (e.raiseIndexLayer (exactSetting (List.range' 1 3)).platform).map fun raised =>
        raised.2.linkedRows.length,
      (e.updateIndexLayer (exactSetting (List.range' 1 3)).platform).map fun updated =>
        updated.linkedRows.length)) = some (some (0, 1), some 2, some 2) := by
    decide +kernel
  obtain ⟨e, ran, facts⟩ := Option.map_eq_some_iff.mp ended
  simp only [Prod.mk.injEq] at facts
  obtain ⟨counts, before, after⟩ := facts
  refine ⟨jobs, never.cleanly, e, ran, ?_⟩
  rintro ⟨travelled, inodes, middle, e', travels, raised, updated, decides⟩
  rw [travels, Option.map_some, Option.some_inj, Prod.mk.injEq] at counts
  rw [raised, Option.map_some, Option.some_inj] at before
  dsimp only at before
  rw [updated, Option.map_some, Option.some_inj] at after
  have lowered := (decides (Nat.le_of_eq before.symm)).mpr (by omega)
  have lengths := congrArg List.length lowered
  rw [List.length_tail] at lengths
  omega

end Hosk
