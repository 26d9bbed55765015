import Hosk.LinkedRows
import Hosk.RaisedEvenly
import Hosk.StandingTowers

/-! Three neighbours that a pass leaves low, in memory. -/

namespace Hosk

namespace Enclave

/-- The loop over the rows of the index, after its first turns. -/
def comesTo (platform : Platform) (inodes : List Nat) (e : Enclave) : Nat → Option Enclave
  | 0 => some e
  | i + 1 => do
      let e ← comesTo platform inodes e i
      let low ← inodes[i]?
      let high ← inodes[i + 1]?
      let (_, e) ← bgRaiseIlevel platform e low high (i + 1)
      some e

/-- No three neighbours of the intermediate layer have level 0. -/
def GroundEven (e : Enclave) : Prop :=
  ∀ x y z, [x, y, z] <:+: e.listedEntries → ¬ (x.level = 0 ∧ y.level = 0 ∧ z.level = 0)

/-- Nor three neighbours of a row a level of no more than the row's height. -/
def RowEven (e : Enclave) (i : Nat) : Prop :=
  ∃ row, e.linkedKeys[i]? = some row ∧ EvenRow e.listedEntries (i + 1) row

def RowSheltered (e : Enclave) (i : Nat) : Prop :=
  ∀ row, e.linkedKeys[i]? = some row → ShelteredRow e.listedEntries (i + 1) row

instance (e : Enclave) (i : Nat) : Decidable (e.RowSheltered i) :=
  inferInstanceAs (Decidable (∀ row ∈ e.linkedKeys[i]?, ShelteredRow e.listedEntries (i + 1) row))

end Enclave

namespace Repr

variable {e : Enclave} {l : Layout} {platform : Platform}

theorem comesTo_refines (honest : platform.Honest) (repr : Repr e l) {i : Nat}
    (bound : i < l.heads.length) : ∃ e' l', e.comesTo platform l.heads i = some e' ∧ Repr e' l' ∧
      l'.heads = l.heads ∧ abs e' l' = (abs e l).comesTo i := by
  induction i with
  | zero => exact ⟨e, l, rfl, repr, rfl, rfl⟩
  | succ i ih =>
      obtain ⟨middle, l₁, reached, repr₁, heads₁, abs₁⟩ := ih (by omega)
      rw [← heads₁] at bound reached ⊢
      have isLow := List.getElem?_eq_getElem (show i < l₁.heads.length by omega)
      have isHigh := List.getElem?_eq_getElem bound
      obtain ⟨e', l', raised, _, repr', heads', _, absEq⟩ :=
        repr₁.bgRaiseIlevel_refines honest isLow isHigh
      refine ⟨e', l', ?_, repr', heads', ?_⟩
      · simp only [Enclave.comesTo, reached, isLow, isHigh, raised, Option.bind_eq_bind,
          Option.bind_some]
      · rw [absEq, abs₁, Index.comesTo]

theorem ground_even (repr : Repr e l)
    (even : EvenRow (abs e l).entries 0 ((abs e l).entries.map Entry.key)) : e.GroundEven := by
  rw [Enclave.GroundEven, repr.listedEntries_eq]
  rintro x y z inside ⟨groundX, groundY, groundZ⟩
  have level : ∀ entry ∈ [x, y, z], entry.level = 0 → levelOf (abs e l).entries entry.key ≤ 0 := by
    intro entry member ground
    rw [levelOf_mem repr.linked.sorted (inside.subset member)]
    exact Nat.le_of_eq ground
  refine even x.key y.key z.key (inside.map Entry.key) ⟨?_, ?_, ?_⟩
  · exact level x (by simp) groundX
  · exact level y (by simp) groundY
  · exact level z (by simp) groundZ

end Repr

/-- After a pass that does not lower there are no three low neighbours in the intermediate layer,
nor in the rows that `bg_raise_ilevel` came to while they were sheltered. -/
theorem pass_evens_sheltered_rows (setting : Setting) {calls : List Call}
    (jobs : JobsOk setting.nodes (jobsOf calls)) (clean : setting.Cleanly calls) : ∃ e,
      setting.run calls = some e ∧ (e.lowersAt setting.platform = none →
        ∃ inodes raised start e', e.beginRows setting.platform = some (inodes, raised, start) ∧
          e.call setting.platform .pass = some e' ∧ e'.GroundEven ∧
          ∀ i, i + 1 < inodes.length → ∃ state,
            start.comesTo setting.platform inodes i = some state ∧
              (state.RowSheltered i → e'.RowEven i)) := by
  obtain ⟨e, l, ran, _, repr, _⟩ := setting.run_refines jobs clean
  refine ⟨e, ran, fun stays => ?_⟩
  obtain ⟨start, l₁, begins, _, reprStart, _, absStart⟩ := repr.beginRows_refines setting.honest
  obtain ⟨e', l', inodes, passed, _, repr', _, _, absEq⟩ := repr.raiseIndexLayer_refines setting.honest
  have linked := repr.linked
  have nonempty := repr.rows_positive
  refine ⟨_, _, start, e', begins, ?_, ?_, ?_⟩
  · rw [Enclave.lowersAt, passed] at stays
    rw [Enclave.call, Enclave.updateIndexLayer, passed]
    simp only [Option.bind_eq_bind, Option.bind_some] at stays ⊢
    rw [stays]
  · apply repr'.ground_even
    rw [absEq]
    exact linked.ground_even nonempty setting.platform.int
  · intro i bound
    obtain ⟨state, l₂, reached, reprState, _, absState⟩ :=
      reprStart.comesTo_refines setting.honest (show i < l₁.heads.length by omega)
    rw [absStart] at absState
    refine ⟨state, reached, fun sheltered => ?_⟩
    have wide : i + 1 < ((abs e l).bottomRaised setting.platform.int).rows.length := by
      rw [← absStart, Repr.rows_length, ← Repr.heads_length]
      exact bound
    obtain ⟨row, located⟩ : ∃ row, (abs state l₂).rows[i]? = some row := by
      refine ⟨_, List.getElem?_eq_getElem ?_⟩
      rw [absState, Index.comesTo_length]
      omega
    have shelteredRow := sheltered row (by rw [reprState.linkedKeys_eq, located])
    rw [reprState.listedEntries_eq, absState] at shelteredRow
    rw [absState] at located
    obtain ⟨left, isLeft, even⟩ := linked.row_even nonempty wide located shelteredRow
    rw [← absEq] at isLeft even
    exact ⟨left, by rw [repr'.linkedKeys_eq, isLeft], by rwa [repr'.listedEntries_eq]⟩

def grownAgain : List Call :=
  twiceLowered.take 41 ++ (List.range' 21 7).map insertJob ++ .pass :: (List.range' 28 6).map insertJob

def grownAgainKeys : List Nat := twiceLoweredKeys ++ List.range' 28 6

-- the row is 22, 24, 26, 28, 30 and 32, of which 24 is high; this pass raises 28
theorem grownAgain_evened : ∃ e e', (numaSetting grownAgainKeys).run grownAgain = some e ∧
    e.call numa.guarded .pass = some e' ∧ e'.GroundEven ∧ e'.RowEven 0 := by
  have jobs : JobsOk (numaSetting grownAgainKeys).nodes (jobsOf grownAgain) :=
    ⟨by decide, by decide, by decide⟩
  have stands : (numaSetting grownAgainKeys).Stands grownAgain := by decide +kernel
  have checked : ((numaSetting grownAgainKeys).run grownAgain).all (fun e =>
      (e.lowersAt numa.guarded).isNone && (e.beginRows numa.guarded).all fun begun =>
        0 + 1 < begun.1.length && decide (begun.2.2.RowSheltered 0)) = true := by
    decide +kernel
  obtain ⟨e, ran, evens⟩ :=
    pass_evens_sheltered_rows (numaSetting grownAgainKeys) jobs (stands.cleanly jobs)
  rw [ran, Option.all_some, Bool.and_eq_true, Option.isNone_iff_eq_none] at checked
  obtain ⟨inodes, raised, start, e', begins, called, ground, rows⟩ := evens checked.1
  have fits := checked.2
  rw [show e.beginRows numa.guarded = some (inodes, raised, start) from begins, Option.all_some,
    Bool.and_eq_true, decide_eq_true_eq, decide_eq_true_eq] at fits
  obtain ⟨state, reached, even⟩ := rows 0 fits.1
  obtain rfl := Option.some.inj reached
  exact ⟨e, e', ran, called, ground, even fits.2⟩

def fifteenKeys : List Call := (List.range' 1 15).map insertJob

/-- Key 8 is tall and marked as the keys 2, 6 and 10 around it are tested. -/
def closedUp : List Call := fifteenKeys ++ [.pass, deleteJob 4, .pass, deleteJob 8]

theorem closedUp_uneven : JobsOk (numaSetting (List.range' 1 15)).nodes (jobsOf closedUp) ∧
    (numaSetting (List.range' 1 15)).NeverLowers closedUp ∧
    ∃ e inodes raised start e', (numaSetting (List.range' 1 15)).run closedUp = some e ∧
      e.lowersAt numa.guarded = none ∧ e.beginRows numa.guarded = some (inodes, raised, start) ∧
      0 + 1 < inodes.length ∧ e.call numa.guarded .pass = some e' ∧ ¬ e'.RowEven 0 := by
  have ended : ((numaSetting (List.range' 1 15)).run closedUp).bind (fun e =>
      (e.beginRows numa.guarded).bind fun begun => (e.call numa.guarded .pass).map fun e' =>
        (e.lowersAt numa.guarded, begun.1.length, e'.linkedKeys[0]?,
          [2, 6, 10].map (levelOf e'.listedEntries))) =
      some (none, 3, some [2, 6, 10, 12, 14], [1, 1, 1]) := by
    decide +kernel
  obtain ⟨e, ran, ended⟩ := Option.bind_eq_some_iff.mp ended
  obtain ⟨⟨inodes, raised, start⟩, begins, ended⟩ := Option.bind_eq_some_iff.mp ended
  obtain ⟨e', called, facts⟩ := Option.map_eq_some_iff.mp ended
  simp only [Prod.mk.injEq, List.map_cons, List.map_nil, List.cons.injEq, and_true] at facts
  obtain ⟨stays, wide, isRow, two, six, ten⟩ := facts
  refine ⟨⟨by decide, by decide, by decide⟩, by decide +kernel, e, inodes, raised, start, e', ran,
    stays, begins, by omega, called, ?_⟩
  rintro ⟨row, located, even⟩
  obtain rfl := Option.some.inj (isRow.symm.trans located)
  refine even 2 6 10 (List.prefix_append [2, 6, 10] [12, 14]).isInfix ⟨?_, ?_, ?_⟩
  · exact Nat.le_of_eq two
  · exact Nat.le_of_eq six
  · exact Nat.le_of_eq ten

end Hosk
