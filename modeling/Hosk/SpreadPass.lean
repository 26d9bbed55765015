import Hosk.SpreadIndex

/-! Spread indices along whole runs that insert only, whatever their counters do. -/

namespace Hosk

namespace Index

variable {index : Index} {int : Int → Int}

theorem counts_unmarked (int : Int → Int) (entries : List Entry) : ∀ index : Index,
    (∀ entry ∈ entries, entry.marked = false) →
      (entries.foldl (Index.count int) index).tallDel = index.tallDel := by
  induction entries with
  | nil => exact fun _ _ => rfl
  | cons entry rest ih =>
      intro index unmarked
      rw [List.foldl_cons, ih _ fun other member => unmarked other (List.mem_cons_of_mem _ member),
        Index.count, if_pos (unmarked entry List.mem_cons_self)]

theorem Spread.trav (spread : index.Spread) (int : Int → Int) : (index.trav int).Spread := by
  have entries : (index.trav int).entries = index.entries := by
    apply List.filter_eq_self.mpr
    intro entry member
    simp [Entry.stays, spread.unmarked entry member]
  have tallDel : (index.trav int).tallDel = index.tallDel := by
    apply counts_unmarked int (index.entries.filter Entry.stays) index
    exact fun entry member => spread.unmarked entry (List.mem_filter.mp member).1
  obtain ⟨unmarked, noneTall, nested, ground, spaced, filled⟩ := spread
  refine ⟨?_, ?_, ?_, ?_, ?_, ?_⟩
  · rwa [entries]
  · rw [tallDel, noneTall]
  · rwa [trav_rows]
  · rwa [trav_rows, entries]
  · rwa [trav_rows]
  · rwa [trav_rows]

theorem Spread.bottomRaised (spread : index.Spread) (linked : index.Linked)
    (nonempty : 0 < index.rows.length) (int : Int → Int) : (index.bottomRaised int).Spread ∧
      (index.bottomKeys int ≠ [] → ∀ row, (index.bottomRaised int).rows[0]? = some row → row ≠ []) := by
  have travelled := spread.trav int
  have linkedT := linked.trav int
  obtain ⟨row, located⟩ : ∃ row, (index.trav int).rows[0]? = some row :=
    ⟨_, List.getElem?_eq_getElem (by rwa [trav_rows])⟩
  have levels : ∀ entry ∈ (index.trav int).entries,
      levelOf (index.trav int).entries entry.key = entry.level := fun _ => levelOf_mem linkedT.sorted
  have raised : ((index.trav int).raise 0 (index.bottomKeys int)).Spread := by
    refine travelled.raise linkedT located ?_ (fun _ => ?_) fun i _ wrong =>
      absurd wrong (Nat.succ_ne_zero i).symm
    · intro key member
      obtain ⟨entry, inEntries, rfl, level⟩ := raisedM_ground member
      exact Nat.le_of_eq ((levels entry inEntries).trans level)
    · rw [bottomKeys, raisedM_eq _ levels]
      refine raisedI_spaced _ (keys_nodup linkedT.sorted) (fun _ _ => rfl) ?_ (fun _ => ?_)
        (travelled.ground row located)
      · exact fun key _ inRow => linkedT.level located inRow
      · rwa [trav_rows]
  have bottom := raise_row located (index.bottomKeys int) 0
  rw [if_pos rfl] at bottom
  have found : ∀ keys ≠ [], insertKeys row keys ≠ [] := by
    intro keys some
    apply List.ne_nil_of_length_pos
    rw [(insertKeys_perm row keys).length_eq, List.length_append]
    have more := List.length_pos_iff.mpr some
    omega
  rw [Index.bottomRaised]
  split
  · rename_i grows
    obtain ⟨some, single⟩ := grows
    have nonemptyKeys : index.bottomKeys int ≠ [] := by simpa using some
    refine ⟨raised.grow fun top isTop => ?_, fun _ top isTop => ?_⟩
    · rw [List.getLast?_eq_getElem?, single, bottom] at isTop
      rw [← Option.some.inj isTop]
      exact found _ nonemptyKeys
    · rw [Index.grow, List.getElem?_append_left (by omega), bottom] at isTop
      rw [← Option.some.inj isTop]
      exact found _ nonemptyKeys
  · refine ⟨raised, fun some top isTop => ?_⟩
    rw [bottom] at isTop
    rw [← Option.some.inj isTop]
    exact found _ some

theorem Spread.raiseIlevel (spread : index.Spread) (linked : index.Linked) {i : Nat}
    (bound : i + 1 < index.rows.length) : (index.raiseIlevel i).1.Spread ∧
      (index.rowKeys i ≠ [] → ∀ row, (index.raiseIlevel i).1.rows[i + 1]? = some row → row ≠ []) := by
  have isLow := List.getElem?_eq_getElem (show i < index.rows.length by omega)
  have isHigh := List.getElem?_eq_getElem bound
  generalize index.rows[i] = low at isLow
  generalize index.rows[i + 1] = high at isHigh
  have inside := index.rowKeys_sublist isLow
  rw [raiseIlevel_eq, unlinkMarked_unmarked spread.unmarked (by omega)]
  refine ⟨spread.raise linked isHigh (fun key => raisedI_low) (fun wrong => ?_) ?_, ?_⟩
  · exact absurd wrong (Nat.succ_ne_zero i)
  · intro j below same isBelow
    obtain rfl := Nat.succ.inj same
    obtain rfl : low = below := Option.some.inj (isLow.symm.trans isBelow)
    refine ⟨inside.subset, ?_⟩
    rw [rowKeys, getD_row isLow]
    refine raisedI_spaced low (linked.nodup isLow) ?_ ?_ (fun _ => bound)
      (spread.spaced i low high isLow isHigh)
    · exact fun key _ => markedOf_unmarked spread.unmarked key
    · exact fun key _ inHigh => linked.level isHigh inHigh
  · intro some row found
    have changed := raise_row isHigh (index.rowKeys i) (i + 1)
    rw [if_pos rfl, found] at changed
    rw [Option.some.inj changed]
    apply List.ne_nil_of_length_pos
    rw [(insertKeys_perm high _).length_eq, List.length_append]
    have more := List.length_pos_iff.mpr some
    omega

theorem Spread.raiseIndexLayer (spread : index.Spread) (linked : index.Linked)
    (nonempty : 0 < index.rows.length) (int : Int → Int) : (index.raiseIndexLayer int).Spread := by
  obtain ⟨bottom, topped⟩ := spread.bottomRaised linked nonempty int
  have linkedBottom := linked.bottomRaised nonempty int
  have filled := bottomRaised_nonempty int nonempty
  obtain ⟨spreadLast, _, length, last⟩ := raiseRows_rule
    (motive := fun j (state : Index) raised => state.Spread ∧ state.Linked ∧
      state.rows.length = (index.bottomRaised int).rows.length ∧
      (raised = true → ∀ row, state.rows[j]? = some row → row ≠ []))
    ((index.bottomRaised int).rows.length - 1) 0 (index.bottomRaised int)
    (!(index.bottomKeys int).isEmpty)
    ⟨bottom, linkedBottom, rfl, fun some => topped (by simpa using some)⟩ (by omega)
    (by
      rintro j state raised bound ⟨spreadNow, linkedNow, length, _⟩
      obtain ⟨spreadNext, toppedNext⟩ := spreadNow.raiseIlevel linkedNow bound
      exact ⟨spreadNext, linkedNow.raiseIlevel bound, (raiseIlevel_length state j).trans length,
        fun some => toppedNext (by simpa using some)⟩)
  rw [raiseIndexLayer_eq]
  split
  · rename_i raised
    apply Spread.grow spreadLast
    intro row isTop
    rw [List.getLast?_eq_getElem?, length] at isTop
    apply last raised row
    rwa [Nat.zero_add]
  · exact spreadLast

theorem Spread.lower (spread : index.Spread) : index.lower.Spread := by
  have rows : ∀ i : Nat, index.lower.rows[i]? = index.rows[i + 1]? := fun i => List.getElem?_tail ..
  have keys : index.lower.entries.map Entry.key = index.entries.map Entry.key := by
    rw [Index.lower, List.map_map]
    refine List.map_congr_left fun entry _ => ?_
    rw [Function.comp_apply]
    split <;> rfl
  refine ⟨?_, spread.noneTall, ?_, ?_, ?_, ?_⟩
  · intro entry member
    obtain ⟨old, inEntries, rfl⟩ := List.mem_map.mp member
    have unmarked := spread.unmarked old inEntries
    split <;> exact unmarked
  · intro i low high isLow isHigh
    rw [rows] at isLow isHigh
    exact spread.nested (i + 1) low high isLow isHigh
  · intro row isBottom
    rw [rows] at isBottom
    have bound := (List.getElem?_eq_some_iff.mp isBottom).1
    have dropped := List.getElem?_eq_getElem (show 0 < index.rows.length by omega)
    rw [keys]
    exact (spread.ground _ dropped).fewer fun key _ inRow =>
      spread.nested 0 _ row dropped isBottom inRow
  · intro i low high isLow isHigh
    rw [rows] at isLow isHigh
    exact spread.spaced (i + 1) low high isLow isHigh
  · intro i row found below
    rw [rows] at found
    apply spread.filled (i + 1) row found
    rw [Index.lower, List.length_tail] at below
    omega

theorem Spread.reset (spread : index.Spread) : index.reset.Spread := by
  have single : ∀ {i : Nat} {row : List Nat}, index.reset.rows[i]? = some row → i = 0 ∧ row = [] := by
    intro i row found
    obtain ⟨bound, value⟩ := List.getElem?_eq_some_iff.mp found
    have zero : i = 0 := Nat.lt_one_iff.mp bound
    subst zero
    exact ⟨rfl, value.symm⟩
  refine ⟨?_, spread.noneTall, ?_, ?_, ?_, ?_⟩
  · exact unmarked_relevelled (reset_relevelled index) spread.unmarked
  · exact fun i low high _ isHigh => absurd (single isHigh).1 (Nat.succ_ne_zero i)
  · intro row found
    rw [(single found).2]
    exact Spaced.none fun _ _ => List.not_mem_nil
  · exact fun i low high _ isHigh => absurd (single isHigh).1 (Nat.succ_ne_zero i)
  · intro i row _ below
    exact absurd (Nat.lt_one_iff.mp below) (Nat.succ_ne_zero i)

theorem Spread.job (spread : index.Spread) (linked : index.Linked) {job : Job}
    (inserts : job.node ≠ 0) : (index.updateIntermediateLayer job).Spread := by
  refine ⟨unmarked_applyJob inserts spread.unmarked, spread.noneTall, spread.nested, ?_,
    spread.spaced, spread.filled⟩
  intro row isBottom
  have ground := spread.ground row isBottom
  rcases applyJob_keys linked.sorted inserts with same | ⟨first, second, split, added, fresh⟩
  · exact same ▸ ground
  · rw [show (index.updateIntermediateLayer job).entries.map Entry.key = _ from added]
    rw [split] at ground fresh
    apply ground.insert
    intro inRow
    obtain ⟨entry, inEntries, same, _⟩ := linked.linked 0 row job.key isBottom inRow
    rw [← split] at fresh
    exact fresh (same ▸ List.mem_map_of_mem inEntries)

theorem Spread.row_length (spread : index.Spread) (linked : index.Linked) (above : Nat) :
    ∀ (i : Nat) row, i + above + 2 = index.rows.length → index.rows[i]? = some row →
      2 ^ (above + 1) ≤ row.length + 1 := by
  induction above with
  | zero =>
      intro i row size found
      have nonempty := List.length_pos_iff.mpr (spread.filled i row found (by omega))
      omega
  | succ above ih =>
      intro i row size found
      have bound : i + 1 < index.rows.length := by omega
      have isHigh := List.getElem?_eq_getElem bound
      generalize index.rows[i + 1] = high at isHigh
      have enough := ih (i + 1) high (by omega) isHigh
      have nonempty := spread.filled i row found (by omega)
      have few := (Spaced.count_le row (spread.spaced i row high found isHigh)).2 trivial nonempty
      have counted := countP_mem_eq_length (linked.nodup found) (linked.nodup isHigh)
        (spread.nested i row high found isHigh)
      rw [counted] at few
      rw [Nat.pow_succ]
      omega

/-- No index over unmarked entries is higher than their logarithm. -/
theorem Spread.height_le (spread : index.Spread) (linked : index.Linked) :
    index.rows.length ≤ max 1 (Nat.log 2 (index.entries.length + 1)) := by
  by_cases low : index.rows.length ≤ 1
  · exact Nat.le_trans low (Nat.le_max_left _ _)
  · have isBottom := List.getElem?_eq_getElem (show 0 < index.rows.length by omega)
    generalize index.rows[0] = row at isBottom
    have enough := spread.row_length linked (index.rows.length - 2) 0 row (by omega) isBottom
    have nonempty := spread.filled 0 row isBottom (by omega)
    have inside : row ⊆ index.entries.map Entry.key := by
      intro key member
      obtain ⟨entry, inEntries, rfl, _⟩ := linked.linked 0 row key isBottom member
      exact List.mem_map_of_mem inEntries
    have some : index.entries.map Entry.key ≠ [] := by
      obtain ⟨key, member⟩ := List.exists_mem_of_ne_nil row nonempty
      exact List.ne_nil_of_mem (inside member)
    have few := (Spaced.count_le _ (spread.ground row isBottom)).2 trivial some
    rw [countP_mem_eq_length (keys_nodup linked.sorted) (linked.nodup isBottom) inside,
      List.length_map] at few
    refine Nat.le_trans ?_ (Nat.le_max_right _ _)
    apply Nat.le_log_of_pow_le Nat.one_lt_two
    rw [show index.rows.length = index.rows.length - 2 + 1 + 1 by omega, Nat.pow_succ]
    omega

end Index

end Hosk
