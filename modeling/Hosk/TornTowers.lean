import Hosk.JobReplay
import Hosk.RaisedApart

/-! How far apart the keys of a row stand, as long as no tower that lost an inode is revived. -/

namespace Hosk

namespace Index

def LinkedAt (index : Index) (i key : Nat) : Prop := key ∈ index.rows.getD i []

def Whole (index : Index) (base i key : Nat) : Prop :=
  ∀ j, base ≤ j → j ≤ i → index.LinkedAt j key

/-- The keys that rows link have inserted ones between them, more for each row that links them, and
what is torn stands behind what is not. -/
structure Apart (index : Index) (seen : Finset Nat) : Prop where
  known : ∀ entry ∈ index.entries, entry.key ∈ seen
  whole : ∀ entry ∈ index.entries, entry.marked = false → ∀ i, index.LinkedAt i entry.key →
    index.Whole 0 i entry.key
  tall : ∀ i j low high, low < high → index.LinkedAt i low → index.LinkedAt j high →
    2 ≤ (itemsBetween seen low high).card + 1
  apart : ∀ base i low high, base ≤ i → low < high → index.Whole base i low →
    index.Whole base i high → 2 ^ (i + 1 - base) ≤ (itemsBetween seen low high).card + 1
  behind : ∀ base i torn key, base ≤ i → index.LinkedAt i torn → ¬ index.Whole base i torn →
    index.Whole base (i + 1) key → key < torn
  height : index.rows.length ≤ 1 ∨ 2 ^ (index.rows.length - 2) + 1 ≤ seen.card

variable {index old : Index} {seen : Finset Nat} {base i j key : Nat}

theorem Whole.here (whole : index.Whole base i key) (order : base ≤ i) : index.LinkedAt i key :=
  whole i order (Nat.le_refl i)

theorem Whole.part (whole : index.Whole base i key) {base' j : Nat} (above : base ≤ base')
    (below : j ≤ i) : index.Whole base' j key :=
  fun k first last => whole k (above.trans first) (last.trans below)

theorem LinkedAt.located (linked : index.LinkedAt i key) :
    ∃ row, index.rows[i]? = some row ∧ key ∈ row := by
  rw [LinkedAt, List.getD_eq_getElem?_getD] at linked
  cases found : index.rows[i]? with
  | none => exact absurd (found ▸ linked) List.not_mem_nil
  | some row => exact ⟨row, rfl, by rwa [found] at linked⟩

theorem linkedAt_of_row {row : List Nat} (located : index.rows[i]? = some row) :
    index.LinkedAt i key ↔ key ∈ row := by
  rw [LinkedAt, getD_row located]

theorem LinkedAt.bound (linked : index.LinkedAt i key) : i < index.rows.length := by
  obtain ⟨row, located, _⟩ := linked.located
  exact (List.getElem?_eq_some_iff.mp located).1

theorem linkedAt_grow : index.grow.LinkedAt i key ↔ index.LinkedAt i key := by
  rw [LinkedAt, LinkedAt, Index.grow, List.getD_eq_getElem?_getD, List.getD_eq_getElem?_getD,
    List.getElem?_append]
  split
  · exact Iff.rfl
  · rename_i beyond
    rw [List.getElem?_eq_none (Nat.le_of_not_lt beyond)]
    cases i - index.rows.length <;> exact Iff.rfl

theorem Linked.ascending_row (linked : index.Linked) (i : Nat) :
    (index.rows.getD i []).Pairwise (· < ·) := by
  rw [List.getD_eq_getElem?_getD]
  cases found : index.rows[i]? with
  | none => exact List.Pairwise.nil
  | some row => exact linked.ascending row (List.mem_of_getElem? found)

theorem Linked.entry_at (linked : index.Linked) (linkedAt : index.LinkedAt i key) :
    ∃ entry ∈ index.entries, entry.key = key ∧ i < entry.level := by
  obtain ⟨row, located, member⟩ := linkedAt.located
  exact linked.linked i row key located member

theorem Linked.level_at (linked : index.Linked) (linkedAt : index.LinkedAt i key) :
    i < levelOf index.entries key := by
  obtain ⟨row, located, member⟩ := linkedAt.located
  exact linked.level located member

theorem Apart.whole_at (apart : index.Apart seen) (linked : index.Linked)
    (linkedAt : index.LinkedAt i key) (unmarked : markedOf index.entries key = false) :
    index.Whole 0 i key := by
  obtain ⟨entry, inEntries, rfl, _⟩ := linked.entry_at linkedAt
  rw [markedOf_mem linked.sorted inEntries] at unmarked
  exact apart.whole entry inEntries unmarked i linkedAt

theorem Apart.height_le (apart : index.Apart seen) :
    index.rows.length ≤ 2 + Nat.log 2 (seen.card + 1) := by
  rcases apart.height with low | tall
  · omega
  · have power : 2 ^ (index.rows.length - 2) ≤ seen.card + 1 := by omega
    have exponent := Nat.le_log_of_pow_le Nat.one_lt_two power
    omega

theorem linkedAt_raised_row (bound : j < index.rows.length) :
    (index.raiseIlevel j).1.LinkedAt j key ↔
      key ∈ dropMarked (markedOf index.entries) false (index.rows.getD j []) := by
  have isRow := List.getElem?_eq_getElem bound
  rw [linkedAt_of_row (raiseIlevel_row isRow), getD_row isRow]

theorem linkedAt_raised_above (bound : j + 1 < index.rows.length) :
    (index.raiseIlevel j).1.LinkedAt (j + 1) key ↔
      key ∈ index.rowKeys j ∨ index.LinkedAt (j + 1) key := by
  have isRow := List.getElem?_eq_getElem bound
  have isRaised : (index.raiseIlevel j).1.rows[j + 1]? =
      some (insertKeys index.rows[j + 1] (index.rowKeys j)) := by
    rw [raiseIlevel_rows, List.getElem?_modify_eq, List.getElem?_set_ne (by omega), isRow]
    rfl
  rw [linkedAt_of_row isRaised, mem_insertKeys, linkedAt_of_row isRow]

theorem linkedAt_raised_other (notHere : i ≠ j) (notAbove : i ≠ j + 1) :
    (index.raiseIlevel j).1.LinkedAt i key ↔ index.LinkedAt i key := by
  rw [LinkedAt, LinkedAt, raiseIlevel_rows, List.getD_eq_getElem?_getD,
    List.getElem?_modify_ne _ _ (by omega), List.getElem?_set_ne (by omega),
    ← List.getD_eq_getElem?_getD]

/-- New in the row since the pass began, or with a whole tower then. -/
def Cell (index old : Index) (base j key : Nat) : Prop :=
  index.LinkedAt j key ∧ (old.LinkedAt j key → old.Whole base j key)

/-- The index as a pass comes to its row `j`; `old` is the one it began with. -/
structure Midway (old : Index) (seen : Finset Nat) (j : Nat) (index : Index) (raised : Bool) :
    Prop where
  linked : index.Linked
  known : ∀ key ∈ index.entries.map Entry.key, key ∈ seen
  marks : ∀ key, markedOf index.entries key = markedOf old.entries key
  above : ∀ i key, j < i → (index.LinkedAt i key ↔ old.LinkedAt i key)
  still : ∀ key, old.LinkedAt j key → index.LinkedAt j key
  whole : ∀ i key, index.LinkedAt i key → markedOf index.entries key = false → index.Whole 0 i key
  fresh : ∀ i key, index.LinkedAt i key → ¬ old.LinkedAt i key → ∀ k, i ≤ k → ¬ old.LinkedAt k key
  tall : ∀ i k low high, low < high → index.LinkedAt i low → index.LinkedAt k high →
    2 ≤ (itemsBetween seen low high).card + 1
  cells : ∀ base low high, base ≤ j → low < high → index.Cell old base j low →
    index.Cell old base j high → markedOf index.entries low = false ∨ old.LinkedAt j high →
    2 ^ (j + 1 - base) ≤ (itemsBetween seen low high).card + 1
  apart : ∀ base i low high, base ≤ i → i ≤ j → low < high → index.Whole base i low →
    index.Whole base i high → 2 ^ (i + 1 - base) ≤ (itemsBetween seen low high).card + 1
  last : ∀ i key, i < j → index.LinkedAt i key → markedOf index.entries key = true →
    ∀ other, index.LinkedAt i other → other ≤ key
  height : index.rows.length ≤ 1 ∨ 2 ^ (index.rows.length - 2) + 1 ≤ seen.card
  grows : raised = true → 2 ^ j + 1 ≤ seen.card

section Step

variable {raised : Bool} {low high : Nat}

theorem rowKeys_linked (member : key ∈ index.rowKeys j) : index.LinkedAt j key :=
  (raisedI_sublist _ _ _ _ _).subset member

theorem Midway.seen_at (mid : Midway old seen j index raised) (linkedAt : index.LinkedAt i key) :
    key ∈ seen := by
  obtain ⟨entry, inEntries, rfl, _⟩ := mid.linked.entry_at linkedAt
  exact mid.known entry.key (List.mem_map_of_mem inEntries)

theorem Midway.rowKeys_fresh (mid : Midway old seen j index raised) (member : key ∈ index.rowKeys j)
    {k : Nat} (order : j + 1 ≤ k) : ¬ old.LinkedAt k key := by
  intro linkedAt
  have level := mid.linked.level_at ((mid.above k key order).mpr linkedAt)
  have low : levelOf index.entries key ≤ j + 1 := raisedI_low member
  omega

theorem Midway.cell_of_unmarked (mid : Midway old seen j index raised) (linkedOld : old.Linked)
    (apart : old.Apart seen) (linkedAt : index.LinkedAt j key)
    (unmarked : markedOf index.entries key = false) (base : Nat) : index.Cell old base j key := by
  refine ⟨linkedAt, fun oldAt => ?_⟩
  rw [mid.marks] at unmarked
  exact (apart.whole_at linkedOld oldAt unmarked).part (Nat.zero_le base) (Nat.le_refl j)

theorem Midway.cell_of_whole (mid : Midway old seen j index raised) (order : base ≤ j)
    (whole : old.Whole base (j + 1) key) : index.Cell old base j key :=
  ⟨mid.still key (whole j order (Nat.le_succ j)), fun _ => whole.part (Nat.le_refl base) (Nat.le_succ j)⟩

theorem Midway.level_of_whole (mid : Midway old seen j index raised) (order : base ≤ j)
    (whole : old.Whole base (j + 1) key) : j + 1 < levelOf index.entries key := by
  apply mid.linked.level_at
  exact (mid.above (j + 1) key (Nat.lt_succ_self j)).mpr (whole.here (Nat.le_succ_of_le order))

theorem room_doubles {middle : Nat} (order : base ≤ j) (member : middle ∈ seen) (above : low < middle)
    (below : middle < high) (first : 2 ^ (j + 1 - base) ≤ (itemsBetween seen low middle).card + 1)
    (second : 2 ^ (j + 1 - base) ≤ (itemsBetween seen middle high).card + 1) :
    2 ^ (j + 2 - base) ≤ (itemsBetween seen low high).card + 1 := by
  have split := itemsBetween_split member above below
  have exponent : j + 2 - base = j + 1 - base + 1 := by omega
  rw [exponent, pow_succ]
  omega

theorem Midway.room_behind (mid : Midway old seen j index raised) (linkedOld : old.Linked)
    (apart : old.Apart seen) (bound : j + 1 < index.rows.length) (inside : base ≤ j)
    (order : low < high) (isRaised : high ∈ index.rowKeys j)
    (unmarked : markedOf index.entries low = false)
    (isHigh : low ∈ index.rowKeys j ∨ old.Whole base (j + 1) low) :
    2 ^ (j + 2 - base) ≤ (itemsBetween seen low high).card + 1 := by
  have lowAt : index.LinkedAt j low := by
    rcases isHigh with again | whole
    · exact rowKeys_linked again
    · exact (mid.cell_of_whole inside whole).1
  have tall := isHigh.imp_right (mid.level_of_whole inside)
  obtain ⟨middle, inRow, above, below, notMarked⟩ := raised_apart_behind
    (mid.linked.ascending_row j) bound isRaised lowAt order unmarked tall
  have middleAt : index.LinkedAt j middle := inRow
  have cellLow := mid.cell_of_unmarked linkedOld apart lowAt unmarked base
  have cellMiddle := mid.cell_of_unmarked linkedOld apart middleAt notMarked base
  have cellHigh := mid.cell_of_unmarked linkedOld apart (rowKeys_linked isRaised)
    (raisedI_unmarked _ isRaised) base
  apply room_doubles inside (mid.seen_at middleAt) above below
  · exact mid.cells base low middle inside above cellLow cellMiddle (.inl unmarked)
  · exact mid.cells base middle high inside below cellMiddle cellHigh (.inl notMarked)

theorem Midway.room_before (mid : Midway old seen j index raised) (linkedOld : old.Linked)
    (apart : old.Apart seen) (inside : base ≤ j) (order : low < high)
    (isRaised : low ∈ index.rowKeys j) (whole : old.Whole base (j + 1) high) :
    2 ^ (j + 2 - base) ≤ (itemsBetween seen low high).card + 1 := by
  have cellHigh := mid.cell_of_whole inside whole
  obtain ⟨middle, inRow, above, below, notHigh⟩ := raised_apart_before (mid.linked.ascending_row j)
    isRaised cellHigh.1 order (mid.level_of_whole inside whole)
  have middleAt : index.LinkedAt j middle := inRow
  have cellMiddle : index.Cell old base j middle := by
    refine ⟨middleAt, fun oldAt => ?_⟩
    by_contra torn
    have before := apart.behind base j middle high inside oldAt torn whole
    omega
  have unmarked : markedOf index.entries low = false := raisedI_unmarked _ isRaised
  have cellLow := mid.cell_of_unmarked linkedOld apart (rowKeys_linked isRaised) unmarked base
  have oldHigh := whole j inside (Nat.le_succ j)
  apply room_doubles inside (mid.seen_at middleAt) above below
  · exact mid.cells base low middle inside above cellLow cellMiddle (.inl unmarked)
  · exact mid.cells base middle high inside below cellMiddle cellHigh (.inr oldHigh)

theorem linkedAt_kept (bound : j + 1 < index.rows.length) (linkedAt : index.LinkedAt i key)
    (unmarked : markedOf index.entries key = false) : (index.raiseIlevel j).1.LinkedAt i key := by
  by_cases here : i = j
  · subst here
    exact (linkedAt_raised_row (by omega)).mpr (dropMarked_keeps _ linkedAt unmarked)
  · by_cases isAbove : i = j + 1
    · subst isAbove
      exact (linkedAt_raised_above bound).mpr (.inr linkedAt)
    · exact (linkedAt_raised_other here isAbove).mpr linkedAt

theorem linkedAt_left (bound : j + 1 < index.rows.length) (notAbove : i ≠ j + 1)
    (left : (index.raiseIlevel j).1.LinkedAt i key) : index.LinkedAt i key := by
  by_cases here : i = j
  · subst here
    exact (dropMarked_sublist _ _ _).subset ((linkedAt_raised_row (by omega)).mp left)
  · exact (linkedAt_raised_other here notAbove).mp left

theorem linkedAt_before (bound : j + 1 < index.rows.length)
    (linkedAt : (index.raiseIlevel j).1.LinkedAt i key) : ∃ k, index.LinkedAt k key := by
  by_cases isAbove : i = j + 1
  · subst isAbove
    rcases (linkedAt_raised_above bound).mp linkedAt with isRaised | isAt
    · exact ⟨j, rowKeys_linked isRaised⟩
    · exact ⟨j + 1, isAt⟩
  · exact ⟨i, linkedAt_left bound isAbove linkedAt⟩

theorem Midway.next_whole (mid : Midway old seen j index raised) (bound : j + 1 < index.rows.length)
    (linkedAt : (index.raiseIlevel j).1.LinkedAt i key)
    (unmarked : markedOf index.entries key = false) : (index.raiseIlevel j).1.Whole 0 i key := by
  have kept : ∀ k, index.LinkedAt k key → (index.raiseIlevel j).1.Whole 0 k key :=
    fun k isAt below first order =>
      linkedAt_kept bound (mid.whole k key isAt unmarked below first order) unmarked
  by_cases isAbove : i = j + 1
  · subst isAbove
    rcases (linkedAt_raised_above bound).mp linkedAt with isRaised | isAt
    · intro k first order
      by_cases top : k = j + 1
      · rwa [top]
      · exact kept j (rowKeys_linked isRaised) k first (by omega)
    · exact kept (j + 1) isAt
  · exact kept i (linkedAt_left bound isAbove linkedAt)

theorem Midway.next_fresh (mid : Midway old seen j index raised) (bound : j + 1 < index.rows.length)
    (linkedAt : (index.raiseIlevel j).1.LinkedAt i key) (new : ¬ old.LinkedAt i key) {k : Nat}
    (order : i ≤ k) : ¬ old.LinkedAt k key := by
  by_cases isAbove : i = j + 1
  · subst isAbove
    rcases (linkedAt_raised_above bound).mp linkedAt with isRaised | isAt
    · exact mid.rowKeys_fresh isRaised order
    · exact mid.fresh (j + 1) key isAt new k order
  · exact mid.fresh i key (linkedAt_left bound isAbove linkedAt) new k order

theorem Midway.next_tall (mid : Midway old seen j index raised) (bound : j + 1 < index.rows.length)
    {k : Nat} (order : low < high) (lowAt : (index.raiseIlevel j).1.LinkedAt i low)
    (highAt : (index.raiseIlevel j).1.LinkedAt k high) :
    2 ≤ (itemsBetween seen low high).card + 1 := by
  obtain ⟨lowRow, lowBefore⟩ := linkedAt_before bound lowAt
  obtain ⟨highRow, highBefore⟩ := linkedAt_before bound highAt
  exact mid.tall lowRow highRow low high order lowBefore highBefore

theorem Midway.next_cells (mid : Midway old seen j index raised) (linkedOld : old.Linked)
    (apart : old.Apart seen) (bound : j + 1 < index.rows.length) (inside : base ≤ j)
    (order : low < high) (isLow : (index.raiseIlevel j).1.Cell old base (j + 1) low)
    (isHigh : (index.raiseIlevel j).1.Cell old base (j + 1) high)
    (either : markedOf index.entries low = false ∨ old.LinkedAt (j + 1) high) :
    2 ^ (j + 2 - base) ≤ (itemsBetween seen low high).card + 1 := by
  have origin : ∀ key, (index.raiseIlevel j).1.Cell old base (j + 1) key →
      key ∈ index.rowKeys j ∨ old.Whole base (j + 1) key := by
    rintro key ⟨linkedAt, whole⟩
    refine ((linkedAt_raised_above bound).mp linkedAt).imp_right fun isAt => whole ?_
    exact (mid.above (j + 1) key (Nat.lt_succ_self j)).mp isAt
  have lowOrigin := origin low isLow
  rcases origin high isHigh with raisedHigh | wholeHigh
  · rcases either with unmarked | oldHigh
    · exact mid.room_behind linkedOld apart bound inside order raisedHigh unmarked lowOrigin
    · exact absurd oldHigh (mid.rowKeys_fresh raisedHigh (Nat.le_refl _))
  · rcases lowOrigin with raisedLow | wholeLow
    · exact mid.room_before linkedOld apart inside order raisedLow wholeHigh
    · exact apart.apart base (j + 1) low high (by omega) order wholeLow wholeHigh

/-- The last row that was raised into: what is marked there is old, and torn once it is unlinked. -/
theorem Midway.next_apart (mid : Midway old seen j index raised) (linkedOld : old.Linked)
    (apart : old.Apart seen) (bound : j + 1 < index.rows.length) (inside : base ≤ j)
    (order : low < high) (wholeLow : (index.raiseIlevel j).1.Whole base (j + 1) low)
    (wholeHigh : (index.raiseIlevel j).1.Whole base (j + 1) high) :
    2 ^ (j + 2 - base) ≤ (itemsBetween seen low high).card + 1 := by
  have cell : ∀ key, (index.raiseIlevel j).1.Whole base (j + 1) key →
      (index.raiseIlevel j).1.Cell old base (j + 1) key := by
    refine fun key whole => ⟨whole.here (by omega), fun oldAt k first below => ?_⟩
    by_contra new
    exact mid.next_fresh bound (whole k first below) new below oldAt
  refine mid.next_cells linkedOld apart bound inside order (cell low wholeLow) (cell high wholeHigh) ?_
  by_contra neither
  obtain ⟨notUnmarked, notOld⟩ := not_or.mp neither
  have raisedHigh : high ∈ index.rowKeys j := by
    refine ((linkedAt_raised_above bound).mp (wholeHigh.here (by omega))).resolve_right fun isAt =>
      notOld ?_
    exact (mid.above (j + 1) high (Nat.lt_succ_self j)).mp isAt
  have left := (linkedAt_raised_row (Nat.lt_of_succ_lt bound)).mp
    (wholeLow j inside (Nat.le_succ j))
  have isLast := dropMarked_last _ (mid.linked.ascending_row j) left
    (Bool.eq_true_of_not_eq_false notUnmarked) high (rowKeys_linked raisedHigh)
  omega

theorem Midway.next_grows (mid : Midway old seen j index raised) (linkedOld : old.Linked)
    (apart : old.Apart seen) (bound : j + 1 < index.rows.length) (nonempty : index.rowKeys j ≠ []) :
    2 ^ (j + 1) + 1 ≤ seen.card := by
  obtain ⟨high, isRaised⟩ := List.exists_mem_of_ne_nil _ nonempty
  have ascending := mid.linked.ascending_row j
  rcases raised_behind _ ascending isRaised with ⟨low, _⟩ | ⟨low, inRow, order, unmarked, _⟩
  · omega
  · have lowAt : index.LinkedAt j low := inRow
    have highAt := rowKeys_linked isRaised
    have room := mid.cells 0 low high (Nat.zero_le j) order
      (mid.cell_of_unmarked linkedOld apart lowAt unmarked 0)
      (mid.cell_of_unmarked linkedOld apart highAt (raisedI_unmarked _ isRaised) 0) (.inl unmarked)
    have ends := itemsBetween_ends (mid.seen_at lowAt) (mid.seen_at highAt) order
    rw [Nat.sub_zero] at room
    omega

theorem Midway.step (mid : Midway old seen j index raised) (linkedOld : old.Linked)
    (apart : old.Apart seen) (bound : j + 1 < index.rows.length) :
    Midway old seen (j + 1) (index.raiseIlevel j).1 (!(index.rowKeys j).isEmpty) := by
  have marks : ∀ key, markedOf (index.raiseIlevel j).1.entries key = markedOf index.entries key :=
    markedOf_setLevels _ _ _
  have lowest : j + 1 + 1 - (j + 1) = 1 := by omega
  refine ⟨mid.linked.raiseIlevel bound, ?_, ?_, ?_, ?_, ?_, ?_, ?_, ?_, ?_, ?_, ?_, ?_⟩
  · intro key member
    apply mid.known key
    rwa [← setLevels_keys (index.rowKeys j) (j + 2) index.entries]
  · intro key
    rw [marks, mid.marks]
  · intro i key more
    rw [linkedAt_raised_other (by omega) (by omega), mid.above i key (by omega)]
  · intro key oldAt
    exact (linkedAt_raised_above bound).mpr
      (.inr ((mid.above (j + 1) key (Nat.lt_succ_self j)).mpr oldAt))
  · intro i key linkedAt unmarked
    rw [marks] at unmarked
    exact mid.next_whole bound linkedAt unmarked
  · intro i key linkedAt new k order
    exact mid.next_fresh bound linkedAt new order
  · intro i k low high order lowAt highAt
    exact mid.next_tall bound order lowAt highAt
  · intro base low high inside order isLow isHigh either
    rw [marks] at either
    rcases Nat.lt_or_eq_of_le inside with below | rfl
    · exact mid.next_cells linkedOld apart bound (by omega) order isLow isHigh either
    · rw [lowest]
      exact mid.next_tall bound order isLow.1 isHigh.1
  · intro base i low high inside below order wholeLow wholeHigh
    rcases Nat.lt_or_eq_of_le below with earlier | rfl
    · apply mid.apart base i low high inside (by omega) order
      · exact fun k first last => linkedAt_left bound (by omega) (wholeLow k first last)
      · exact fun k first last => linkedAt_left bound (by omega) (wholeHigh k first last)
    · rcases Nat.lt_or_eq_of_le inside with lower | rfl
      · exact mid.next_apart linkedOld apart bound (by omega) order wholeLow wholeHigh
      · rw [lowest]
        exact mid.next_tall bound order (wholeLow.here inside) (wholeHigh.here inside)
  · intro i key below linkedAt isMarked other otherAt
    rw [marks] at isMarked
    have otherBefore := linkedAt_left bound (by omega) otherAt
    by_cases here : i = j
    · subst here
      exact dropMarked_last _ (mid.linked.ascending_row i)
        ((linkedAt_raised_row (by omega)).mp linkedAt) isMarked other otherBefore
    · exact mid.last i key (by omega) (linkedAt_left bound (by omega) linkedAt) isMarked other
        otherBefore
  · rw [raiseIlevel_length]
    exact mid.height
  · intro some
    exact mid.next_grows linkedOld apart bound (by simpa using some)

end Step

end Index

end Hosk
