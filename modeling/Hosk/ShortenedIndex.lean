import Hosk.SpreadIndex

/-! Passes over an index without marks that was lowered: it grows at its top, and what was dropped does
not come back. -/

namespace Hosk

namespace Index

theorem levelOf_lower (index : Index) (key : Nat) : levelOf index.lower.entries key =
    levelOf index.entries key - if key ∈ index.rows.getD 1 [] then 1 else 0 := by
  have sameKey : ((fun entry : Entry => decide (entry.key = key)) ∘ fun entry =>
      if entry.key ∈ index.rows.getD 1 [] then { entry with level := entry.level - 1 } else entry) =
      fun entry => decide (entry.key = key) := by
    funext entry
    rw [Function.comp_apply]
    split <;> rfl
  rw [levelOf, levelOf, entryOf, entryOf, Index.lower, List.find?_map, sameKey]
  cases found : index.entries.find? fun entry => decide (entry.key = key) with
  | none => exact (Nat.zero_sub _).symm
  | some entry =>
      have isKey : entry.key = key := entryOf_key found
      rw [Option.map_some, Option.elim_some, Option.elim_some, isKey]
      split <;> rfl

/-- Of the rows over these keys so many of the lowest are lost, and so many of those above are there,
filled, with an empty one on top. -/
structure Shortened (keys : List Nat) (lost rows : Nat) (index : Index) : Prop where
  sorted : keys.Pairwise (· < ·)
  listed : index.entries.map Entry.key = keys
  unmarked : ∀ entry ∈ index.entries, entry.marked = false
  isFilled : index.rows = (List.range rows).map (fun i => filled keys (lost + i)) ++ [[]]
  ground : ∀ key ∈ filled keys 0, 1 ≤ levelOf index.entries key
  high : ∀ i < rows, ∀ key ∈ filled keys (lost + i), i + 1 ≤ levelOf index.entries key
  low : 0 < rows → ∀ key ∈ filled keys lost, levelOf index.entries key ≤ rows

variable {keys : List Nat} {lost rows : Nat} {index : Index}

theorem Stacked.shortened {base : List Entry} (stacked : Stacked base (rows + 1) index)
    (sorted : base.Pairwise fun x y => x.key < y.key)
    (unmarked : ∀ entry ∈ base, entry.marked = false) :
    Shortened (base.map Entry.key) 0 (rows + 1) index := by
  have levels : ∀ i, ∀ key ∈ filled (base.map Entry.key) i,
      levelOf index.entries key = tower (base.map Entry.key) (rows + 1) key := by
    intro i key member
    rw [stacked.entries]
    exact levelOf_levelled (rows + 1) ((filled_keys _ i).subset member)
  refine ⟨List.pairwise_map.mpr sorted, ?_, ?_, ?_, ?_, ?_, ?_⟩
  · rw [stacked.entries, levelled_keys]
  · rw [stacked.entries]
    exact levelled_unmarked unmarked (rows + 1)
  · simpa only [Nat.zero_add] using stacked.rows
  · intro key member
    rw [levels 0 key member]
    exact lt_tower_of_mem member (Nat.succ_pos rows)
  · intro i bound key member
    rw [Nat.zero_add] at member
    rw [levels i key member]
    exact lt_tower_of_mem member bound
  · intro _ key member
    rw [levels 0 key member]
    exact tower_le _ _ _

namespace Shortened

theorem rows_length (shortened : Shortened keys lost rows index) : index.rows.length = rows + 1 := by
  rw [shortened.isFilled]
  simp

theorem row (shortened : Shortened keys lost rows index) {i : Nat} (bound : i < rows) :
    index.rows.getD i [] = filled keys (lost + i) := by
  rw [shortened.isFilled, List.getD_eq_getElem?_getD, List.getElem?_append_left (by simpa using bound)]
  simp [bound]

theorem topRow (shortened : Shortened keys lost rows index) : index.rows.getD rows [] = [] := by
  rw [shortened.isFilled, List.getD_eq_getElem?_getD, List.getElem?_append_right (by simp)]
  simp

theorem known (shortened : Shortened keys lost rows index) {i key : Nat} (member : key ∈ filled keys i) :
    ∃ entry ∈ index.entries, entry.key = key := by
  have listed := (filled_keys keys i).subset member
  rw [← shortened.listed] at listed
  exact List.mem_map.mp listed

theorem trav (shortened : Shortened keys lost rows index) (int : Int → Int) :
    Shortened keys lost rows (index.trav int) := by
  have entries : (index.trav int).entries = index.entries := by
    apply List.filter_eq_self.mpr
    intro entry member
    simp [Entry.stays, shortened.unmarked entry member]
  have sameRows := trav_rows int index
  obtain ⟨sorted, listed, unmarked, isRows, ground, high, low⟩ := shortened
  rw [← entries] at listed unmarked ground high low
  exact ⟨sorted, listed, unmarked, sameRows.trans isRows, ground, high, low⟩

theorem raisedM (shortened : Shortened keys lost rows index) :
    raisedM index.rows.length index.entries = [] := by
  have sorted := shortened.sorted
  rw [← shortened.listed, List.pairwise_map] at sorted
  rw [raisedM_eq index.entries fun _ => levelOf_mem sorted, shortened.listed, shortened.rows_length]
  exact raisedI_none _ (Nat.succ_pos rows) shortened.ground fun _ _ => rfl

theorem raiseIlevel (shortened : Shortened keys lost rows index) {i : Nat} (bound : i < rows) :
    index.raiseIlevel i = if i + 1 = rows then
      (index.raise rows (filled keys (lost + rows)), filled keys (lost + rows)) else (index, []) := by
  have noMark := markedOf_unmarked shortened.unmarked
  have stays : index.unlinkMarked i = index :=
    unlinkMarked_unmarked shortened.unmarked (by rw [shortened.rows_length]; omega)
  rw [Index.raiseIlevel, shortened.row bound, shortened.rows_length, stays]
  split
  · rename_i last
    have raised : raisedI (levelOf index.entries) (markedOf index.entries) (i + 1) (rows + 1)
        (filled keys (lost + i)) = filled keys (lost + rows) := by
      rw [← last]
      refine raisedI_everySecond _ (Nat.lt_succ_self _) ?_ fun key _ => noMark key
      intro key member
      rw [last]
      exact shortened.low (by omega) key (filled_subset keys (Nat.le_add_right lost i) member)
    rw [raised, last]
  · have none : raisedI (levelOf index.entries) (markedOf index.entries) (i + 1) (rows + 1)
        (filled keys (lost + i)) = [] := by
      refine raisedI_none _ (by omega) ?_ fun key _ => noMark key
      exact fun key member => shortened.high (i + 1) (by omega) key member
    rw [none, raise_nil]

theorem raiseRows (shortened : Shortened keys lost rows index) (count : Nat) : ∀ i raised,
    i + (count + 1) = rows → Index.raiseRows (count + 1) i index raised =
      (index.raise rows (filled keys (lost + rows)), !(filled keys (lost + rows)).isEmpty) := by
  induction count with
  | zero =>
      intro i raised bound
      rw [Index.raiseRows, shortened.raiseIlevel (by omega), if_pos bound]
      rfl
  | succ count ih =>
      intro i raised bound
      rw [Index.raiseRows, shortened.raiseIlevel (by omega), if_neg (by omega)]
      exact ih (i + 1) false (by omega)

theorem grown (shortened : Shortened keys lost rows index) (some : 0 < rows) :
    Shortened keys lost (rows + 1) (index.raise rows (filled keys (lost + rows))).grow := by
  have ascending : (filled keys (lost + rows)).Pairwise (· < ·) :=
    shortened.sorted.sublist (filled_keys _ _)
  have raised : ∀ key ∈ filled keys (lost + rows),
      levelOf (setLevels (filled keys (lost + rows)) (rows + 1) index.entries) key = rows + 1 :=
    fun key member => levelOf_setLevels_raised _ (shortened.known member) member
  have others : ∀ key, key ∉ filled keys (lost + rows) →
      levelOf (setLevels (filled keys (lost + rows)) (rows + 1) index.entries) key =
        levelOf index.entries key :=
    fun key absent => levelOf_setLevels_other _ _ absent
  refine ⟨shortened.sorted, (setLevels_keys _ _ _).trans shortened.listed, ?_, ?_, ?_, ?_, ?_⟩
  · exact unmarked_relevelled (raise_relevelled index rows _) shortened.unmarked
  · have changed := modify_last ((List.range rows).map fun i => filled keys (lost + i)) []
      fun row => insertKeys row (filled keys (lost + rows))
    rw [List.length_map, List.length_range] at changed
    rw [Index.grow, Index.raise, shortened.isFilled, changed, insertKeys_behind _ [] (by simpa using ascending),
      List.nil_append, List.range_succ, List.map_append, List.map_singleton]
  · intro key member
    by_cases inRow : key ∈ filled keys (lost + rows)
    · exact (raised key inRow).symm ▸ Nat.succ_pos rows
    · exact (others key inRow).symm ▸ shortened.ground key member
  · intro i bound key member
    by_cases inRow : key ∈ filled keys (lost + rows)
    · exact (raised key inRow).symm ▸ bound
    · have below : i ≠ rows := fun same => inRow (same ▸ member)
      exact (others key inRow).symm ▸ shortened.high i (by omega) key member
  · intro _ key member
    by_cases inRow : key ∈ filled keys (lost + rows)
    · exact Nat.le_of_eq (raised key inRow)
    · exact (others key inRow).symm ▸ Nat.le_succ_of_le (shortened.low some key member)

theorem lower (shortened : Shortened keys lost (rows + 1) index) : Shortened keys (lost + 1) rows index.lower := by
  have second : index.rows.getD 1 [] = if rows = 0 then [] else filled keys (lost + 1) := by
    split
    · rename_i only
      subst only
      exact shortened.topRow
    · exact shortened.row (by omega)
  have falls := fun key => levelOf_lower index key
  rw [second] at falls
  refine ⟨shortened.sorted, ?_, ?_, ?_, ?_, ?_, ?_⟩
  · rw [← shortened.listed, Index.lower, List.map_map]
    apply List.map_congr_left
    intro entry _
    rw [Function.comp_apply]
    split <;> rfl
  · intro entry member
    obtain ⟨old, inEntries, rfl⟩ := List.mem_map.mp member
    have unmarked := shortened.unmarked old inEntries
    split <;> exact unmarked
  · rw [Index.lower, shortened.isFilled, List.range_succ_eq_map, List.map_cons, List.map_map]
    simp only [List.cons_append, List.tail_cons]
    congr 2
    funext i
    rw [Function.comp_apply, Nat.succ_eq_add_one, Nat.add_assoc, Nat.add_comm 1 i]
  · intro key member
    have before := shortened.ground key member
    rw [falls]
    by_cases only : rows = 0
    · rw [if_pos only, if_neg List.not_mem_nil]
      exact before
    · rw [if_neg only]
      split
      · rename_i inSecond
        have tall := shortened.high 1 (by omega) key inSecond
        omega
      · exact before
  · intro i bound key member
    have inSecond : key ∈ filled keys (lost + 1) :=
      filled_subset keys (Nat.le_add_right (lost + 1) i) member
    have tall := shortened.high (i + 1) (by omega) key (by
      rw [show lost + (i + 1) = lost + 1 + i by omega]
      exact member)
    rw [falls, if_neg (by omega : rows ≠ 0), if_pos inSecond]
    omega
  · intro some key member
    have short := shortened.low (by omega) key (filled_succ_subset keys lost member)
    rw [falls, if_neg (by omega : rows ≠ 0), if_pos member]
    omega

/-- The loop over the rows fills the empty one, if that is a row with keys, and puts another over it. -/
theorem climb (shortened : Shortened keys lost rows index) (some : 0 < rows)
    (bound : lost + rows < Nat.log 2 (keys.length + 1)) (raised : Bool) {after : Index × Bool}
    (looped : Index.raiseRows (index.rows.length - 1) 0 index raised = after) :
    Shortened keys lost (min (rows + 1) (Nat.log 2 (keys.length + 1) - 1 - lost))
      (if after.2 then after.1.grow else after.1) := by
  obtain ⟨count, rfl⟩ : ∃ count, rows = count + 1 := ⟨rows - 1, by omega⟩
  rw [shortened.rows_length, Nat.add_sub_cancel, shortened.raiseRows count 0 raised (by omega)] at looped
  subst looped
  have grows := filled_nonempty_iff keys (lost + (count + 1))
  dsimp only
  by_cases empty : filled keys (lost + (count + 1)) = []
  · have low : ¬ lost + (count + 1) + 2 ≤ Nat.log 2 (keys.length + 1) := fun high => grows.mpr high empty
    rw [empty, raise_nil, if_neg (by simp), Nat.min_eq_right (by omega),
      show Nat.log 2 (keys.length + 1) - 1 - lost = count + 1 by omega]
    exact shortened
  · have high := grows.mp empty
    rw [if_pos (by simpa using empty), Nat.min_eq_left (by omega)]
    exact shortened.grown some

theorem pass (shortened : Shortened keys lost rows index) (some : 0 < rows)
    (bound : lost + rows < Nat.log 2 (keys.length + 1)) (int : Int → Int) :
    Shortened keys lost (min (rows + 1) (Nat.log 2 (keys.length + 1) - 1 - lost))
      (index.raiseIndexLayer int) := by
  have travelled := shortened.trav int
  have stays : (if (!([] : List Nat).isEmpty) = true ∧ (index.trav int).rows.length = 1 then
      (index.trav int).grow else index.trav int) = index.trav int := if_neg (by simp)
  dsimp only [Index.raiseIndexLayer]
  rw [travelled.raisedM, raise_nil, stays]
  exact travelled.climb some bound _ rfl

/-- An index that has lost all its rows stays as it is. -/
theorem stuck (shortened : Shortened keys lost 0 index) (int : Int → Int) :
    Shortened keys lost 0 (index.raiseIndexLayer int) := by
  have travelled := shortened.trav int
  have stays : (if (!([] : List Nat).isEmpty) = true ∧ (index.trav int).rows.length = 1 then
      (index.trav int).grow else index.trav int) = index.trav int := if_neg (by simp)
  dsimp only [Index.raiseIndexLayer]
  rw [travelled.raisedM, raise_nil, stays, travelled.rows_length]
  exact travelled

end Shortened

theorem Stacked.first {base : List Entry} (stacked : Stacked base 0 index)
    (sorted : base.Pairwise fun x y => x.key < y.key)
    (unmarked : ∀ entry ∈ base, entry.marked = false) (int : Int → Int) :
    Shortened (base.map Entry.key) 0 (min 2 (Nat.log 2 ((base.map Entry.key).length + 1) - 1))
      (index.raiseIndexLayer int) := by
  have travelled := stacked.trav unmarked int
  have topped := travelled.raise sorted
  have grows := filled_nonempty_iff (base.map Entry.key) 0
  dsimp only [Index.raiseIndexLayer]
  rw [travelled.raisedM, if_pos rfl]
  generalize index.trav int = index at topped
  by_cases empty : filled (base.map Entry.key) 0 = []
  · have low : ¬ 0 + 2 ≤ Nat.log 2 ((base.map Entry.key).length + 1) := fun high => grows.mpr high empty
    have settled := topped.settle empty
    rw [empty] at settled ⊢
    have stays : (if (!([] : List Nat).isEmpty) = true ∧ (index.raise 0 []).rows.length = 1 then
        (index.raise 0 []).grow else index.raise 0 []) = index.raise 0 [] := if_neg (by simp)
    rw [stays, settled.rows_length, Nat.min_eq_right (by omega),
      show Nat.log 2 ((base.map Entry.key).length + 1) - 1 = 0 by omega]
    refine ⟨List.pairwise_map.mpr sorted, ?_, ?_, settled.rows, ?_, ?_, ?_⟩
    · exact (congrArg (List.map Entry.key) settled.entries).trans (levelled_keys base 0)
    · exact fun entry member => levelled_unmarked unmarked 0 entry (settled.entries ▸ member)
    · exact fun key member => absurd (empty ▸ member) List.not_mem_nil
    · exact fun i wrong => absurd wrong (Nat.not_lt_zero i)
    · exact fun wrong => absurd wrong (Nat.lt_irrefl 0)
  · have high := grows.mp empty
    generalize filled (base.map Entry.key) 0 = keys at topped empty
    have grown : (if (!keys.isEmpty) = true ∧ (index.raise 0 keys).rows.length = 1 then
        (index.raise 0 keys).grow else index.raise 0 keys) = (index.raise 0 keys).grow := by
      rw [topped.rows]
      exact if_pos ⟨by simpa using empty, rfl⟩
    rw [grown]
    exact (topped.grow.shortened sorted unmarked).climb (Nat.succ_pos 0) (by omega) (!keys.isEmpty) rfl

end Index

end Hosk
