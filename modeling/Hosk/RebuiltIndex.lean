import Hosk.CounterLimit
import Hosk.EverySecond

/-! Passes over an index that is built up again from an intermediate layer without marks. -/

namespace Hosk

def levelled (base : List Entry) (rows : Nat) : List Entry :=
  base.map fun entry => { entry with level := tower (base.map Entry.key) rows entry.key }

section Levels

variable {base : List Entry}

theorem levelled_keys (base : List Entry) (rows : Nat) :
    (levelled base rows).map Entry.key = base.map Entry.key := by
  rw [levelled, List.map_map]
  rfl

theorem levelled_unmarked (unmarked : ∀ entry ∈ base, entry.marked = false) (rows : Nat) :
    ∀ entry ∈ levelled base rows, entry.marked = false := by
  intro entry member
  obtain ⟨old, inBase, rfl⟩ := List.mem_map.mp member
  exact unmarked old inBase

theorem levelOf_levelled (rows : Nat) {key : Nat} (member : key ∈ base.map Entry.key) :
    levelOf (levelled base rows) key = tower (base.map Entry.key) rows key := by
  rw [levelOf, entryOf, levelled, List.find?_map]
  cases found : base.find? ((fun entry : Entry => decide (entry.key = key)) ∘ fun entry =>
      { entry with level := tower (base.map Entry.key) rows entry.key }) with
  | none =>
      obtain ⟨entry, inBase, sameKey⟩ := List.mem_map.mp member
      have other := List.find?_eq_none.mp found entry inBase
      exact absurd (decide_eq_true sameKey) other
  | some entry =>
      have sameKey : entry.key = key := by simpa using List.find?_some found
      rw [Option.map_some, Option.elim_some, sameKey]

theorem markedOf_unmarked {entries : List Entry} (unmarked : ∀ entry ∈ entries, entry.marked = false)
    (key : Nat) : markedOf entries key = false := by
  rw [markedOf]
  cases found : entryOf entries key with
  | none => rfl
  | some entry => exact unmarked entry (List.mem_of_find?_eq_some found)

theorem setLevels_levelled (base : List Entry) (rows : Nat) :
    setLevels (filled (base.map Entry.key) rows) (rows + 1) (levelled base rows) =
      levelled base (rows + 1) := by
  rw [setLevels, levelled, levelled, List.map_map]
  apply List.map_congr_left
  intro entry _
  rw [Function.comp_apply, tower_succ]
  by_cases raised : entry.key ∈ filled (base.map Entry.key) rows
  · rw [if_pos raised, if_pos raised, tower_of_mem raised (Nat.le_succ rows)]
  · rw [if_neg raised, if_neg raised]
    rfl

end Levels

def fullRows (base : List Entry) : Nat := max 1 (Nat.log 2 (base.length + 1))

theorem fullRows_positive (base : List Entry) : 0 < fullRows base := Nat.le_max_left _ _

theorem filled_iff_full (base : List Entry) (i : Nat) :
    filled (base.map Entry.key) i ≠ [] ↔ i + 2 ≤ fullRows base := by
  rw [filled_nonempty_iff, List.length_map, fullRows]
  omega

theorem modify_last {α : Type} (first : List α) (last : α) (change : α → α) :
    (first ++ [last]).modify first.length change = first ++ [change last] := by
  induction first with
  | nil => rfl
  | cons head first ih =>
      rw [List.cons_append, List.length_cons, List.modify_succ_cons, ih]
      rfl

namespace Index

/-- So many rows are filled, and the next one is there and empty. -/
structure Stacked (base : List Entry) (rows : Nat) (index : Index) : Prop where
  entries : index.entries = levelled base rows
  rows : index.rows = (List.range rows).map (filled (base.map Entry.key)) ++ [[]]

structure Topped (base : List Entry) (rows : Nat) (index : Index) : Prop where
  entries : index.entries = levelled base (rows + 1)
  rows : index.rows = (List.range (rows + 1)).map (filled (base.map Entry.key))

variable {base : List Entry} {rows : Nat} {index : Index}

theorem Topped.grow (topped : Topped base rows index) : Stacked base (rows + 1) index.grow := by
  refine ⟨topped.entries, ?_⟩
  rw [Index.grow, topped.rows]

theorem Topped.settle (topped : Topped base rows index)
    (none : filled (base.map Entry.key) rows = []) : Stacked base rows index := by
  refine ⟨?_, ?_⟩
  · rw [topped.entries, levelled, levelled]
    apply List.map_congr_left
    intro entry _
    rw [tower_succ, none, if_neg List.not_mem_nil]
    rfl
  · rw [topped.rows, List.range_succ, List.map_append, List.map_singleton, none]

theorem Stacked.rows_length (stacked : Stacked base rows index) : index.rows.length = rows + 1 := by
  rw [stacked.rows]
  simp

theorem Stacked.row (stacked : Stacked base rows index) {i : Nat} (bound : i < rows) :
    index.rows.getD i [] = filled (base.map Entry.key) i := by
  rw [stacked.rows, List.getD_eq_getElem?_getD, List.getElem?_append_left (by simpa using bound)]
  simp [bound]

theorem unlinkMarked_unmarked (unmarked : ∀ entry ∈ index.entries, entry.marked = false) {i : Nat}
    (bound : i < index.rows.length) : index.unlinkMarked i = index := by
  rw [Index.unlinkMarked, dropMarked_unmarked _ fun key _ => markedOf_unmarked unmarked key,
    Nat.sub_self]
  have same : index.rows.set i (index.rows.getD i []) = index.rows := by
    have located := List.getElem?_eq_getElem bound
    rw [getD_row located]
    exact List.set_getElem_self _
  rw [same]
  rfl

theorem Stacked.unlinkMarked (stacked : Stacked base rows index)
    (unmarked : ∀ entry ∈ base, entry.marked = false) {i : Nat} (bound : i < rows) :
    index.unlinkMarked i = index := by
  have noMark := levelled_unmarked unmarked rows
  rw [← stacked.entries] at noMark
  exact unlinkMarked_unmarked noMark (by rw [stacked.rows_length]; omega)

theorem Stacked.raise (stacked : Stacked base rows index)
    (sorted : base.Pairwise fun x y => x.key < y.key) :
    Topped base rows (index.raise rows (filled (base.map Entry.key) rows)) := by
  have ascending : (filled (base.map Entry.key) rows).Pairwise (· < ·) :=
    (List.pairwise_map.mpr sorted).sublist (filled_keys _ _)
  refine ⟨?_, ?_⟩
  · rw [Index.raise, stacked.entries, setLevels_levelled]
  · have changed := modify_last ((List.range rows).map (filled (base.map Entry.key))) []
      fun row => insertKeys row (filled (base.map Entry.key) rows)
    rw [List.length_map, List.length_range] at changed
    rw [Index.raise, stacked.rows, changed, insertKeys_behind _ [] (by simpa using ascending),
      List.nil_append, List.range_succ, List.map_append, List.map_singleton]

theorem Stacked.raiseIlevel (stacked : Stacked base rows index)
    (sorted : base.Pairwise fun x y => x.key < y.key)
    (unmarked : ∀ entry ∈ base, entry.marked = false) {i : Nat} (bound : i < rows) :
    i + 1 < rows ∧ index.raiseIlevel i = (index, []) ∨
      i + 1 = rows ∧ Topped base rows (index.raiseIlevel i).1 ∧
        (index.raiseIlevel i).2 = filled (base.map Entry.key) rows := by
  have noMark := markedOf_unmarked (levelled_unmarked unmarked rows)
  rw [← stacked.entries] at noMark
  have levels : ∀ key ∈ filled (base.map Entry.key) i,
      levelOf index.entries key = tower (base.map Entry.key) rows key := by
    intro key member
    rw [stacked.entries]
    exact levelOf_levelled rows ((filled_keys _ i).subset member)
  rw [Index.raiseIlevel, stacked.row bound, stacked.rows_length, stacked.unlinkMarked unmarked bound]
  by_cases last : i + 1 = rows
  · right
    have raised : raisedI (levelOf index.entries) (markedOf index.entries) (i + 1) (rows + 1)
        (filled (base.map Entry.key) i) = filled (base.map Entry.key) rows := by
      rw [← last]
      refine raisedI_everySecond _ (Nat.lt_succ_self _) ?_ fun key _ => noMark key
      intro key member
      rw [levels key member, last]
      exact tower_le _ _ _
    rw [raised, last]
    exact ⟨rfl, stacked.raise sorted, rfl⟩
  · left
    have none : raisedI (levelOf index.entries) (markedOf index.entries) (i + 1) (rows + 1)
        (filled (base.map Entry.key) i) = [] := by
      refine raisedI_none _ (by omega) ?_ fun key _ => noMark key
      intro key member
      rw [levels key ((everySecond_sublist _).subset member)]
      exact lt_tower_of_mem (i := i + 1) member (by omega)
    rw [none, raise_nil]
    exact ⟨by omega, rfl⟩

theorem Stacked.raiseRows (sorted : base.Pairwise fun x y => x.key < y.key)
    (unmarked : ∀ entry ∈ base, entry.marked = false) (stacked : Stacked base rows index)
    (count : Nat) : ∀ i raised, i + (count + 1) = rows →
      Topped base rows (Index.raiseRows (count + 1) i index raised).1 ∧
        (Index.raiseRows (count + 1) i index raised).2 =
          !(filled (base.map Entry.key) rows).isEmpty := by
  induction count with
  | zero =>
      intro i raised bound
      rcases stacked.raiseIlevel sorted unmarked (show i < rows by omega) with
        ⟨more, _⟩ | ⟨_, topped, keys⟩
      · omega
      · refine ⟨topped, ?_⟩
        rw [← keys]
        rfl
  | succ count ih =>
      intro i raised bound
      rcases stacked.raiseIlevel sorted unmarked (show i < rows by omega) with
        ⟨_, same⟩ | ⟨last, _⟩
      · have later := ih (i + 1) false (by omega)
        rw [Index.raiseRows, same]
        exact later
      · omega

theorem Stacked.trav (stacked : Stacked base rows index)
    (unmarked : ∀ entry ∈ base, entry.marked = false) (int : Int → Int) :
    Stacked base rows (index.trav int) := by
  refine ⟨?_, (trav_rows int index).trans stacked.rows⟩
  show index.entries.filter Entry.stays = levelled base rows
  rw [stacked.entries]
  apply List.filter_eq_self.mpr
  intro entry member
  simp [Entry.stays, levelled_unmarked unmarked rows entry member]

theorem Stacked.raisedM (stacked : Stacked base rows index) :
    raisedM index.rows.length index.entries =
      if rows = 0 then filled (base.map Entry.key) 0 else [] := by
  have levels : ∀ entry ∈ index.entries,
      tower (base.map Entry.key) rows entry.key = entry.level := by
    intro entry member
    rw [stacked.entries] at member
    obtain ⟨old, _, rfl⟩ := List.mem_map.mp member
    rfl
  have keys : index.entries.map Entry.key = base.map Entry.key := by
    rw [stacked.entries, levelled_keys]
  rw [raisedM_eq _ levels, keys, stacked.rows_length]
  split
  · rename_i empty
    subst empty
    exact raisedI_everySecond _ (Nat.lt_succ_self 0) (fun key _ => tower_le _ _ _) fun _ _ => rfl
  · refine raisedI_none _ (Nat.succ_pos rows) ?_ fun _ _ => rfl
    intro key member
    exact lt_tower_of_mem (i := 0) member (by omega)

theorem Stacked.climb (stacked : Stacked base (rows + 1) index)
    (sorted : base.Pairwise fun x y => x.key < y.key)
    (unmarked : ∀ entry ∈ base, entry.marked = false) (raised : Bool)
    (bound : rows + 1 < fullRows base) {after : Index × Bool}
    (looped : Index.raiseRows (index.rows.length - 1) 0 index raised = after) :
    ∃ rows', rows + 1 ≤ rows' ∧ rows' < fullRows base ∧
      (rows + 2 < fullRows base → rows + 1 < rows') ∧
      Stacked base rows' (if after.2 then after.1.grow else after.1) := by
  rw [stacked.rows_length] at looped
  obtain ⟨topped, grows⟩ := Stacked.raiseRows sorted unmarked stacked rows 0 raised (by omega)
  rw [show rows + 1 + 1 - 1 = rows + 1 from rfl] at looped
  rw [looped] at topped grows
  rw [grows]
  by_cases empty : filled (base.map Entry.key) (rows + 1) = []
  · have low : ¬ rows + 1 + 2 ≤ fullRows base :=
      fun high => (filled_iff_full base (rows + 1)).mpr high empty
    rw [empty]
    exact ⟨rows + 1, Nat.le_refl _, bound, fun more => absurd more (by omega), topped.settle empty⟩
  · have high := (filled_iff_full base (rows + 1)).mp empty
    rw [if_pos (by simpa using empty)]
    exact ⟨rows + 2, by omega, by omega, by omega, topped.grow⟩

/-- A pass fills rows until there is nothing left to fill one with. -/
theorem Stacked.pass (stacked : Stacked base rows index)
    (sorted : base.Pairwise fun x y => x.key < y.key)
    (unmarked : ∀ entry ∈ base, entry.marked = false) (int : Int → Int)
    (bound : rows < fullRows base) : ∃ rows', rows ≤ rows' ∧
      rows' < fullRows base ∧ (rows + 1 < fullRows base → rows < rows') ∧
      Stacked base rows' (index.raiseIndexLayer int) := by
  have travelled := stacked.trav unmarked int
  dsimp only [Index.raiseIndexLayer]
  rw [travelled.raisedM]
  cases rows with
  | zero =>
      have topped := travelled.raise sorted
      rw [if_pos rfl]
      generalize index.trav int = index at topped
      by_cases empty : filled (base.map Entry.key) 0 = []
      · have low : ¬ 0 + 2 ≤ fullRows base := fun high => (filled_iff_full base 0).mpr high empty
        have settled := topped.settle empty
        rw [empty] at settled ⊢
        have stays : (if (!([] : List Nat).isEmpty) = true ∧ (index.raise 0 []).rows.length = 1 then
            (index.raise 0 []).grow else index.raise 0 []) = index.raise 0 [] := if_neg (by simp)
        rw [stays, settled.rows_length]
        exact ⟨0, Nat.le_refl 0, bound, fun more => absurd more (by omega), settled⟩
      · have high := (filled_iff_full base 0).mp empty
        generalize filled (base.map Entry.key) 0 = keys at topped empty
        have grows : (if (!keys.isEmpty) = true ∧ (index.raise 0 keys).rows.length = 1 then
            (index.raise 0 keys).grow else index.raise 0 keys) = (index.raise 0 keys).grow := by
          rw [topped.rows]
          exact if_pos ⟨by simpa using empty, rfl⟩
        rw [grows]
        obtain ⟨rows', order, less, more, stacked'⟩ :=
          topped.grow.climb sorted unmarked (!keys.isEmpty) (by omega) rfl
        exact ⟨rows', by omega, less, fun _ => by omega, stacked'⟩
  | succ rows =>
      have stays : (if (!([] : List Nat).isEmpty) = true ∧ (index.trav int).rows.length = 1 then
          (index.trav int).grow else index.trav int) = index.trav int := if_neg (by simp)
      rw [if_neg (Nat.succ_ne_zero rows), raise_nil, stays]
      exact travelled.climb sorted unmarked _ bound rfl

end Index

end Hosk
