import Mathlib.Data.Nat.Log
import Hosk.IndexBalance

/-! The rows that an index over unmarked entries grows into: each links every second key below. -/

namespace Hosk

def everySecond : List Nat → List Nat
  | _ :: key :: next :: rest => key :: everySecond (next :: rest)
  | _ => []

def filled (keys : List Nat) : Nat → List Nat
  | 0 => everySecond keys
  | i + 1 => everySecond (filled keys i)

def tower (keys : List Nat) (rows key : Nat) : Nat :=
  (List.range rows).countP fun i => key ∈ filled keys i

section Keys

variable {keys : List Nat}

theorem everySecond_sublist (keys : List Nat) : (everySecond keys).Sublist keys := by
  induction keys using everySecond.induct with
  | case1 first key next rest ih => exact (ih.cons_cons key).cons first
  | case2 keys short =>
      rw [everySecond]
      · exact List.nil_sublist _
      · exact short

theorem everySecond_length (keys : List Nat) :
    (everySecond keys).length = (keys.length - 1) / 2 := by
  induction keys using everySecond.induct with
  | case1 first key next rest ih =>
      rw [everySecond, List.length_cons, ih]
      simp only [List.length_cons]
      omega
  | case2 keys short =>
      rw [everySecond]
      · match keys with
        | [] | [_] | [_, _] => simp
        | first :: key :: next :: rest => exact absurd rfl (short first key next rest)
      · exact short

/-- A filled row is long where the list it comes from is twice as long for each row. -/
theorem filled_length_iff (keys : List Nat) (i : Nat) : ∀ bound, 2 ≤ bound →
    (bound ≤ (filled keys i).length + 1 ↔ 2 ^ (i + 1) * bound ≤ keys.length + 1) := by
  induction i with
  | zero =>
      intro bound atLeast
      rw [filled, everySecond_length, Nat.pow_one]
      omega
  | succ i ih =>
      intro bound atLeast
      have doubled := ih (2 * bound) (by omega)
      rw [Nat.pow_succ, Nat.mul_assoc, ← doubled, filled, everySecond_length]
      omega

theorem filled_nonempty_iff (keys : List Nat) (i : Nat) :
    filled keys i ≠ [] ↔ i + 2 ≤ Nat.log 2 (keys.length + 1) := by
  have lengths := filled_length_iff keys i 2 (Nat.le_refl 2)
  rw [← Nat.pow_succ] at lengths
  rw [← List.length_pos_iff, Nat.le_log_iff_pow_le Nat.one_lt_two (Nat.succ_ne_zero _), ← lengths]
  omega

theorem filled_succ_subset (keys : List Nat) (i : Nat) : filled keys (i + 1) ⊆ filled keys i :=
  (everySecond_sublist _).subset

theorem filled_subset (keys : List Nat) {i j : Nat} (order : i ≤ j) :
    filled keys j ⊆ filled keys i := by
  induction order with
  | refl => exact List.Subset.refl _
  | step _ ih => exact List.Subset.trans (filled_succ_subset keys _) ih

theorem filled_keys (keys : List Nat) (i : Nat) : (filled keys i).Sublist keys := by
  induction i with
  | zero => exact everySecond_sublist keys
  | succ i ih => exact (everySecond_sublist _).trans ih

theorem tower_succ (keys : List Nat) (rows key : Nat) :
    tower keys (rows + 1) key = tower keys rows key + if key ∈ filled keys rows then 1 else 0 := by
  rw [tower, List.range_succ, List.countP_append, ← tower]
  simp

theorem tower_le (keys : List Nat) (rows key : Nat) : tower keys rows key ≤ rows :=
  List.countP_le_length.trans_eq List.length_range

theorem tower_of_mem {i key : Nat} (member : key ∈ filled keys i) : ∀ {rows : Nat}, rows ≤ i + 1 →
    tower keys rows key = rows := by
  intro rows
  induction rows with
  | zero => exact fun _ => rfl
  | succ rows ih =>
      intro bound
      rw [tower_succ, ih (by omega), if_pos (filled_subset keys (by omega) member)]

theorem lt_tower_of_mem {i rows key : Nat} (member : key ∈ filled keys i) (bound : i < rows) :
    i < tower keys rows key := by
  induction bound with
  | refl =>
      rw [tower_of_mem member (Nat.le_refl _)]
      exact Nat.lt_succ_self i
  | step _ ih =>
      rw [tower_succ]
      omega

end Keys

section Raised

variable {level : Nat → Nat} {marked : Nat → Bool} {height : Nat}

theorem raisedI_short {row : List Nat} {prev : Nat} (high : height < prev)
    (short : ∀ first key next rest, row = first :: key :: next :: rest → False)
    (unmarked : ∀ key ∈ row, marked key = false) : raisedI level marked height prev row = [] := by
  rcases row with _ | ⟨first, _ | ⟨key, _ | ⟨next, rest⟩⟩⟩
  · rfl
  · rfl
  · have unmarkedFirst := unmarked first List.mem_cons_self
    rw [raisedI, if_neg (by rw [unmarkedFirst]; exact Bool.false_ne_true), if_neg (by omega)]
    rfl
  · exact absurd rfl (short first key next rest)

theorem raisedI_everySecond (row : List Nat) : ∀ {prev : Nat}, height < prev →
    (∀ key ∈ row, level key ≤ height) → (∀ key ∈ row, marked key = false) →
    raisedI level marked height prev row = everySecond row := by
  induction row using everySecond.induct with
  | case1 first key next rest ih =>
      intro prev high low unmarked
      simp only [List.mem_cons, forall_eq_or_imp] at low unmarked
      obtain ⟨lowFirst, lowKey, lowNext, lowRest⟩ := low
      obtain ⟨unmarkedFirst, unmarkedKey, unmarkedNext, unmarkedRest⟩ := unmarked
      rw [raisedI, if_neg (by rw [unmarkedFirst]; exact Bool.false_ne_true), if_neg (by omega),
        raisedI, if_neg (by rw [unmarkedKey]; exact Bool.false_ne_true),
        if_pos ⟨lowFirst, lowKey, lowNext⟩, everySecond]
      refine congrArg _ (ih (Nat.lt_succ_self height) ?_ ?_)
      · simpa [lowNext] using lowRest
      · simpa [unmarkedNext] using unmarkedRest
  | case2 row short =>
      intro prev high low unmarked
      rw [raisedI_short high short unmarked, everySecond]
      exact short

theorem raisedI_none (row : List Nat) : ∀ {prev : Nat}, height < prev →
    (∀ key ∈ everySecond row, height < level key) → (∀ key ∈ row, marked key = false) →
    raisedI level marked height prev row = [] := by
  induction row using everySecond.induct with
  | case1 first key next rest ih =>
      intro prev high tall unmarked
      rw [everySecond] at tall
      simp only [List.mem_cons, forall_eq_or_imp] at tall unmarked
      obtain ⟨tallKey, tallRest⟩ := tall
      obtain ⟨unmarkedFirst, unmarkedKey, unmarkedNext, unmarkedRest⟩ := unmarked
      rw [raisedI, if_neg (by rw [unmarkedFirst]; exact Bool.false_ne_true), if_neg (by omega),
        raisedI, if_neg (by rw [unmarkedKey]; exact Bool.false_ne_true), if_neg (by omega)]
      exact ih tallKey tallRest (by simpa [unmarkedNext] using unmarkedRest)
  | case2 row short =>
      intro prev high _ unmarked
      exact raisedI_short high short unmarked

theorem raisedM_eq (entries : List Entry) : ∀ {prev : Nat},
    (∀ entry ∈ entries, level entry.key = entry.level) →
    raisedM prev entries = raisedI level (fun _ => false) 0 prev (entries.map Entry.key) := by
  induction entries with
  | nil => exact fun _ => rfl
  | cons node rest ih =>
      intro prev levels
      cases rest with
      | nil => rfl
      | cons next rest =>
          have here := levels node List.mem_cons_self
          have behind := levels next (List.mem_cons_of_mem _ List.mem_cons_self)
          have later := fun prev => @ih prev fun entry member =>
            levels entry (List.mem_cons_of_mem _ member)
          simp only [List.map_cons] at later
          rw [raisedM, List.map_cons, List.map_cons, raisedI, here, behind, later, later]
          simp only [Bool.false_eq_true, if_false, Nat.le_zero]

theorem dropMarked_unmarked (row : List Nat) (unmarked : ∀ key ∈ row, marked key = false) :
    dropMarked marked false row = row := by
  induction row with
  | nil => rfl
  | cons index rest ih =>
      have here := unmarked index List.mem_cons_self
      cases rest with
      | nil => rfl
      | cons inext rest =>
          rw [dropMarked, if_neg (by rw [here]; exact Bool.false_ne_true),
            ih fun key member => unmarked key (List.mem_cons_of_mem _ member)]

end Raised

theorem insertKeys_behind (keys : List Nat) : ∀ row : List Nat,
    (row ++ keys).Pairwise (· < ·) → insertKeys row keys = row ++ keys := by
  induction keys with
  | nil => exact fun row _ => (List.append_nil row).symm
  | cons key rest ih =>
      intro row sorted
      have last : row.orderedInsert (· ≤ ·) key = row ++ [key] := by
        have before := (List.pairwise_append.mp sorted).2.2
        clear ih sorted
        induction row with
        | nil => rfl
        | cons head row ih =>
            have less := before head List.mem_cons_self key List.mem_cons_self
            rw [List.orderedInsert, if_neg (by omega), ih fun other member =>
              before other (List.mem_cons_of_mem _ member)]
            rfl
      rw [insertKeys, List.foldl_cons, ← insertKeys, last, ih _ (by simpa using sorted)]
      simp

end Hosk
