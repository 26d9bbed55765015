import Hosk.IndexLayer
import Hosk.RowWindows
import Hosk.SpreadIndex

/-! After a pass: where three neighbours may all have stayed low. -/

namespace Hosk

def EvenRow (entries : List Entry) (height : Nat) (row : List Nat) : Prop :=
  ∀ x y z, [x, y, z] <:+: row →
    ¬ (levelOf entries x ≤ height ∧ levelOf entries y ≤ height ∧ levelOf entries z ≤ height)

/-- Of three low neighbours that `bg_raise_ilevel` leaves linked, the middle one has no higher one
behind it in the row as it finds it. -/
def ShelteredRow (entries : List Entry) (height : Nat) (row : List Nat) : Prop :=
  ∀ x y z, [x, y, z] <:+: dropMarked (markedOf entries) false row →
    levelOf entries x ≤ height → levelOf entries y ≤ height → levelOf entries z ≤ height →
    ∀ behind, [y, behind] <:+: row → levelOf entries behind ≤ height

theorem shelteredRow_iff (entries : List Entry) (height : Nat) (row : List Nat) :
    ShelteredRow entries height row ↔ ∀ x ∈ row, ∀ y ∈ row, ∀ z ∈ row,
      [x, y, z] <:+: dropMarked (markedOf entries) false row →
      levelOf entries x ≤ height → levelOf entries y ≤ height → levelOf entries z ≤ height →
      ∀ behind ∈ row, [y, behind] <:+: row → levelOf entries behind ≤ height := by
  constructor
  · intro sheltered x _ y _ z _ inside lowX lowY lowZ behind _ follows
    exact sheltered x y z inside lowX lowY lowZ behind follows
  · intro sheltered x y z inside lowX lowY lowZ behind follows
    have inRow := fun key (member : key ∈ [x, y, z]) =>
      (Index.dropMarked_sublist (markedOf entries) false row).subset (inside.subset member)
    exact sheltered x (inRow x (by simp)) y (inRow y (by simp)) z (inRow z (by simp)) inside lowX lowY
      lowZ behind (follows.subset (by simp)) follows

instance (entries : List Entry) (height : Nat) (row : List Nat) :
    Decidable (ShelteredRow entries height row) :=
  decidable_of_iff _ (shelteredRow_iff entries height row).symm

theorem levelOf_setLevels_le {entries : List Entry} {keys : List Nat} {height : Nat}
    (low : ∀ key ∈ keys, levelOf entries key ≤ height) (key : Nat) :
    levelOf entries key ≤ levelOf (setLevels keys (height + 1) entries) key := by
  by_cases raised : key ∈ keys
  · have below := low key raised
    rw [levelOf, levelOf, entryOf_setLevels]
    cases found : entryOf entries key with
    | none => exact Nat.le_refl _
    | some entry =>
        have same := entryOf_key found
        rw [levelOf, found, Option.elim_some] at below
        simp only [Option.map_some, Option.elim_some, same, raised, if_true]
        omega
  · rw [levelOf_setLevels_other (height + 1) entries raised]

theorem EvenRow.higher {entries entries' : List Entry} {height : Nat} {row : List Nat}
    (even : EvenRow entries height row)
    (higher : ∀ key, levelOf entries key ≤ levelOf entries' key) : EvenRow entries' height row := by
  rintro x y z inside ⟨lowX, lowY, lowZ⟩
  exact even x y z inside
    ⟨(higher x).trans lowX, (higher y).trans lowY, (higher z).trans lowZ⟩

/-- Raising evens a row of which it takes a key from each three low neighbours. -/
theorem raised_even {entries : List Entry} {height : Nat} {keys row : List Nat}
    (known : ∀ key ∈ keys, ∃ entry ∈ entries, entry.key = key)
    (taken : ∀ x y z, [x, y, z] <:+: row → levelOf entries x ≤ height → levelOf entries y ≤ height →
      levelOf entries z ≤ height → x ∈ keys ∨ y ∈ keys) :
    EvenRow (setLevels keys (height + 1) entries) height row := by
  have free : ∀ key, levelOf (setLevels keys (height + 1) entries) key ≤ height → key ∉ keys := by
    intro key low raised
    rw [levelOf_setLevels_raised (height + 1) (known key raised) raised] at low
    omega
  rintro x y z inside ⟨lowX, lowY, lowZ⟩
  have freeX := free x lowX
  have freeY := free y lowY
  rw [levelOf_setLevels_other (height + 1) entries freeX] at lowX
  rw [levelOf_setLevels_other (height + 1) entries freeY] at lowY
  rw [levelOf_setLevels_other (height + 1) entries (free z lowZ)] at lowZ
  exact (taken x y z inside lowX lowY lowZ).elim freeX freeY

theorem raisedM_even {entries : List Entry} (sorted : entries.Pairwise fun x y => x.key < y.key)
    (prev : Nat) :
    EvenRow (setLevels (raisedM prev entries) 1 entries) 0 (entries.map Entry.key) := by
  have nodup := keys_nodup sorted
  refine raised_even ?_ ?_
  · intro key raised
    obtain ⟨entry, member, same, _⟩ := Index.raisedM_ground raised
    exact ⟨entry, member, same⟩
  · intro x y z inside lowX lowY lowZ
    rw [raisedM_eq entries fun _ => levelOf_mem sorted]
    have kept : [x, y, z] <:+: dropMarked (fun _ => false) false (entries.map Entry.key) := by
      rwa [dropMarked_unmarked _ fun _ _ => rfl]
    apply window_raised _ kept lowX lowY
    intro behind next
    have isLast : [y, z] <:+: entries.map Entry.key :=
      (List.suffix_cons x [y, z]).isInfix.trans inside
    rwa [right_neighbour_unique nodup next isLast]

theorem ShelteredRow.raised {entries : List Entry} {height : Nat} {row : List Nat}
    (sheltered : ShelteredRow entries height row) (prev : Nat)
    (known : ∀ key ∈ row, ∃ entry ∈ entries, entry.key = key) :
    EvenRow (setLevels (raisedI (levelOf entries) (markedOf entries) height prev row) (height + 1)
      entries) height (dropMarked (markedOf entries) false row) := by
  apply raised_even
  · intro key raised
    exact known key ((Index.raisedI_sublist _ _ _ _ _).subset raised)
  · intro x y z inside lowX lowY lowZ
    exact window_raised row inside lowX lowY (sheltered x y z inside lowX lowY lowZ)

namespace Index

variable {index : Index}

def comesTo (index : Index) : Nat → Index
  | 0 => index
  | i + 1 => ((index.comesTo i).raiseIlevel i).1

theorem raiseRows_comesTo {count : Nat} (bound : count < index.rows.length) (raised : Bool) :
    (Index.raiseRows count 0 index raised).1 = index.comesTo count := by
  have reached := raiseRows_rule (motive := fun i state _ => state = index.comesTo i) count 0 index
    raised rfl (by omega) (by rintro j state _ _ rfl; rfl)
  rwa [Nat.zero_add] at reached

theorem comesTo_length (index : Index) (i : Nat) :
    (index.comesTo i).rows.length = index.rows.length := by
  induction i with
  | zero => rfl
  | succ i ih => rw [comesTo, raiseIlevel_length, ih]

theorem Linked.comesTo (linked : index.Linked) {i : Nat} (bound : i < index.rows.length) :
    (index.comesTo i).Linked := by
  induction i with
  | zero => exact linked
  | succ i ih => exact (ih (by omega)).raiseIlevel (by rwa [comesTo_length])

theorem raiseIlevel_rows (index : Index) (i : Nat) : (index.raiseIlevel i).1.rows =
    (index.rows.set i (dropMarked (markedOf index.entries) false (index.rows.getD i []))).modify
      (i + 1) fun row => insertKeys row (index.rowKeys i) := rfl

theorem raiseIlevel_row {i : Nat} {row : List Nat} (located : index.rows[i]? = some row) :
    (index.raiseIlevel i).1.rows[i]? = some (dropMarked (markedOf index.entries) false row) := by
  have bound := (List.getElem?_eq_some_iff.mp located).1
  rw [raiseIlevel_rows, List.getElem?_modify_ne _ _ (Nat.succ_ne_self i), getD_row located,
    List.getElem?_set_self bound]

theorem raiseIlevel_row_below {i j : Nat} (below : i < j) :
    (index.raiseIlevel j).1.rows[i]? = index.rows[i]? := by
  rw [raiseIlevel_rows, List.getElem?_modify_ne _ _ (by omega), List.getElem?_set_ne (by omega)]

theorem raiseIlevel_levels (index : Index) (j key : Nat) :
    levelOf index.entries key ≤ levelOf (index.raiseIlevel j).1.entries key :=
  levelOf_setLevels_le (fun _ => raisedI_low) key

theorem comesTo_levels {i j : Nat} (order : i ≤ j) (key : Nat) :
    levelOf (index.comesTo i).entries key ≤ levelOf (index.comesTo j).entries key := by
  induction order with
  | refl => exact Nat.le_refl _
  | step _ ih => exact ih.trans (raiseIlevel_levels _ _ key)

theorem Linked.evened (linked : index.Linked) {i j : Nat} {row : List Nat} (after : i < j)
    (bound : i + 1 < index.rows.length) (located : (index.comesTo i).rows[i]? = some row)
    (sheltered : ShelteredRow (index.comesTo i).entries (i + 1) row) :
    ∃ left, (index.comesTo j).rows[i]? = some left ∧
      EvenRow (index.comesTo j).entries (i + 1) left := by
  induction after with
  | refl =>
      refine ⟨_, raiseIlevel_row located, ?_⟩
      have isRow := getD_row located
      have raised := sheltered.raised (index.comesTo i).rows.length fun key member => by
        obtain ⟨entry, inEntries, same, _⟩ :=
          (linked.comesTo (by omega)).linked i row key located member
        exact ⟨entry, inEntries, same⟩
      rw [← isRow] at raised
      rwa [← isRow]
  | step later ih =>
      obtain ⟨left, isLeft, even⟩ := ih
      refine ⟨left, ?_, even.higher (raiseIlevel_levels _ _)⟩
      exact (raiseIlevel_row_below later).trans isLeft

theorem comesTo_keys (index : Index) (i : Nat) :
    (index.comesTo i).entries.map Entry.key = index.entries.map Entry.key := by
  induction i with
  | zero => rfl
  | succ i ih => exact (setLevels_keys _ _ _).trans ih

theorem bottomRaised_entries (int : Int → Int) (index : Index) : (index.bottomRaised int).entries =
    setLevels (index.bottomKeys int) 1 (index.trav int).entries := by
  rw [bottomRaised]
  split <;> rfl

theorem raiseIndexLayer_comesTo (int : Int → Int) {index : Index} (nonempty : 0 < index.rows.length) :
    ∃ top, (index.raiseIndexLayer int).entries =
        ((index.bottomRaised int).comesTo ((index.bottomRaised int).rows.length - 1)).entries ∧
      (index.raiseIndexLayer int).rows =
        ((index.bottomRaised int).comesTo ((index.bottomRaised int).rows.length - 1)).rows ++ top := by
  have filled := bottomRaised_nonempty int nonempty
  rw [raiseIndexLayer_eq, rowsRaised, raiseRows_comesTo (by omega)]
  split
  · exact ⟨[[]], rfl, rfl⟩
  · exact ⟨[], rfl, (List.append_nil _).symm⟩

theorem Linked.ground_even (linked : index.Linked) (nonempty : 0 < index.rows.length)
    (int : Int → Int) : EvenRow (index.raiseIndexLayer int).entries 0
      ((index.raiseIndexLayer int).entries.map Entry.key) := by
  obtain ⟨_, entries, _⟩ := raiseIndexLayer_comesTo int nonempty
  have raised := raisedM_even (linked.trav int).sorted (index.trav int).rows.length
  rw [← bottomKeys, ← bottomRaised_entries] at raised
  rw [entries, comesTo_keys, bottomRaised_entries, setLevels_keys]
  exact raised.higher (comesTo_levels (Nat.zero_le _))

theorem Linked.row_even (linked : index.Linked) (nonempty : 0 < index.rows.length) {int : Int → Int}
    {i : Nat} {row : List Nat} (bound : i + 1 < (index.bottomRaised int).rows.length)
    (located : ((index.bottomRaised int).comesTo i).rows[i]? = some row)
    (sheltered : ShelteredRow ((index.bottomRaised int).comesTo i).entries (i + 1) row) :
    ∃ left, (index.raiseIndexLayer int).rows[i]? = some left ∧
      EvenRow (index.raiseIndexLayer int).entries (i + 1) left := by
  obtain ⟨top, entries, rows⟩ := raiseIndexLayer_comesTo int nonempty
  have inside : i < (index.bottomRaised int).rows.length - 1 := by omega
  obtain ⟨left, isLeft, even⟩ :=
    (linked.bottomRaised nonempty int).evened inside bound located sheltered
  refine ⟨left, ?_, by rwa [entries]⟩
  rw [rows, List.getElem?_append_left (List.getElem?_eq_some_iff.mp isLeft).1, isLeft]

end Index

end Hosk
