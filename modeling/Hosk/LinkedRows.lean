import Hosk.IndexBalance

/-! Rows in key order that link keys of high enough a level: what every step of a pass keeps. -/

namespace Hosk

theorem insertKeys_sorted {row keys : List Nat} (sorted : row.Pairwise (· < ·))
    (nodup : keys.Nodup) (apart : ∀ key ∈ keys, key ∉ row) :
    (insertKeys row keys).Pairwise (· < ·) := by
  induction keys generalizing row with
  | nil => exact sorted
  | cons key rest ih =>
      obtain ⟨notLater, nodupRest⟩ := List.nodup_cons.mp nodup
      have fresh := apart key List.mem_cons_self
      have perm := List.perm_orderedInsert (· ≤ ·) key row
      have distinct : (row.orderedInsert (· ≤ ·) key).Nodup := by
        rw [perm.nodup_iff, List.nodup_cons]
        exact ⟨fresh, sorted.imp Nat.ne_of_lt⟩
      have ordered : (row.orderedInsert (· ≤ ·) key).Pairwise (· ≤ ·) :=
        List.Pairwise.orderedInsert key row (sorted.imp Nat.le_of_lt)
      refine ih ?_ nodupRest ?_
      · exact (ordered.and distinct).imp fun {x y} facts => Nat.lt_of_le_of_ne facts.1 facts.2
      · intro other member again
        rcases List.mem_cons.mp (perm.mem_iff.mp again) with rfl | inRow
        · exact notLater member
        · exact apart other (List.mem_cons_of_mem _ member) inRow

namespace Index

/-- Row `i` links keys of a level above `i`, in their order. -/
structure Linked (index : Index) : Prop where
  sorted : index.entries.Pairwise fun x y => x.key < y.key
  ascending : ∀ row ∈ index.rows, row.Pairwise (· < ·)
  linked : ∀ (i : Nat) row key, index.rows[i]? = some row → key ∈ row →
    ∃ entry ∈ index.entries, entry.key = key ∧ i + 1 ≤ entry.level

variable {index : Index}

theorem Linked.level (linked : index.Linked) {i key : Nat} {row : List Nat}
    (located : index.rows[i]? = some row) (member : key ∈ row) :
    i < levelOf index.entries key := by
  obtain ⟨entry, inEntries, rfl, level⟩ := linked.linked i row key located member
  rwa [levelOf_mem linked.sorted inEntries]

theorem Linked.nodup (linked : index.Linked) {i : Nat} {row : List Nat}
    (located : index.rows[i]? = some row) : row.Nodup :=
  (linked.ascending row (List.mem_of_getElem? located)).imp Nat.ne_of_lt

theorem Linked.placed (linked : index.Linked) : index.Placed :=
  ⟨linked.sorted, linked.linked⟩

theorem Linked.trav (linked : index.Linked) (int : Int → Int) : (index.trav int).Linked :=
  have placed := linked.placed.trav int
  ⟨placed.sorted, trav_rows int index ▸ linked.ascending, placed.linked⟩

theorem Linked.raise (linked : index.Linked) {height : Nat} {keys : List Nat}
    (bound : height < index.rows.length) (nodup : keys.Nodup)
    (known : ∀ key ∈ keys, ∃ entry ∈ index.entries, entry.key = key ∧ entry.level ≤ height) :
    (index.raise height keys).Linked := by
  have located := List.getElem?_eq_getElem bound
  have placed := linked.placed.raise located known
  refine ⟨placed.sorted, ?_, placed.linked⟩
  intro row member
  rw [raise_rows located] at member
  rcases List.mem_or_eq_of_mem_set member with old | rfl
  · exact linked.ascending row old
  · exact insertKeys_sorted (linked.ascending _ (List.getElem_mem bound)) nodup
      (linked.placed.fresh located known)

theorem Linked.grow (linked : index.Linked) : index.grow.Linked := by
  refine ⟨linked.sorted, ?_, linked.placed.grow.linked⟩
  intro row member
  rcases List.mem_append.mp member with old | new
  · exact linked.ascending row old
  · rw [List.mem_singleton.mp new]
    exact List.Pairwise.nil

theorem Linked.growIf (linked : index.Linked) (grows : Prop) [Decidable grows] :
    (if grows then index.grow else index).Linked := by
  split
  · exact linked.grow
  · exact linked

theorem Linked.unlinkMarked (linked : index.Linked) {i : Nat} (bound : i < index.rows.length) :
    (index.unlinkMarked i).Linked := by
  have located := List.getElem?_eq_getElem bound
  have placed := linked.placed.unlinkMarked located
  have kept := dropMarked_sublist (markedOf index.entries) false index.rows[i]
  rw [Index.unlinkMarked, getD_row located] at placed ⊢
  refine ⟨linked.sorted, ?_, placed.linked⟩
  intro other member
  rcases List.mem_or_eq_of_mem_set member with old | rfl
  · exact linked.ascending other old
  · exact (linked.ascending _ (List.getElem_mem bound)).sublist kept

def rowKeys (index : Index) (i : Nat) : List Nat :=
  raisedI (levelOf index.entries) (markedOf index.entries) (i + 1) index.rows.length
    (index.rows.getD i [])

theorem raiseIlevel_eq (index : Index) (i : Nat) : index.raiseIlevel i =
    ((index.unlinkMarked i).raise (i + 1) (index.rowKeys i), index.rowKeys i) := rfl

/-- Induction along the loop over the rows. -/
theorem raiseRows_rule {motive : Nat → Index → Bool → Prop} (count : Nat) : ∀ i index raised,
    motive i index raised → i + count < index.rows.length →
    (∀ j index raised, j + 1 < index.rows.length → motive j index raised →
      motive (j + 1) (index.raiseIlevel j).1 (!(index.rowKeys j).isEmpty)) →
    motive (i + count) (Index.raiseRows count i index raised).1
      (Index.raiseRows count i index raised).2 := by
  induction count with
  | zero => exact fun i index raised base _ _ => base
  | succ count ih =>
      intro i index raised base bound step
      have length := raiseIlevel_length index i
      have later := ih (i + 1) (index.raiseIlevel i).1 (!(index.rowKeys i).isEmpty)
        (step i index raised (by omega) base) (by rw [length]; omega) step
      rw [Nat.add_right_comm] at later
      exact later

theorem rowKeys_sublist (index : Index) {i : Nat} {row : List Nat}
    (located : index.rows[i]? = some row) : (index.rowKeys i).Sublist row := by
  rw [rowKeys, getD_row located]
  exact raisedI_sublist _ _ _ _ _

theorem Linked.raiseIlevel (linked : index.Linked) {i : Nat} (bound : i + 1 < index.rows.length) :
    (index.raiseIlevel i).1.Linked := by
  have located := List.getElem?_eq_getElem (show i < index.rows.length by omega)
  have inside := index.rowKeys_sublist located
  rw [raiseIlevel_eq]
  refine (linked.unlinkMarked (by omega)).raise ?_ ((linked.nodup located).sublist inside) ?_
  · simpa [Index.unlinkMarked] using bound
  · intro key member
    obtain ⟨entry, inEntries, rfl, _⟩ := linked.linked i _ key located (inside.subset member)
    have notAbove := raisedI_low member
    rw [levelOf_mem linked.sorted inEntries] at notAbove
    exact ⟨entry, inEntries, rfl, notAbove⟩

theorem Linked.bottomRaised (linked : index.Linked) (nonempty : 0 < index.rows.length)
    (int : Int → Int) : (index.bottomRaised int).Linked := by
  have travelled := linked.trav int
  refine Linked.growIf (travelled.raise ?_ ?_ ?_) _
  · rwa [trav_rows]
  · exact (keys_nodup travelled.sorted).sublist (raisedM_sublist _ _)
  · intro key member
    obtain ⟨entry, inEntries, same, level⟩ := raisedM_ground member
    exact ⟨entry, inEntries, same, Nat.le_of_eq level⟩

end Index

theorem Repr.rows_positive {e : Enclave} {l : Layout} (repr : Repr e l) :
    0 < (abs e l).rows.length := by
  rw [Repr.rows_length]
  exact repr.grid.nonempty

theorem Repr.linked {e : Enclave} {l : Layout} (repr : Repr e l) : (abs e l).Linked := by
  obtain ⟨node, rest, split, _⟩ := repr.base_stored
  refine ⟨?_, ?_, ?_⟩
  · have sorted := repr.intermed.sorted
    rw [split, List.pairwise_cons] at sorted
    rw [abs, split, List.tail_cons, List.pairwise_map]
    exact sorted.2
  · intro row member
    obtain ⟨cells, inRows, rfl⟩ := List.mem_map.mp member
    exact List.pairwise_map.mpr ((repr.grid.sorted cells inRows).sublist (List.tail_sublist cells))
  · intro i row key located member
    obtain ⟨cells, inRows, rfl⟩ := Option.map_eq_some_iff.mp ((List.getElem?_map ..).symm.trans located)
    obtain ⟨p, inTail, rfl⟩ := List.mem_map.mp member
    obtain ⟨_, _, inode, _, _, entry, inList, sameKey, level⟩ :=
      repr.grid.cells i cells p inRows (List.mem_of_mem_tail inTail)
    have positive : 0 < p.2 := by
      obtain ⟨head, cellsBehind, same⟩ := repr.grid.heads cells (List.mem_of_getElem? inRows)
      have sorted := repr.grid.sorted cells (List.mem_of_getElem? inRows)
      rw [same] at sorted inTail
      exact (List.pairwise_cons.mp sorted).1 p inTail
    rw [split] at inList
    rcases List.mem_cons.mp inList with same | inRest
    · obtain ⟨_, rfl⟩ := Prod.mk.inj same
      exact absurd (sameKey : 0 = p.2) (Nat.ne_of_lt positive)
    · refine ⟨entry, ?_, sameKey, level⟩
      rw [abs, split]
      exact List.mem_map_of_mem (f := Prod.snd) inRest

end Hosk
