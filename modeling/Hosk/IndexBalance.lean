import Mathlib.Algebra.Order.BigOperators.Group.List
import Mathlib.Algebra.Order.Ring.Nat
import Hosk.JobReplay

/-!
Levels against links: the levels of all entries add up to the cells of all rows and the inodes
unlinked so far, as long as no row is dropped.
-/

namespace Hosk

theorem countP_mem_eq_length {keys all : List Nat} (allNodup : all.Nodup) (nodup : keys.Nodup)
    (inside : keys ⊆ all) : all.countP (· ∈ keys) = keys.length := by
  rw [List.countP_eq_length_filter]
  refine ((List.perm_ext_iff_of_nodup (allNodup.filter _) nodup).mpr fun key => ?_).length_eq
  simp only [List.mem_filter, decide_eq_true_eq]
  exact ⟨fun member => member.2, fun member => ⟨inside member, member⟩⟩

def linkedIn (rows : List (List Nat)) (key : Nat) : Nat := rows.countP (key ∈ ·)

def totalLevel (entries : List Entry) : Nat := (entries.map Entry.level).sum

def cellCount (rows : List (List Nat)) : Nat := (rows.map List.length).sum

/-- A row links each key once, and in row `i` only keys of a level above `i`. -/
structure Index.Balanced (index : Index) : Prop where
  sorted : index.entries.Pairwise fun x y => x.key < y.key
  nodup : ∀ row ∈ index.rows, row.Nodup
  linked : ∀ (i : Nat) row key, index.rows[i]? = some row → key ∈ row →
    ∃ entry ∈ index.entries, entry.key = key ∧ i + 1 ≤ entry.level
  balance : totalLevel index.entries = cellCount index.rows + index.unlinks

theorem keys_nodup {entries : List Entry} (sorted : entries.Pairwise fun x y => x.key < y.key) :
    (entries.map Entry.key).Nodup :=
  List.pairwise_map.mpr (sorted.imp Nat.ne_of_lt)

theorem entry_of_key {entries : List Entry} (sorted : entries.Pairwise fun x y => x.key < y.key)
    {entry other : Entry} (left : entry ∈ entries) (right : other ∈ entries)
    (same : entry.key = other.key) : entry = other :=
  List.inj_on_of_nodup_map (keys_nodup sorted) left right same

theorem totalLevel_setLevels {entries : List Entry} {keys : List Nat} {height : Nat}
    (sorted : entries.Pairwise fun x y => x.key < y.key) (nodup : keys.Nodup)
    (known : ∀ key ∈ keys, ∃ entry ∈ entries, entry.key = key ∧ entry.level = height) :
    totalLevel (setLevels keys (height + 1) entries) = totalLevel entries + keys.length := by
  have counted : keys.length = entries.countP (·.key ∈ keys) := by
    rw [← countP_mem_eq_length (keys_nodup sorted) nodup, List.countP_map]
    · rfl
    · intro key member
      obtain ⟨entry, inEntries, rfl, _⟩ := known key member
      exact List.mem_map_of_mem inEntries
  have levels : ∀ entry ∈ entries, entry.key ∈ keys → entry.level = height := by
    intro entry member raised
    obtain ⟨other, inEntries, same, level⟩ := known entry.key raised
    rw [entry_of_key sorted member inEntries same.symm]
    exact level
  rw [counted]
  clear counted known sorted
  induction entries with
  | nil => rfl
  | cons entry rest ih =>
      have later := ih fun other member => levels other (List.mem_cons_of_mem _ member)
      rw [totalLevel, setLevels] at later ⊢
      rw [totalLevel] at later ⊢
      by_cases raised : entry.key ∈ keys
      · have level := levels entry List.mem_cons_self raised
        simp only [List.map_cons, List.sum_cons, List.countP_cons, later, level, decide_true, if_true,
          raised]
        omega
      · simp only [List.map_cons, List.sum_cons, List.countP_cons, later, decide_false, raised]
        simp
        omega

theorem insertKeys_perm (row keys : List Nat) : (insertKeys row keys).Perm (keys ++ row) := by
  induction keys generalizing row with
  | nil => exact List.Perm.refl _
  | cons key rest ih =>
      rw [insertKeys, List.foldl_cons, ← insertKeys]
      refine (ih _).trans ?_
      refine ((List.perm_orderedInsert _ key row).append_left rest).trans ?_
      exact List.perm_middle

theorem cellCount_set {rows : List (List Nat)} {row : List Nat} (row' : List Nat) : ∀ {i : Nat},
    rows[i]? = some row → cellCount (rows.set i row') + row.length = cellCount rows + row'.length := by
  induction rows with
  | nil => intro i located; exact absurd located (by simp)
  | cons head rest ih =>
      intro i located
      cases i with
      | zero =>
          obtain rfl : head = row := Option.some.inj located
          simp [cellCount]
          omega
      | succ i =>
          have later := ih (i := i) located
          rw [cellCount] at later ⊢
          simp only [List.set_cons_succ, List.map_cons, List.sum_cons, cellCount] at later ⊢
          omega

theorem mem_set_row {rows : List (List Nat)} {row' other : List Nat} {i j : Nat}
    (located : (rows.set i row')[j]? = some other) :
    i = j ∧ other = row' ∨ rows[j]? = some other := by
  rw [List.getElem?_set] at located
  split at located
  · split at located
    · exact .inl ⟨by assumption, (Option.some.inj located).symm⟩
    · exact absurd located (Option.some_ne_none other).symm
  · exact .inr located

namespace Index

variable {index : Index}

theorem Balanced.job (balanced : index.Balanced) (job : Job) :
    (index.updateIntermediateLayer job).Balanced := by
  refine ⟨applyJob_sorted job balanced.sorted, balanced.nodup, ?_, ?_⟩
  · intro i row key located member
    obtain ⟨entry, inEntries, rfl, level⟩ := balanced.linked i row key located member
    by_cases same : entry.key = job.key
    · exact ⟨_, (mem_applyJob job balanced.sorted).mpr (.inr (.inl ⟨entry, inEntries, same, rfl⟩)), rfl,
        level⟩
    · exact ⟨entry, (mem_applyJob job balanced.sorted).mpr (.inl ⟨same, inEntries⟩), rfl, level⟩
  · have levels : ∀ entries : List Entry,
        totalLevel (applyJob job entries) = totalLevel entries := by
      intro entries
      induction entries with
      | nil =>
          rw [applyJob]
          split <;> rfl
      | cons head rest ih =>
          rw [totalLevel] at ih ⊢
          rw [applyJob, totalLevel]
          rw [totalLevel] at ih
          split
          · simp [ih]
          · split
            · simp
            · split <;> simp
    exact (levels index.entries).trans balanced.balance

structure Placed (index : Index) : Prop where
  sorted : index.entries.Pairwise fun x y => x.key < y.key
  linked : ∀ (i : Nat) row key, index.rows[i]? = some row → key ∈ row →
    ∃ entry ∈ index.entries, entry.key = key ∧ i + 1 ≤ entry.level

theorem Placed.trav (placed : index.Placed) (int : Int → Int) : (index.trav int).Placed := by
  refine ⟨placed.sorted.filter _, ?_⟩
  intro i row key located member
  rw [trav_rows int index] at located
  obtain ⟨entry, inEntries, same, level⟩ := placed.linked i row key located member
  refine ⟨entry, List.mem_filter.mpr ⟨inEntries, ?_⟩, same, level⟩
  simp [Entry.stays]
  omega

theorem raise_rows {height : Nat} {row : List Nat} (located : index.rows[height]? = some row)
    (keys : List Nat) : (index.raise height keys).rows = index.rows.set height (insertKeys row keys) := by
  rw [Index.raise, List.modify_eq_set_getElem?, located]
  rfl

section Raise

variable {height : Nat} {row keys : List Nat}

theorem Placed.fresh (placed : index.Placed) (located : index.rows[height]? = some row)
    (known : ∀ key ∈ keys, ∃ entry ∈ index.entries, entry.key = key ∧ entry.level ≤ height) :
    ∀ key ∈ keys, key ∉ row := by
  intro key inKeys inRow
  obtain ⟨entry, inEntries, rfl, level⟩ := known key inKeys
  obtain ⟨tall, inTall, sameTall, more⟩ := placed.linked height row _ located inRow
  rw [entry_of_key placed.sorted inEntries inTall sameTall.symm] at level
  omega

theorem Placed.raise (placed : index.Placed) (located : index.rows[height]? = some row)
    (known : ∀ key ∈ keys, ∃ entry ∈ index.entries, entry.key = key ∧ entry.level ≤ height) :
    (index.raise height keys).Placed := by
  have raised : ∀ entry ∈ index.entries, ∃ entry' ∈ (index.raise height keys).entries,
      entry'.key = entry.key ∧ entry.level ≤ entry'.level ∧
        (entry.key ∈ keys → entry'.level = height + 1) := by
    intro entry member
    refine ⟨_, List.mem_map_of_mem member, ?_⟩
    by_cases inKeys : entry.key ∈ keys
    · obtain ⟨other, inEntries, same, level⟩ := known entry.key inKeys
      rw [← entry_of_key placed.sorted member inEntries same.symm] at level
      rw [if_pos inKeys]
      exact ⟨rfl, Nat.le_succ_of_le level, fun _ => rfl⟩
    · rw [if_neg inKeys]
      exact ⟨rfl, Nat.le_refl _, fun isIn => absurd isIn inKeys⟩
  refine ⟨?_, ?_⟩
  · rw [Index.raise, setLevels, List.pairwise_map]
    refine placed.sorted.imp fun {x y} less => ?_
    split <;> split <;> exact less
  · intro i other key found member
    rw [raise_rows located] at found
    have old : ∀ row, index.rows[i]? = some row → key ∈ row →
        ∃ entry ∈ (index.raise height keys).entries, entry.key = key ∧ i + 1 ≤ entry.level := by
      intro row found member
      obtain ⟨entry, inEntries, rfl, level⟩ := placed.linked i row key found member
      obtain ⟨entry', inEntries', same, higher, _⟩ := raised entry inEntries
      exact ⟨entry', inEntries', same, Nat.le_trans level higher⟩
    rcases mem_set_row found with ⟨rfl, rfl⟩ | found
    · have perm := insertKeys_perm row keys
      rcases List.mem_append.mp (perm.mem_iff.mp member) with inKeys | inRow
      · obtain ⟨entry, inEntries, rfl, _⟩ := known key inKeys
        obtain ⟨entry', inEntries', same, _, level⟩ := raised entry inEntries
        exact ⟨entry', inEntries', same, Nat.le_of_eq (level inKeys).symm⟩
      · exact old row located inRow
    · exact old other found member

end Raise

theorem Placed.grow (placed : index.Placed) : index.grow.Placed := by
  refine ⟨placed.sorted, ?_⟩
  intro i row key located member
  rw [Index.grow, List.getElem?_append] at located
  split at located
  · exact placed.linked i row key located member
  · rw [List.mem_singleton.mp (List.mem_of_getElem? located)] at member
    exact absurd member List.not_mem_nil

theorem Placed.unlinkMarked (placed : index.Placed) {i : Nat} {row : List Nat}
    (located : index.rows[i]? = some row) : (index.unlinkMarked i).Placed := by
  rw [Index.unlinkMarked, getD_row located]
  refine ⟨placed.sorted, ?_⟩
  intro j other key found member
  rcases mem_set_row found with ⟨rfl, rfl⟩ | found
  · have kept := dropMarked_sublist (markedOf index.entries) false row
    exact placed.linked i row key located (kept.subset member)
  · exact placed.linked j other key found member

theorem Balanced.placed (balanced : index.Balanced) : index.Placed :=
  ⟨balanced.sorted, balanced.linked⟩

theorem Balanced.trav (balanced : index.Balanced) (int : Int → Int) :
    (index.trav int).Balanced := by
  have rows := trav_rows int index
  have unlinks : (index.trav int).unlinks = index.unlinks := (counts_links int _ index).2
  have entries : (index.trav int).entries = index.entries.filter Entry.stays := rfl
  have placed := balanced.placed.trav int
  refine ⟨placed.sorted, rows ▸ balanced.nodup, placed.linked, ?_⟩
  rw [rows, unlinks, entries, ← balanced.balance]
  generalize index.entries = list
  induction list with
  | nil => rfl
  | cons entry rest ih =>
      rw [totalLevel, totalLevel] at ih ⊢
      rw [List.filter_cons]
      split
      · simp [ih]
      · rename_i gone
        have ground : entry.level = 0 := by
          simp [Entry.stays] at gone
          exact gone.1
        simp [ih, ground]

theorem Balanced.raise (balanced : index.Balanced) {height : Nat} {keys : List Nat}
    (bound : height < index.rows.length) (nodup : keys.Nodup)
    (known : ∀ key ∈ keys, ∃ entry ∈ index.entries, entry.key = key ∧ entry.level = height) :
    (index.raise height keys).Balanced := by
  have located := List.getElem?_eq_getElem bound
  have rows := raise_rows located keys
  have perm := insertKeys_perm index.rows[height] keys
  have notAbove : ∀ key ∈ keys, ∃ entry ∈ index.entries, entry.key = key ∧ entry.level ≤ height := by
    intro key inKeys
    obtain ⟨entry, inEntries, same, level⟩ := known key inKeys
    exact ⟨entry, inEntries, same, Nat.le_of_eq level⟩
  have placed := balanced.placed.raise located notAbove
  refine ⟨placed.sorted, ?_, placed.linked, ?_⟩
  · intro row member
    rw [rows] at member
    rcases List.mem_or_eq_of_mem_set member with old | rfl
    · exact balanced.nodup row old
    · rw [perm.nodup_iff, List.nodup_append]
      refine ⟨nodup, balanced.nodup _ (List.getElem_mem bound), ?_⟩
      rintro key inKeys other inRow rfl
      exact balanced.placed.fresh located notAbove key inKeys inRow
  · have cells := cellCount_set (insertKeys index.rows[height] keys) located
    rw [perm.length_eq, List.length_append] at cells
    have levels := totalLevel_setLevels balanced.sorted nodup known
    have balance := balanced.balance
    rw [rows]
    simp only [Index.raise] at levels ⊢
    omega

theorem Balanced.grow (balanced : index.Balanced) : index.grow.Balanced := by
  refine ⟨balanced.sorted, ?_, balanced.placed.grow.linked, ?_⟩
  · intro row member
    rcases List.mem_append.mp member with old | new
    · exact balanced.nodup row old
    · rw [List.mem_singleton.mp new]
      exact List.nodup_nil
  · exact balanced.balance.trans (by simp [Index.grow, cellCount])

theorem Balanced.growIf (balanced : index.Balanced) (grows : Prop) [Decidable grows] :
    (if grows then index.grow else index).Balanced := by
  split
  · exact balanced.grow
  · exact balanced

theorem Balanced.unlinkMarked (balanced : index.Balanced) {i : Nat} (bound : i < index.rows.length) :
    (index.unlinkMarked i).Balanced := by
  have located := List.getElem?_eq_getElem bound
  have placed := balanced.placed.unlinkMarked located
  have kept := dropMarked_sublist (markedOf index.entries) false index.rows[i]
  rw [Index.unlinkMarked, getD_row located] at placed ⊢
  refine ⟨balanced.sorted, ?_, placed.linked, ?_⟩
  · intro other member
    rcases List.mem_or_eq_of_mem_set member with old | rfl
    · exact balanced.nodup other old
    · exact (balanced.nodup _ (List.getElem_mem bound)).sublist kept
  · have cells := cellCount_set (dropMarked (markedOf index.entries) false index.rows[i]) located
    have shorter := kept.length_le
    have balance := balanced.balance
    dsimp only
    omega

theorem raisedI_sublist (level : Nat → Nat) (marked : Nat → Bool) (height prev : Nat)
    (row : List Nat) : (raisedI level marked height prev row).Sublist row := by
  induction row generalizing prev with
  | nil => exact List.nil_sublist _
  | cons index rest ih =>
      cases rest with
      | nil => exact List.nil_sublist _
      | cons inext rest =>
          rw [raisedI]
          split
          · exact (ih prev).cons index
          · split
            · exact (ih (height + 1)).cons_cons index
            · exact (ih (level index)).cons index

theorem raisedI_low {level : Nat → Nat} {marked : Nat → Bool} {height key : Nat} :
    ∀ {prev : Nat} {row : List Nat}, key ∈ raisedI level marked height prev row →
      level key ≤ height := by
  intro prev row
  induction row generalizing prev with
  | nil => intro member; exact absurd member List.not_mem_nil
  | cons index rest ih =>
      cases rest with
      | nil => intro member; exact absurd member List.not_mem_nil
      | cons inext rest =>
          rw [raisedI]
          split
          · exact ih
          · split
            · rename_i low
              intro member
              rcases List.mem_cons.mp member with rfl | inRest
              · exact low.2.1
              · exact ih inRest
            · exact ih

theorem raisedM_sublist (prev : Nat) (entries : List Entry) :
    (raisedM prev entries).Sublist (entries.map Entry.key) := by
  induction entries generalizing prev with
  | nil => exact List.nil_sublist _
  | cons node rest ih =>
      cases rest with
      | nil => exact List.nil_sublist _
      | cons next rest =>
          rw [raisedM]
          split
          · exact (ih 1).cons_cons node.key
          · exact (ih node.level).cons node.key

theorem raisedM_ground {key : Nat} : ∀ {prev : Nat} {entries : List Entry},
    key ∈ raisedM prev entries → ∃ entry ∈ entries, entry.key = key ∧ entry.level = 0 := by
  intro prev entries
  induction entries generalizing prev with
  | nil => intro member; exact absurd member List.not_mem_nil
  | cons node rest ih =>
      have later : ∀ {prev : Nat}, key ∈ raisedM prev rest →
          ∃ entry ∈ node :: rest, entry.key = key ∧ entry.level = 0 := by
        intro prev member
        obtain ⟨entry, inRest, facts⟩ := ih member
        exact ⟨entry, List.mem_cons_of_mem _ inRest, facts⟩
      cases rest with
      | nil => intro member; exact absurd member List.not_mem_nil
      | cons next rest =>
          rw [raisedM]
          split
          · rename_i low
            intro member
            rcases List.mem_cons.mp member with rfl | inRest
            · exact ⟨node, List.mem_cons_self, rfl, low.2.1⟩
            · exact later inRest
          · exact later

theorem Balanced.raiseIlevel (balanced : index.Balanced) {i : Nat}
    (bound : i + 1 < index.rows.length) : (index.raiseIlevel i).1.Balanced := by
  have located := List.getElem?_eq_getElem (show i < index.rows.length by omega)
  have low := balanced.unlinkMarked (show i < index.rows.length by omega)
  have inside := raisedI_sublist (levelOf index.entries) (markedOf index.entries) (i + 1)
    index.rows.length index.rows[i]
  rw [Index.raiseIlevel, getD_row located]
  refine low.raise ?_ ((balanced.nodup _ (List.getElem_mem _)).sublist inside) ?_
  · simpa [Index.unlinkMarked] using bound
  · intro key member
    obtain ⟨entry, inEntries, rfl, level⟩ :=
      balanced.linked i _ key located (inside.subset member)
    have notAbove := raisedI_low member
    rw [levelOf_mem balanced.sorted inEntries] at notAbove
    exact ⟨entry, inEntries, rfl, by omega⟩

theorem raiseIlevel_length (index : Index) (i : Nat) :
    (index.raiseIlevel i).1.rows.length = index.rows.length := by
  simp [Index.raiseIlevel, Index.raise, Index.unlinkMarked]

theorem Balanced.raiseRows (count : Nat) : ∀ (i : Nat) (index : Index) (raised : Bool),
    index.Balanced → i + count < index.rows.length →
      (Index.raiseRows count i index raised).1.Balanced := by
  induction count with
  | zero => exact fun i index raised balanced _ => balanced
  | succ count ih =>
      intro i index raised balanced bound
      have length := raiseIlevel_length index i
      refine ih (i + 1) _ _ (balanced.raiseIlevel (by omega)) ?_
      exact Nat.lt_of_lt_of_eq (by omega) length.symm

/-- Raising keeps the balance; only lowering and `reset_index` do not. -/
theorem Balanced.raiseIndexLayer (balanced : index.Balanced) (nonempty : 0 < index.rows.length)
    (int : Int → Int) : (index.raiseIndexLayer int).Balanced := by
  have traversed := balanced.trav int
  have rows := trav_rows int index
  have raised : ((index.trav int).raise 0
      (raisedM (index.trav int).rows.length (index.trav int).entries)).Balanced :=
    traversed.raise (rows ▸ nonempty)
      ((keys_nodup traversed.sorted).sublist (raisedM_sublist _ _)) fun key => raisedM_ground
  have length : ((index.trav int).raise 0
      (raisedM (index.trav int).rows.length (index.trav int).entries)).rows.length =
        index.rows.length := by
    rw [Index.raise, List.length_modify, rows]
  dsimp only [Index.raiseIndexLayer]
  refine Balanced.growIf ?_ _
  refine Balanced.raiseRows _ 0 _ _ (raised.growIf _) ?_
  split
  · simp only [Index.grow, List.length_append]
    omega
  · omega

end Index

section Counting

theorem countP_bounded {α : Type} {holds : α → Bool} {list : List α} : ∀ {bound : Nat},
    (∀ (i : Nat) item, list[i]? = some item → holds item = true → i < bound) →
      list.countP holds ≤ bound ∧ (list.countP holds = bound →
        ∀ i, i < bound → ∃ item, list[i]? = some item ∧ holds item = true) := by
  induction list with
  | nil =>
      intro bound _
      refine ⟨Nat.zero_le _, ?_⟩
      rintro rfl i below
      exact absurd below (Nat.not_lt_zero i)
  | cons head rest ih =>
      intro bound below
      have later : ∀ {lower : Nat}, bound = lower + 1 →
          ∀ (i : Nat) item, rest[i]? = some item → holds item = true → i < lower := by
        intro lower same i item located true
        have next := below (i + 1) item located true
        omega
      cases bound with
      | zero =>
          have none : (head :: rest).countP holds = 0 := by
            rw [List.countP_eq_zero]
            intro item member true
            obtain ⟨i, located⟩ := List.getElem?_of_mem member
            exact absurd (below i item located true) (Nat.not_lt_zero i)
          exact ⟨Nat.le_of_eq none, fun _ i wrong => absurd wrong (Nat.not_lt_zero i)⟩
      | succ lower =>
          obtain ⟨atMost, all⟩ := ih (later rfl)
          rw [List.countP_cons]
          refine ⟨by split <;> omega, fun full i within => ?_⟩
          split at full
          · rename_i true
            cases i with
            | zero => exact ⟨head, rfl, true⟩
            | succ i => exact all (by omega) i (by omega)
          · omega

theorem sum_map_eq {α : Type} {low high : α → Nat} {list : List α}
    (le : ∀ item ∈ list, low item ≤ high item) (same : (list.map high).sum = (list.map low).sum) :
    ∀ item ∈ list, high item = low item := by
  have total : (list.map low).sum ≤ (list.map high).sum := List.sum_le_sum le
  induction list with
  | nil => intro item member; exact absurd member List.not_mem_nil
  | cons head rest ih =>
      have leRest : ∀ item ∈ rest, low item ≤ high item :=
        fun item member => le item (List.mem_cons_of_mem _ member)
      have leHead := le head List.mem_cons_self
      have below : (rest.map low).sum ≤ (rest.map high).sum := List.sum_le_sum leRest
      rw [List.map_cons, List.map_cons, List.sum_cons, List.sum_cons] at same
      intro item member
      rcases List.mem_cons.mp member with rfl | inRest
      · omega
      · exact ih leRest (by omega) below item inRest

theorem sum_linkedIn {entries : List Entry} (sorted : entries.Pairwise fun x y => x.key < y.key)
    (rows : List (List Nat)) (nodup : ∀ row ∈ rows, row.Nodup)
    (known : ∀ row ∈ rows, ∀ key ∈ row, ∃ entry ∈ entries, entry.key = key) :
    (entries.map fun entry => linkedIn rows entry.key).sum = cellCount rows := by
  induction rows with
  | nil =>
      have none : ∀ entry ∈ entries, linkedIn [] entry.key = 0 := fun entry _ => rfl
      rw [List.map_congr_left none]
      simp [cellCount]
  | cons row rest ih =>
      have later := ih (fun other member => nodup other (List.mem_cons_of_mem _ member))
        fun other member => known other (List.mem_cons_of_mem _ member)
      have here : (entries.map fun entry => if entry.key ∈ row then 1 else 0).sum = row.length := by
        have counted := countP_mem_eq_length (keys_nodup sorted) (nodup row List.mem_cons_self)
          fun key member => by
            obtain ⟨entry, inEntries, rfl⟩ := known row List.mem_cons_self key member
            exact List.mem_map_of_mem inEntries
        rw [← counted, List.countP_map]
        clear later counted sorted known ih
        induction entries with
        | nil => rfl
        | cons entry entries ih =>
            rw [List.map_cons, List.sum_cons, ih, List.countP_cons]
            simp only [Function.comp_apply, decide_eq_true_eq]
            omega
      rw [cellCount, List.map_cons, List.sum_cons, ← cellCount, ← later, ← here, ← List.sum_map_add]
      apply congrArg List.sum
      apply List.map_congr_left
      intro entry _
      rw [linkedIn, List.countP_cons, linkedIn, Nat.add_comm]
      simp

end Counting

namespace Index

variable {index : Index}

theorem Balanced.below (balanced : index.Balanced) {entry : Entry} (member : entry ∈ index.entries) :
    ∀ (i : Nat) row, index.rows[i]? = some row → decide (entry.key ∈ row) = true →
      i < entry.level := by
  intro i row located linked
  obtain ⟨other, inEntries, same, level⟩ :=
    balanced.linked i row entry.key located (of_decide_eq_true linked)
  rw [entry_of_key balanced.sorted member inEntries same.symm]
  exact level

theorem Balanced.levels_iff (balanced : index.Balanced) :
    (∀ entry ∈ index.entries, entry.level = linkedIn index.rows entry.key) ↔ index.unlinks = 0 := by
  have linked := sum_linkedIn balanced.sorted index.rows balanced.nodup fun row member key inRow => by
    obtain ⟨i, located⟩ := List.getElem?_of_mem member
    obtain ⟨entry, inEntries, same, _⟩ := balanced.linked i row key located inRow
    exact ⟨entry, inEntries, same⟩
  have balance := balanced.balance
  rw [totalLevel] at balance
  constructor
  · intro levels
    rw [List.map_congr_left levels, linked] at balance
    omega
  · intro none
    refine sum_map_eq (fun entry member => (countP_bounded (balanced.below member)).1) ?_
    rw [linked, balance, none, Nat.add_zero]

theorem Balanced.linked_below (balanced : index.Balanced) {entry : Entry}
    (member : entry ∈ index.entries) (full : entry.level = linkedIn index.rows entry.key) {i : Nat}
    (below : i < entry.level) : ∃ row, index.rows[i]? = some row ∧ entry.key ∈ row := by
  obtain ⟨row, located, linked⟩ :=
    (countP_bounded (balanced.below member)).2 full.symm i below
  exact ⟨row, located, of_decide_eq_true linked⟩

end Index

end Hosk
