import Hosk.LinkedRows
import Hosk.RebuiltIndex
import Hosk.Spacing

/-! Indices over an intermediate layer without marks: each row lies spread over the one below. -/

namespace Hosk

section Raised

variable {taken : Nat → Prop} {level : Nat → Nat} {marked : Nat → Bool} {height : Nat}

theorem raisedI_spaced (row : List Nat) : ∀ {prev : Nat} {after : Prop}, row.Nodup →
    (∀ key ∈ row, marked key = false) → (∀ key ∈ row, taken key → height < level key) →
    (after → height < prev) → Spaced taken after row →
    Spaced (fun key => taken key ∨ key ∈ raisedI level marked height prev row) after row := by
  induction row with
  | nil => exact fun _ _ _ _ _ => trivial
  | cons index rest ih =>
      intro prev after nodup unmarked high behind spaced
      cases rest with
      | nil =>
          refine (Spaced.congr fun key _ => ?_).mp spaced
          rw [raisedI]
          · simp
          · exact fun _ _ _ wrong => List.cons_ne_nil _ _ (List.cons.inj wrong).2.symm
      | cons inext rest =>
          obtain ⟨fresh, nodupRest⟩ := List.nodup_cons.mp nodup
          have later := fun {prev : Nat} {after : Prop} => @ih prev after nodupRest
            (fun key member => unmarked key (List.mem_cons_of_mem _ member))
            (fun key member => high key (List.mem_cons_of_mem _ member))
          have here := high index List.mem_cons_self
          have notLater : ∀ prev, index ∉ raisedI level marked height prev (inext :: rest) :=
            fun prev member => fresh ((Index.raisedI_sublist level marked height prev _).subset member)
          rw [raisedI, if_neg (by simp [unmarked index List.mem_cons_self])]
          split
          · rename_i low
            have free : ¬ taken inext := fun isTaken => by
              have tall := high inext (List.mem_cons_of_mem _ List.mem_cons_self) isTaken
              omega
            have spread := later (fun _ => Nat.lt_succ_self height)
              (spaced.2.strengthen fun item isHead => (Option.some.inj isHead) ▸ free)
            refine ⟨fun _ => ⟨fun isAfter => ?_, List.cons_ne_nil _ _⟩, ?_⟩
            · have notLow := behind isAfter
              omega
            · refine ((Spaced.congr fun key member => ?_).mp spread).weaken fun _ => trivial
              have other : key ≠ index := fun same => fresh (same ▸ member)
              simp [other]
          · refine ⟨fun isTaken => spaced.1 (isTaken.resolve_right (notLater _)), ?_⟩
            refine (later here spaced.2).weaken fun isTaken => isTaken.resolve_right (notLater _)

theorem spaced_insertKeys {after : Prop} {row : List Nat} (spaced : Spaced taken after row)
    (keys : List Nat) (free : ∀ key ∈ keys, ¬ taken key) :
    Spaced taken after (insertKeys row keys) := by
  induction keys generalizing row with
  | nil => exact spaced
  | cons key rest ih =>
      have inserted : Spaced taken after (row.orderedInsert (· ≤ ·) key) := by
        rw [List.orderedInsert_eq_take_drop]
        apply Spaced.insert _ (free key List.mem_cons_self)
        rwa [List.takeWhile_append_dropWhile]
      exact ih inserted fun other member => free other (List.mem_cons_of_mem _ member)

end Raised

theorem mem_insertKeys {row keys : List Nat} {key : Nat} :
    key ∈ insertKeys row keys ↔ key ∈ keys ∨ key ∈ row := by
  rw [(insertKeys_perm row keys).mem_iff, List.mem_append]

theorem setLevels_keys (keys : List Nat) (level : Nat) (entries : List Entry) :
    (setLevels keys level entries).map Entry.key = entries.map Entry.key := by
  rw [setLevels, List.map_map]
  refine List.map_congr_left fun entry _ => ?_
  rw [Function.comp_apply]
  split <;> rfl

namespace Index

/-- Every row links every second key at most of what is below it, and only the top row nothing. -/
structure Spread (index : Index) : Prop where
  unmarked : ∀ entry ∈ index.entries, entry.marked = false
  noneTall : index.tallDel = 0
  nested : ∀ (i : Nat) low high, index.rows[i]? = some low → index.rows[i + 1]? = some high →
    high ⊆ low
  ground : ∀ row, index.rows[0]? = some row →
    Spaced (· ∈ row) True (index.entries.map Entry.key)
  spaced : ∀ (i : Nat) low high, index.rows[i]? = some low → index.rows[i + 1]? = some high →
    Spaced (· ∈ high) True low
  filled : ∀ (i : Nat) row, index.rows[i]? = some row → i + 1 < index.rows.length → row ≠ []

variable {index : Index} {int : Int → Int}

theorem raise_row {height : Nat} {row : List Nat} (located : index.rows[height]? = some row)
    (keys : List Nat) (i : Nat) : (index.raise height keys).rows[i]? =
      if height = i then some (insertKeys row keys) else index.rows[i]? := by
  have bound := (List.getElem?_eq_some_iff.mp located).1
  rw [raise_rows located, List.getElem?_set]
  simp [bound]

theorem Spread.raise (spread : index.Spread) (linked : index.Linked) {height : Nat}
    {row keys : List Nat} (located : index.rows[height]? = some row)
    (low : ∀ key ∈ keys, levelOf index.entries key ≤ height)
    (onGround : height = 0 →
      Spaced (fun key => key ∈ row ∨ key ∈ keys) True (index.entries.map Entry.key))
    (inside : ∀ (i : Nat) below, height = i + 1 → index.rows[i]? = some below →
      keys ⊆ below ∧ Spaced (fun key => key ∈ row ∨ key ∈ keys) True below) :
    (index.raise height keys).Spread := by
  have rows := raise_row located keys
  have length : (index.raise height keys).rows.length = index.rows.length := by
    rw [Index.raise, List.length_modify]
  have joined : ∀ list : List Nat, Spaced (fun key => key ∈ row ∨ key ∈ keys) True list →
      Spaced (· ∈ insertKeys row keys) True list := by
    intro list spaced
    exact (Spaced.congr fun key _ => by rw [mem_insertKeys]; exact or_comm).mp spaced
  refine ⟨unmarked_relevelled (raise_relevelled index height keys) spread.unmarked, spread.noneTall,
    ?_, ?_, ?_, ?_⟩
  · intro i lower upper isLow isHigh key member
    rw [rows] at isLow isHigh
    split at isLow
    · subst height
      rw [if_neg (Nat.ne_of_lt (Nat.lt_succ_self i))] at isHigh
      rw [← Option.some.inj isLow, mem_insertKeys]
      exact .inr (spread.nested i row upper located isHigh member)
    · split at isHigh
      · rename_i same
        subst same
        rw [← Option.some.inj isHigh, mem_insertKeys] at member
        rcases member with inKeys | inRow
        · exact (inside i lower rfl isLow).1 inKeys
        · exact spread.nested i lower row isLow located inRow
      · exact spread.nested i lower upper isLow isHigh member
  · intro bottom isBottom
    have keysSame : (index.raise height keys).entries.map Entry.key = index.entries.map Entry.key :=
      setLevels_keys keys (height + 1) index.entries
    rw [keysSame]
    rw [rows] at isBottom
    split at isBottom
    · rename_i ground
      rw [← Option.some.inj isBottom]
      exact joined _ (onGround ground)
    · exact spread.ground bottom isBottom
  · intro i lower upper isLow isHigh
    rw [rows] at isLow isHigh
    split at isLow
    · subst height
      rw [if_neg (Nat.ne_of_lt (Nat.lt_succ_self i))] at isHigh
      rw [← Option.some.inj isLow]
      apply spaced_insertKeys (spread.spaced i row upper located isHigh)
      intro key inKeys inUpper
      have notLow := linked.level isHigh inUpper
      have isLow := low key inKeys
      omega
    · split at isHigh
      · rename_i same
        subst same
        rw [← Option.some.inj isHigh]
        exact joined _ (inside i lower rfl isLow).2
      · exact spread.spaced i lower upper isLow isHigh
  · intro i other found below
    rw [length] at below
    rw [rows] at found
    split at found
    · rename_i same
      subst same
      rw [← Option.some.inj found]
      have nonempty := List.length_pos_iff.mpr (spread.filled height row located below)
      apply List.ne_nil_of_length_pos
      rw [(insertKeys_perm row keys).length_eq, List.length_append]
      omega
    · exact spread.filled i other found below

theorem Spread.grow (spread : index.Spread)
    (topped : ∀ row, index.rows.getLast? = some row → row ≠ []) : index.grow.Spread := by
  have rows : ∀ {i : Nat} {row : List Nat}, index.grow.rows[i]? = some row →
      index.rows[i]? = some row ∨ i = index.rows.length ∧ row = [] := by
    intro i row found
    rw [Index.grow, List.getElem?_append] at found
    split at found
    · exact .inl found
    · rename_i beyond
      obtain ⟨bound, value⟩ := List.getElem?_eq_some_iff.mp found
      rw [List.length_singleton] at bound
      refine .inr ⟨by omega, ?_⟩
      rw [← value]
      exact List.mem_singleton.mp (List.getElem_mem bound)
  refine ⟨spread.unmarked, spread.noneTall, ?_, ?_, ?_, ?_⟩
  · intro i low high isLow isHigh
    rcases rows isHigh with upper | ⟨_, rfl⟩
    · rcases rows isLow with lower | ⟨same, _⟩
      · exact spread.nested i low high lower upper
      · have bound := (List.getElem?_eq_some_iff.mp upper).1
        omega
    · exact List.nil_subset low
  · intro row isBottom
    rcases rows isBottom with bottom | ⟨_, rfl⟩
    · exact spread.ground row bottom
    · exact Spaced.none fun _ _ => List.not_mem_nil
  · intro i low high isLow isHigh
    rcases rows isHigh with upper | ⟨_, rfl⟩
    · rcases rows isLow with lower | ⟨same, _⟩
      · exact spread.spaced i low high lower upper
      · have bound := (List.getElem?_eq_some_iff.mp upper).1
        omega
    · exact Spaced.none fun _ _ => List.not_mem_nil
  · intro i row found below
    rw [Index.grow, List.length_append, List.length_singleton] at below
    rcases rows found with old | ⟨same, _⟩
    · by_cases last : i + 1 < index.rows.length
      · exact spread.filled i row old last
      · apply topped row
        rw [List.getLast?_eq_getElem?, show index.rows.length - 1 = i by omega]
        exact old
    · omega

end Index

end Hosk
