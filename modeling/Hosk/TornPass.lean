import Hosk.TornTowers

/-! What jobs and passes keep of the room between whole towers. -/

namespace Hosk

namespace Index

variable {index index' old : Index} {seen seen' : Finset Nat} {base i j key low high : Nat}
  {int : Int → Int} {raised : Bool}

theorem whole_congr (sameAt : ∀ i key, index'.LinkedAt i key ↔ index.LinkedAt i key) :
    index'.Whole base i key ↔ index.Whole base i key :=
  forall₃_congr fun j _ _ => sameAt j key

theorem Apart.rebase (apart : index.Apart seen) (rows : index'.rows = index.rows) (more : seen ⊆ seen')
    (known : ∀ entry ∈ index'.entries, entry.key ∈ seen')
    (whole : ∀ entry ∈ index'.entries, entry.marked = false → ∀ i, index.LinkedAt i entry.key →
      index.Whole 0 i entry.key) : index'.Apart seen' := by
  have sameAt : ∀ i key, index'.LinkedAt i key ↔ index.LinkedAt i key := by
    intro i key
    rw [LinkedAt, LinkedAt, rows]
  have grown : ∀ low high, (itemsBetween seen low high).card ≤ (itemsBetween seen' low high).card :=
    fun low high => itemsBetween_mono more
  refine ⟨known, ?_, ?_, ?_, ?_, ?_⟩
  · intro entry member unmarked i linkedAt
    rw [sameAt] at linkedAt
    rw [whole_congr sameAt]
    exact whole entry member unmarked i linkedAt
  · intro i j low high order lowAt highAt
    rw [sameAt] at lowAt highAt
    exact (apart.tall i j low high order lowAt highAt).trans (Nat.succ_le_succ (grown low high))
  · intro base i low high inside order wholeLow wholeHigh
    rw [whole_congr sameAt] at wholeLow wholeHigh
    exact (apart.apart base i low high inside order wholeLow wholeHigh).trans
      (Nat.succ_le_succ (grown low high))
  · intro base i torn key inside linkedAt notWhole wholeKey
    rw [sameAt] at linkedAt
    rw [whole_congr sameAt] at notWhole wholeKey
    exact apart.behind base i torn key inside linkedAt notWhole wholeKey
  · have more := Finset.card_le_card more
    rw [rows]
    exact apart.height.imp_right fun tall => tall.trans more

theorem Apart.trav (apart : index.Apart seen) (int : Int → Int) : (index.trav int).Apart seen := by
  have kept : ∀ entry ∈ (index.trav int).entries, entry ∈ index.entries :=
    fun entry member => List.mem_of_mem_filter member
  apply apart.rebase (trav_rows int index) (Finset.Subset.refl seen)
  · exact fun entry member => apart.known entry (kept entry member)
  · exact fun entry member => apart.whole entry (kept entry member)

theorem linkedAt_bottomRaised (nonempty : 0 < index.rows.length) :
    (index.bottomRaised int).LinkedAt i key ↔
      i = 0 ∧ key ∈ index.bottomKeys int ∨ (index.trav int).LinkedAt i key := by
  have isRow := List.getElem?_eq_getElem (show 0 < (index.trav int).rows.length by rwa [trav_rows])
  have isRaised := raise_row isRow (index.bottomKeys int) i
  have raisedAt : ((index.trav int).raise 0 (index.bottomKeys int)).LinkedAt i key ↔
      i = 0 ∧ key ∈ index.bottomKeys int ∨ (index.trav int).LinkedAt i key := by
    by_cases bottom : 0 = i
    · subst bottom
      rw [if_pos rfl] at isRaised
      rw [linkedAt_of_row isRaised, mem_insertKeys, linkedAt_of_row isRow]
      simp
    · rw [if_neg bottom] at isRaised
      rw [LinkedAt, List.getD_eq_getElem?_getD, isRaised, ← List.getD_eq_getElem?_getD]
      simp [Ne.symm bottom, LinkedAt]
  rw [Index.bottomRaised]
  split
  · rw [linkedAt_grow, raisedAt]
  · exact raisedAt

theorem bottomKeys_eq (linked : index.Linked) (int : Int → Int) : index.bottomKeys int =
    raisedI (levelOf (index.trav int).entries) (fun _ => false) 0 (index.trav int).rows.length
      ((index.trav int).entries.map Entry.key) :=
  raisedM_eq _ fun _ => levelOf_mem (linked.trav int).sorted

theorem Apart.seen_trav (apart : index.Apart seen)
    (member : key ∈ (index.trav int).entries.map Entry.key) : key ∈ seen := by
  obtain ⟨entry, inEntries, rfl⟩ := List.mem_map.mp member
  exact (apart.trav int).known entry inEntries

section Bottom

variable (linked : index.Linked) (apart : index.Apart seen) (nonempty : 0 < index.rows.length)
include linked apart nonempty

theorem bottom_room (order : low < high) (lowAt : (index.bottomRaised int).LinkedAt i low)
    (highAt : (index.bottomRaised int).LinkedAt j high) :
    2 ≤ (itemsBetween seen low high).card + 1 := by
  have travelled := linked.trav int
  have ascending : ((index.trav int).entries.map Entry.key).Pairwise (· < ·) :=
    List.pairwise_map.mpr travelled.sorted
  have tall : 0 < (index.trav int).rows.length := by rwa [trav_rows]
  have listed : ∀ {i key}, (index.trav int).LinkedAt i key →
      key ∈ (index.trav int).entries.map Entry.key := by
    intro i key linkedAt
    obtain ⟨entry, inEntries, rfl, _⟩ := travelled.entry_at linkedAt
    exact List.mem_map_of_mem inEntries
  have isTall : ∀ {i key}, (index.trav int).LinkedAt i key →
      0 < levelOf (index.trav int).entries key :=
    fun linkedAt => Nat.zero_lt_of_lt (travelled.level_at linkedAt)
  have room : ∀ middle ∈ (index.trav int).entries.map Entry.key, low < middle → middle < high →
      2 ≤ (itemsBetween seen low high).card + 1 := by
    intro middle member above below
    have isSeen := apart.seen_trav member
    have positive := Finset.card_pos.mpr ⟨middle, mem_itemsBetween.mpr ⟨isSeen, above, below⟩⟩
    omega
  rw [linkedAt_bottomRaised nonempty, bottomKeys_eq linked] at lowAt highAt
  rcases highAt with ⟨_, raisedHigh⟩ | oldHigh
  · have lowHigh := lowAt.imp And.right isTall
    have inKeys := lowAt.elim (fun raised => (raisedI_sublist _ _ _ _ _).subset raised.2) listed
    obtain ⟨middle, member, above, below, _⟩ :=
      raised_apart_behind ascending tall raisedHigh inKeys order rfl lowHigh
    exact room middle member above below
  · rcases lowAt with ⟨_, raisedLow⟩ | oldLow
    · obtain ⟨middle, member, above, below, _⟩ := raised_apart_before ascending raisedLow
        (listed oldHigh) order (isTall oldHigh)
      exact room middle member above below
    · exact (apart.trav int).tall i j low high order oldLow oldHigh

theorem bottom_grows (some : index.bottomKeys int ≠ []) : 2 ≤ seen.card := by
  have ascending : ((index.trav int).entries.map Entry.key).Pairwise (· < ·) :=
    List.pairwise_map.mpr (linked.trav int).sorted
  have tall : 0 < (index.trav int).rows.length := by rwa [trav_rows]
  obtain ⟨high, isRaised⟩ := List.exists_mem_of_ne_nil _ some
  rw [bottomKeys_eq linked] at isRaised
  rcases raised_behind _ ascending isRaised with ⟨wrong, _⟩ | ⟨low, inKeys, order, _⟩
  · omega
  · have ends := itemsBetween_ends (apart.seen_trav inKeys)
      (apart.seen_trav ((raisedI_sublist _ _ _ _ _).subset isRaised)) order
    omega

theorem Midway.begin (int : Int → Int) :
    Midway (index.trav int) seen 0 (index.bottomRaised int) (!(index.bottomKeys int).isEmpty) := by
  have travelled := linked.trav int
  have marks : ∀ key, markedOf (index.bottomRaised int).entries key =
      markedOf (index.trav int).entries key := by
    intro key
    rw [bottomRaised_entries, markedOf_setLevels]
  have sameAt : ∀ i key, (index.bottomRaised int).LinkedAt i key ↔
      i = 0 ∧ key ∈ index.bottomKeys int ∨ (index.trav int).LinkedAt i key :=
    fun i key => linkedAt_bottomRaised nonempty
  refine ⟨linked.bottomRaised nonempty int, ?_, marks, ?_, ?_, ?_, ?_, ?_, ?_, ?_, ?_, ?_, ?_⟩
  · intro key member
    rw [bottomRaised_entries, setLevels_keys] at member
    exact apart.seen_trav member
  · intro i key above
    rw [sameAt]
    exact or_iff_right fun bottom => Nat.ne_of_gt above bottom.1
  · exact fun key oldAt => (sameAt 0 key).mpr (.inr oldAt)
  · intro i key linkedAt unmarked k first below
    rw [marks] at unmarked
    rcases (sameAt i key).mp linkedAt with ⟨rfl, isRaised⟩ | oldAt
    · exact (sameAt k key).mpr (.inl ⟨Nat.le_zero.mp below, isRaised⟩)
    · have whole := (apart.trav int).whole_at travelled oldAt unmarked
      exact (sameAt k key).mpr (.inr (whole k first below))
  · intro i key linkedAt new k _ oldAt
    obtain ⟨_, isRaised⟩ := ((sameAt i key).mp linkedAt).resolve_right new
    obtain ⟨entry, inEntries, rfl, ground⟩ := raisedM_ground isRaised
    obtain ⟨tall, inTall, same, level⟩ := travelled.entry_at oldAt
    rw [entry_of_key travelled.sorted inTall inEntries same] at level
    omega
  · exact fun i k low high order lowAt highAt =>
      bottom_room linked apart nonempty order lowAt highAt
  · intro base low high bottom order isLow isHigh _
    obtain rfl := Nat.le_zero.mp bottom
    exact bottom_room linked apart nonempty order isLow.1 isHigh.1
  · intro base i low high inside bottom order wholeLow wholeHigh
    obtain rfl := Nat.le_zero.mp bottom
    obtain rfl := Nat.le_zero.mp inside
    exact bottom_room linked apart nonempty order (wholeLow.here inside) (wholeHigh.here inside)
  · exact fun i key below => absurd below (Nat.not_lt_zero i)
  · rw [Index.bottomRaised]
    split
    · rename_i grows
      obtain ⟨some, single⟩ := grows
      have two := bottom_grows linked apart nonempty (show index.bottomKeys int ≠ [] by simpa using some)
      right
      rwa [Index.grow, List.length_append, single]
    · rw [Index.raise, List.length_modify, trav_rows]
      exact apart.height
  · intro some
    exact bottom_grows linked apart nonempty (show index.bottomKeys int ≠ [] by simpa using some)

end Bottom

theorem Midway.finish (mid : Midway old seen j index raised) (top : index.rows.length = j + 1) :
    (if raised then index.grow else index).Apart seen := by
  have sameAt : ∀ i key, (if raised then index.grow else index).LinkedAt i key ↔
      index.LinkedAt i key := by
    intro i key
    split
    · exact linkedAt_grow
    · exact Iff.rfl
  have entries : (if raised then index.grow else index).entries = index.entries := by
    split <;> rfl
  refine ⟨?_, ?_, ?_, ?_, ?_, ?_⟩
  · rw [entries]
    exact fun entry member => mid.known entry.key (List.mem_map_of_mem member)
  · rw [entries]
    intro entry member unmarked i linkedAt
    rw [sameAt] at linkedAt
    rw [whole_congr sameAt]
    apply mid.whole i entry.key linkedAt
    rwa [markedOf_mem mid.linked.sorted member]
  · intro i k low high order lowAt highAt
    rw [sameAt] at lowAt highAt
    exact mid.tall i k low high order lowAt highAt
  · intro base i low high inside order wholeLow wholeHigh
    rw [whole_congr sameAt] at wholeLow wholeHigh
    have bound := (wholeLow.here inside).bound
    exact mid.apart base i low high inside (by omega) order wholeLow wholeHigh
  · intro base i torn key inside linkedAt notWhole wholeKey
    rw [sameAt] at linkedAt
    rw [whole_congr sameAt] at notWhole wholeKey
    have bound := (wholeKey.here (Nat.le_succ_of_le inside)).bound
    have wholeBelow := wholeKey.part (Nat.le_refl base) (Nat.le_succ i)
    have isMarked : markedOf index.entries torn = true := by
      apply Bool.eq_true_of_not_eq_false
      intro unmarked
      exact notWhole ((mid.whole i torn linkedAt unmarked).part (Nat.zero_le base) (Nat.le_refl i))
    have order := mid.last i torn (by omega) linkedAt isMarked key (wholeBelow.here inside)
    have different : key ≠ torn := by
      rintro rfl
      exact notWhole wholeBelow
    omega
  · cases raised with
    | true =>
        right
        have enough := mid.grows rfl
        simp only [if_true, Index.grow, List.length_append, top]
        exact enough
    | false => exact mid.height

theorem Apart.raiseIndexLayer (apart : index.Apart seen) (linked : index.Linked)
    (nonempty : 0 < index.rows.length) (int : Int → Int) : (index.raiseIndexLayer int).Apart seen := by
  have filled := bottomRaised_nonempty int nonempty
  obtain ⟨mid, length⟩ := raiseRows_rule
    (motive := fun j (state : Index) raised => Midway (index.trav int) seen j state raised ∧
      state.rows.length = (index.bottomRaised int).rows.length)
    ((index.bottomRaised int).rows.length - 1) 0 (index.bottomRaised int)
    (!(index.bottomKeys int).isEmpty) ⟨Midway.begin linked apart nonempty int, rfl⟩ (by omega)
    (fun j state raised bound ⟨mid, length⟩ => ⟨mid.step (linked.trav int) (apart.trav int) bound,
      (raiseIlevel_length state j).trans length⟩)
  rw [raiseIndexLayer_eq]
  exact mid.finish (length.trans (by omega))

theorem linkedAt_lower : index.lower.LinkedAt i key ↔ index.LinkedAt (i + 1) key := by
  rw [LinkedAt, LinkedAt, Index.lower, List.getD_eq_getElem?_getD, List.getElem?_tail,
    ← List.getD_eq_getElem?_getD]

theorem whole_lower : index.lower.Whole base i key ↔ index.Whole (base + 1) (i + 1) key := by
  constructor
  · intro whole j above below
    cases j with
    | zero => omega
    | succ j => exact linkedAt_lower.mp (whole j (by omega) (by omega))
  · intro whole j above below
    exact linkedAt_lower.mpr (whole (j + 1) (by omega) (by omega))

/-- The lowest row goes: what is torn there only is whole again, with room enough. -/
theorem Apart.lower (apart : index.Apart seen) : index.lower.Apart seen := by
  have origin : ∀ entry ∈ index.lower.entries, ∃ old ∈ index.entries,
      old.key = entry.key ∧ old.marked = entry.marked := by
    intro entry member
    obtain ⟨old, inEntries, rfl⟩ := List.mem_map.mp member
    refine ⟨old, inEntries, ?_⟩
    split <;> exact ⟨rfl, rfl⟩
  refine ⟨?_, ?_, ?_, ?_, ?_, ?_⟩
  · intro entry member
    obtain ⟨old, inEntries, same, _⟩ := origin entry member
    exact same ▸ apart.known old inEntries
  · intro entry member unmarked i linkedAt
    obtain ⟨old, inEntries, same, sameMark⟩ := origin entry member
    rw [← same, linkedAt_lower] at linkedAt
    rw [← same, whole_lower]
    have whole := apart.whole old inEntries (sameMark.trans unmarked) (i + 1) linkedAt
    exact whole.part (Nat.zero_le _) (Nat.le_refl _)
  · intro i j low high order lowAt highAt
    rw [linkedAt_lower] at lowAt highAt
    exact apart.tall (i + 1) (j + 1) low high order lowAt highAt
  · intro base i low high inside order wholeLow wholeHigh
    rw [whole_lower] at wholeLow wholeHigh
    have room := apart.apart (base + 1) (i + 1) low high (by omega) order wholeLow wholeHigh
    rwa [Nat.add_sub_add_right] at room
  · intro base i torn key inside linkedAt notWhole wholeKey
    rw [linkedAt_lower] at linkedAt
    rw [whole_lower] at notWhole wholeKey
    exact apart.behind (base + 1) (i + 1) torn key (by omega) linkedAt notWhole wholeKey
  · rw [Index.lower, List.length_tail]
    rcases apart.height with low | tall
    · left
      omega
    · by_cases flat : index.rows.length - 1 ≤ 1
      · exact .inl flat
      · right
        have fewer : 2 ^ (index.rows.length - 1 - 2) ≤ 2 ^ (index.rows.length - 2) :=
          Nat.pow_le_pow_right Nat.two_pos (by omega)
        omega

theorem Apart.job (apart : index.Apart seen) (job : Job)
    (untorn : job.node ≠ 0 → ∀ i, index.LinkedAt (i + 1) job.key → index.LinkedAt i job.key) :
    (index.updateIntermediateLayer job).Apart (insert job.key seen) := by
  have rows : (index.updateIntermediateLayer job).rows = index.rows := rfl
  apply apart.rebase rows (Finset.subset_insert job.key seen)
  · intro entry member
    rcases applyJob_origin member with old | ⟨same, _⟩
    · exact Finset.mem_insert_of_mem (apart.known entry old)
    · rw [same]
      exact Finset.mem_insert_self job.key seen
  · intro entry member unmarked i linkedAt
    rcases applyJob_origin member with old | ⟨same, isMarked, _⟩
    · exact apart.whole entry old unmarked i linkedAt
    · have inserts : job.node ≠ 0 := by
        rw [unmarked] at isMarked
        exact of_decide_eq_false isMarked.symm
      rw [same] at linkedAt ⊢
      intro k _ below
      induction below with
      | refl => exact linkedAt
      | step _ ih => exact ih (untorn inserts _ linkedAt)

theorem single_apart (index : Index) (rows : index.rows = [[]])
    (known : ∀ entry ∈ index.entries, entry.key ∈ seen) : index.Apart seen := by
  have none : ∀ i key, ¬ index.LinkedAt i key := by
    intro i key linkedAt
    obtain ⟨row, located, member⟩ := linkedAt.located
    rw [rows] at located
    rw [List.mem_singleton.mp (List.mem_of_getElem? located)] at member
    exact List.not_mem_nil member
  refine ⟨known, ?_, ?_, ?_, ?_, ?_⟩
  · exact fun entry _ _ i linkedAt => absurd linkedAt (none i _)
  · exact fun i _ low _ _ lowAt => absurd lowAt (none i low)
  · exact fun _ i low _ inside _ wholeLow => absurd (wholeLow.here inside) (none i low)
  · exact fun _ i torn _ _ linkedAt => absurd linkedAt (none i torn)
  · left
    rw [rows]
    exact Nat.le_refl 1

theorem Apart.reset (apart : index.Apart seen) : index.reset.Apart seen := by
  apply single_apart _ rfl
  intro entry member
  obtain ⟨old, inEntries, rfl⟩ := List.mem_map.mp member
  exact apart.known old inEntries

end Index

end Hosk
