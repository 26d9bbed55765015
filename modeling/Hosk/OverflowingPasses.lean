import Hosk.ShortenedIndex

/-! The height that passes bring an index to where `non_del` may overflow on the way. -/

namespace Hosk

/-- Tenfold `non_del` is a negative `int` once all listed mnodes have been counted so often. -/
def Overflows (nonDel : Int) (listed count : Nat) : Prop :=
  ((nonDel + count * listed) * 10).bmod (2 ^ 32) < 0

instance (nonDel : Int) (listed count : Nat) : Decidable (Overflows nonDel listed count) :=
  inferInstanceAs (Decidable (_ < _))

def overflows (nonDel : Int) (listed passes : Nat) : Nat :=
  (List.range passes).countP fun i => Overflows nonDel listed (i + 1)

/-- One level for each pass beside the first two, up to the logarithm, without those that are lost. -/
def levelLeft (nonDel : Int) (listed passes : Nat) : Nat :=
  min (passes + 2) (Nat.log 2 (listed + 1)) - overflows nonDel listed passes

theorem overflows_succ (nonDel : Int) (listed passes : Nat) : overflows nonDel listed (passes + 1) =
    overflows nonDel listed passes + if Overflows nonDel listed (passes + 1) then 1 else 0 := by
  rw [overflows, List.range_succ, List.countP_append, ← overflows]
  simp

namespace Index

structure Counted (nonDel : Int) (listed passes : Nat) (index : Index) : Prop where
  nonDel : index.nonDel.bmod (2 ^ 32) = (nonDel + passes * listed).bmod (2 ^ 32)
  noneTall : index.tallDel = 0

variable {platform : Platform} {nonDel : Int} {listed passes : Nat} {index : Index}

theorem counts_wrap (wraps : platform.Wraps32) (entries : List Entry) : ∀ index : Index,
    (∀ entry ∈ entries, entry.marked = false) →
    (entries.foldl (count platform.int) index).nonDel.bmod (2 ^ 32) =
        (index.nonDel + entries.length).bmod (2 ^ 32) ∧
      (entries.foldl (count platform.int) index).tallDel = index.tallDel := by
  induction entries with
  | nil => exact fun index _ => ⟨congrArg (Int.bmod · (2 ^ 32)) (Int.add_zero _).symm, rfl⟩
  | cons entry rest ih =>
      intro index unmarked
      have counts : count platform.int index entry =
          { index with nonDel := platform.int (index.nonDel + 1) } :=
        if_pos (unmarked entry List.mem_cons_self)
      obtain ⟨nonDel, tallDel⟩ := ih (count platform.int index entry) fun other member =>
        unmarked other (List.mem_cons_of_mem _ member)
      rw [List.foldl_cons]
      refine ⟨nonDel.trans ?_, tallDel.trans (by rw [counts])⟩
      rw [counts, wraps, Int.bmod_add_bmod, List.length_cons]
      congr 1
      omega

theorem Counted.raised (wraps : platform.Wraps32) (counted : Counted nonDel listed passes index)
    (unmarked : ∀ entry ∈ index.entries, entry.marked = false) (length : index.entries.length = listed) :
    Counted nonDel listed (passes + 1) (index.raiseIndexLayer platform.int) := by
  have kept : index.entries.filter Entry.stays = index.entries := by
    apply List.filter_eq_self.mpr
    intro entry member
    simp [Entry.stays, unmarked entry member]
  obtain ⟨sameNon, sameTall⟩ := raiseIndexLayer_counters platform.int index
  rw [Index.trav, kept] at sameNon sameTall
  obtain ⟨nonDel', tallDel'⟩ := counts_wrap wraps index.entries index unmarked
  refine ⟨?_, sameTall.trans (tallDel'.trans counted.noneTall)⟩
  rw [sameNon]
  refine nonDel'.trans ?_
  rw [length, ← Int.bmod_add_bmod, counted.nonDel, Int.bmod_add_bmod, Int.natCast_add, Int.add_mul]
  congr 1
  omega

theorem Counted.lowers_iff (wraps : platform.Wraps32) (counted : Counted nonDel listed passes index) :
    index.lowers platform.int = true ↔ Overflows nonDel listed passes ∧ 2 ≤ index.rows.length := by
  have product : (index.nonDel * 10).bmod (2 ^ 32) = ((nonDel + passes * listed) * 10).bmod (2 ^ 32) := by
    rw [← Int.bmod_mul_bmod, counted.nonDel, Int.bmod_mul_bmod]
  rw [Index.lowers, wraps, product, counted.noneTall, Bool.and_eq_true, decide_eq_true_eq,
    decide_eq_true_eq]
  exact Iff.rfl

theorem Counted.lower (counted : Counted nonDel listed passes index) :
    Counted nonDel listed passes index.lower := ⟨counted.nonDel, counted.noneTall⟩

/-- What so many passes have left: as many rows as the level says, or none once there was none. -/
def LeftAfter (keys : List Nat) (nonDel : Int) (passes : Nat) (index : Index) : Prop :=
  (∀ count, 1 ≤ count → count ≤ passes → 2 ≤ levelLeft nonDel keys.length count) ∧
      Shortened keys (overflows nonDel keys.length passes) (levelLeft nonDel keys.length passes - 1) index ∨
    (∃ count, 1 ≤ count ∧ count ≤ passes ∧ levelLeft nonDel keys.length count ≤ 1) ∧
      ∃ lost, Shortened keys lost 0 index

/-- A pass that found so many rows filled, with those that are lost. -/
theorem LeftAfter.decided (wraps : platform.Wraps32) {keys : List Nat}
    (before : ∀ count, 1 ≤ count → count ≤ passes → 2 ≤ levelLeft nonDel keys.length count)
    (counted : Counted nonDel keys.length (passes + 1) index)
    (shortened : Shortened keys (overflows nonDel keys.length passes)
      (min (passes + 3) (Nat.log 2 (keys.length + 1)) - 1 - overflows nonDel keys.length passes) index) :
    LeftAfter keys nonDel (passes + 1) (if index.lowers platform.int then index.lower else index) := by
  generalize isLost : overflows nonDel keys.length passes = lost at shortened
  have more := overflows_succ nonDel keys.length passes
  have level : levelLeft nonDel keys.length (passes + 1) =
    min (passes + 3) (Nat.log 2 (keys.length + 1)) - overflows nonDel keys.length (passes + 1) := rfl
  have all : 2 ≤ levelLeft nonDel keys.length (passes + 1) → ∀ count, 1 ≤ count → count ≤ passes + 1 →
      2 ≤ levelLeft nonDel keys.length count := by
    intro last count positive bound
    rcases Nat.le_succ_iff.mp bound with earlier | rfl
    · exact before count positive earlier
    · exact last
  have decision := counted.lowers_iff wraps
  rw [shortened.rows_length] at decision
  rw [isLost] at more
  by_cases lowers : index.lowers platform.int = true
  · obtain ⟨overflow, wide⟩ := decision.mp lowers
    rw [if_pos overflow] at more
    rw [if_pos lowers]
    obtain ⟨rows, isRows⟩ : ∃ rows, min (passes + 3) (Nat.log 2 (keys.length + 1)) - 1 - lost = rows + 1 :=
      ⟨min (passes + 3) (Nat.log 2 (keys.length + 1)) - 1 - lost - 1, by omega⟩
    rw [isRows] at shortened
    have lowered := shortened.lower
    rw [more] at level
    by_cases gone : rows = 0
    · right
      subst gone
      exact ⟨⟨passes + 1, by omega, Nat.le_refl _, by omega⟩, lost + 1, lowered⟩
    · left
      refine ⟨all (by omega), ?_⟩
      rw [more, show levelLeft nonDel keys.length (passes + 1) - 1 = rows by omega]
      exact lowered
  · rw [if_neg lowers]
    by_cases gone : min (passes + 3) (Nat.log 2 (keys.length + 1)) - 1 - lost = 0
    · right
      rw [gone] at shortened
      exact ⟨⟨passes + 1, by omega, Nat.le_refl _, by omega⟩, lost, shortened⟩
    · left
      have fits : ¬ Overflows nonDel keys.length (passes + 1) :=
        fun overflow => lowers (decision.mpr ⟨overflow, by omega⟩)
      rw [if_neg fits, Nat.add_zero] at more
      rw [more] at level
      refine ⟨all (by omega), ?_⟩
      rw [more, level, Nat.sub_right_comm]
      exact shortened

theorem Stacked.firstPass (wraps : platform.Wraps32) {base : List Entry}
    (stacked : Stacked base 0 index) (sorted : base.Pairwise fun x y => x.key < y.key)
    (unmarked : ∀ entry ∈ base, entry.marked = false) (noneTall : index.tallDel = 0) :
    Counted index.nonDel (base.map Entry.key).length 1 (index.updateIndexLayer platform.int) ∧
      LeftAfter (base.map Entry.key) index.nonDel 1 (index.updateIndexLayer platform.int) := by
  have begun : Counted index.nonDel (base.map Entry.key).length 0 index := by
    refine ⟨?_, noneTall⟩
    congr 1
    omega
  have noMark := levelled_unmarked unmarked 0
  have length := congrArg List.length stacked.entries
  rw [← stacked.entries] at noMark
  have counted := begun.raised wraps noMark (by rw [length, levelled, List.length_map, List.length_map])
  have first := stacked.first sorted unmarked platform.int
  have left : LeftAfter (base.map Entry.key) index.nonDel 1 (index.updateIndexLayer platform.int) := by
    refine LeftAfter.decided wraps (fun count positive bound => absurd bound (by omega)) counted ?_
    have none : overflows index.nonDel (base.map Entry.key).length 0 = 0 := rfl
    rwa [none, show min (0 + 3) (Nat.log 2 ((base.map Entry.key).length + 1)) - 1 - 0 =
      min 2 (Nat.log 2 ((base.map Entry.key).length + 1) - 1) by omega]
  refine ⟨?_, left⟩
  rw [Index.updateIndexLayer]
  split
  · exact counted.lower
  · exact counted

theorem LeftAfter.pass (wraps : platform.Wraps32) {keys : List Nat} (some : 1 ≤ passes)
    (counted : Counted nonDel keys.length passes index) (left : LeftAfter keys nonDel passes index) :
    Counted nonDel keys.length (passes + 1) (index.updateIndexLayer platform.int) ∧
      LeftAfter keys nonDel (passes + 1) (index.updateIndexLayer platform.int) := by
  have counts : ∀ lost rows, Shortened keys lost rows index →
      Counted nonDel keys.length (passes + 1) (index.raiseIndexLayer platform.int) := by
    intro lost rows shortened
    apply counted.raised wraps shortened.unmarked
    rw [← shortened.listed, List.length_map]
  have decided : Counted nonDel keys.length (passes + 1) (index.raiseIndexLayer platform.int) →
      Counted nonDel keys.length (passes + 1) (index.updateIndexLayer platform.int) := by
    intro counted
    rw [Index.updateIndexLayer]
    split
    · exact counted.lower
    · exact counted
  rcases left with ⟨before, shortened⟩ | ⟨⟨count, positive, bound, gone⟩, lost, shortened⟩
  · have counted' := counts _ _ shortened
    have last := before passes some (Nat.le_refl passes)
    have level : levelLeft nonDel keys.length passes =
      min (passes + 2) (Nat.log 2 (keys.length + 1)) - overflows nonDel keys.length passes := rfl
    refine ⟨decided counted', LeftAfter.decided wraps before counted' ?_⟩
    have raised := shortened.pass (by omega) (by omega) platform.int
    rwa [show min (levelLeft nonDel keys.length passes - 1 + 1)
        (Nat.log 2 (keys.length + 1) - 1 - overflows nonDel keys.length passes) =
      min (passes + 3) (Nat.log 2 (keys.length + 1)) - 1 - overflows nonDel keys.length passes by
        omega] at raised
  · have counted' := counts _ _ shortened
    have stays := shortened.stuck platform.int
    have narrow : ¬ (index.raiseIndexLayer platform.int).lowers platform.int = true := by
      intro lowers
      have wide := ((counted'.lowers_iff wraps).mp lowers).2
      rw [stays.rows_length] at wide
      omega
    refine ⟨decided counted', .inr ⟨⟨count, positive, Nat.le_succ_of_le bound, gone⟩, lost, ?_⟩⟩
    rw [Index.updateIndexLayer, if_neg narrow]
    exact stays

/-- Passes over an index in which nothing is raised yet. -/
theorem Stacked.afterPasses (wraps : platform.Wraps32) {base : List Entry}
    (stacked : Stacked base 0 index) (sorted : base.Pairwise fun x y => x.key < y.key)
    (unmarked : ∀ entry ∈ base, entry.marked = false) (noneTall : index.tallDel = 0) (more : Nat) :
    Counted index.nonDel (base.map Entry.key).length (more + 1)
        ((List.replicate (more + 1) Call.pass).foldl (Index.call platform.int) index) ∧
      LeftAfter (base.map Entry.key) index.nonDel (more + 1)
        ((List.replicate (more + 1) Call.pass).foldl (Index.call platform.int) index) := by
  induction more with
  | zero => exact stacked.firstPass wraps sorted unmarked noneTall
  | succ more ih =>
      obtain ⟨counted, left⟩ := ih
      rw [List.replicate_succ', List.foldl_append]
      exact left.pass wraps (Nat.succ_pos more) counted

theorem LeftAfter.length_iff {keys : List Nat} (left : LeftAfter keys nonDel passes index)
    {height : Nat} (atLeast : 2 ≤ height) (some : 1 ≤ passes) : height ≤ index.rows.length ↔
      height ≤ levelLeft nonDel keys.length passes ∧
        ∀ count, 1 ≤ count → count < passes → 2 ≤ levelLeft nonDel keys.length count := by
  rcases left with ⟨before, shortened⟩ | ⟨⟨count, positive, bound, gone⟩, lost, shortened⟩
  · have last := before passes some (Nat.le_refl passes)
    rw [shortened.rows_length, Nat.sub_add_cancel (by omega)]
    exact ⟨fun high => ⟨high, fun count positive earlier => before count positive (Nat.le_of_lt earlier)⟩,
      And.left⟩
  · rw [shortened.rows_length]
    constructor
    · omega
    · rintro ⟨high, before⟩
      rcases Nat.lt_or_eq_of_le bound with earlier | rfl
      · exact absurd gone (Nat.not_le.mpr (before count positive earlier))
      · omega

end Index

end Hosk
