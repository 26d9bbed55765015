import Hosk.RaisedEvenly

/-! What stands between the keys that are raised from a row, and between them and the higher ones. -/

namespace Hosk

section Row

variable {level : Nat → Nat} {marked : Nat → Bool} {height : Nat}

theorem raisedI_unmarked {key : Nat} (row : List Nat) : ∀ {prev : Nat},
    key ∈ raisedI level marked height prev row → marked key = false := by
  induction row with
  | nil => exact fun raised => absurd raised List.not_mem_nil
  | cons index rest ih =>
      intro prev raised
      cases rest with
      | nil => exact absurd raised List.not_mem_nil
      | cons inext rest =>
          rw [raisedI] at raised
          by_cases isMarked : marked index = true
          · rw [if_pos isMarked] at raised
            exact ih raised
          · rw [if_neg isMarked] at raised
            split at raised
            · rcases List.mem_cons.mp raised with rfl | later
              · exact Bool.eq_false_of_not_eq_true isMarked
              · exact ih later
            · exact ih raised

theorem raised_behind {key : Nat} (row : List Nat) : ∀ {prev : Nat}, row.Pairwise (· < ·) →
    key ∈ raisedI level marked height prev row →
    prev ≤ height ∧ (∀ other ∈ row, other < key → marked other = true) ∨
      ∃ before ∈ row, before < key ∧ marked before = false ∧ level before ≤ height ∧
        before ∉ raisedI level marked height prev row ∧
        ∀ other ∈ row, other < key → marked other = false → other ≤ before := by
  induction row with
  | nil => exact fun _ raised => absurd raised List.not_mem_nil
  | cons index rest ih =>
      intro prev ascending raised
      cases rest with
      | nil => exact absurd raised List.not_mem_nil
      | cons inext rest =>
          obtain ⟨first, ascendingRest⟩ := List.pairwise_cons.mp ascending
          have fresh : ∀ prev, index ∉ raisedI level marked height prev (inext :: rest) :=
            fun prev again =>
              lt_irrefl _ (first index ((Index.raisedI_sublist _ _ _ prev _).subset again))
          rw [raisedI] at raised ⊢
          by_cases isMarked : marked index = true
          · rw [if_pos isMarked] at raised ⊢
            rcases ih ascendingRest raised with ⟨low, allMarked⟩ | ⟨before, inRest, facts⟩
            · refine .inl ⟨low, fun other member less => ?_⟩
              rcases List.mem_cons.mp member with rfl | inRest
              · exact isMarked
              · exact allMarked other inRest less
            · obtain ⟨less, unmarked, low, stays, last⟩ := facts
              refine .inr ⟨before, List.mem_cons_of_mem _ inRest, less, unmarked, low, stays, ?_⟩
              intro other member lessOther notMarked
              rcases List.mem_cons.mp member with rfl | inRest'
              · exact absurd isMarked (by rw [notMarked]; exact Bool.false_ne_true)
              · exact last other inRest' lessOther notMarked
          · rw [if_neg isMarked] at raised ⊢
            have onward : ∀ before ∈ inext :: rest,
                (∀ other ∈ inext :: rest, other < key → marked other = false → other ≤ before) →
                ∀ other ∈ index :: inext :: rest, other < key → marked other = false →
                  other ≤ before := by
              intro before inRest last other member less unmarked
              rcases List.mem_cons.mp member with rfl | inRest'
              · exact Nat.le_of_lt (first before inRest)
              · exact last other inRest' less unmarked
            split at raised
            · rename_i low
              rw [if_pos low]
              rcases List.mem_cons.mp raised with rfl | later
              · refine .inl ⟨low.1, fun other member less => ?_⟩
                rcases List.mem_cons.mp member with rfl | inRest
                · exact absurd less (lt_irrefl _)
                · exact absurd less (lt_asymm (first other inRest))
              · rcases ih ascendingRest later with ⟨wrong, _⟩ | ⟨before, inRest, facts⟩
                · omega
                · obtain ⟨less, unmarked, lowBefore, stays, last⟩ := facts
                  refine .inr ⟨before, List.mem_cons_of_mem _ inRest, less, unmarked, lowBefore, ?_,
                    onward before inRest last⟩
                  intro again
                  rcases List.mem_cons.mp again with rfl | again
                  · exact lt_irrefl _ (first before inRest)
                  · exact stays again
            · rename_i notLow
              rw [if_neg notLow]
              have inside : key ∈ inext :: rest :=
                (Index.raisedI_sublist _ _ _ _ _).subset raised
              rcases ih ascendingRest raised with ⟨low, allMarked⟩ | ⟨before, inRest, facts⟩
              · refine .inr ⟨index, List.mem_cons_self, first key inside,
                  Bool.eq_false_of_not_eq_true isMarked, low, fresh _, ?_⟩
                intro other member less unmarked
                rcases List.mem_cons.mp member with rfl | inRest
                · exact Nat.le_refl _
                · have isOther := allMarked other inRest less
                  exact absurd isOther (by rw [unmarked]; exact Bool.false_ne_true)
              · obtain ⟨less, unmarked, low, stays, last⟩ := facts
                exact .inr ⟨before, List.mem_cons_of_mem _ inRest, less, unmarked, low, stays,
                  onward before inRest last⟩

theorem raised_before {key : Nat} (row : List Nat) : ∀ {prev : Nat}, row.Pairwise (· < ·) →
    key ∈ raisedI level marked height prev row →
    ∃ behind ∈ row, key < behind ∧ level behind ≤ height ∧ ∀ other ∈ row, key < other → behind ≤ other := by
  induction row with
  | nil => exact fun _ raised => absurd raised List.not_mem_nil
  | cons index rest ih =>
      intro prev ascending raised
      cases rest with
      | nil => exact absurd raised List.not_mem_nil
      | cons inext rest =>
          obtain ⟨first, ascendingRest⟩ := List.pairwise_cons.mp ascending
          have later : ∀ {prev : Nat}, key ∈ raisedI level marked height prev (inext :: rest) →
              ∃ behind ∈ index :: inext :: rest, key < behind ∧ level behind ≤ height ∧
                ∀ other ∈ index :: inext :: rest, key < other → behind ≤ other := by
            intro prev again
            obtain ⟨behind, inRest, less, low, next⟩ := ih ascendingRest again
            have inside := (Index.raisedI_sublist _ _ _ _ _).subset again
            refine ⟨behind, List.mem_cons_of_mem _ inRest, less, low, fun other member more => ?_⟩
            rcases List.mem_cons.mp member with rfl | inRest'
            · exact absurd more (lt_asymm (first key inside))
            · exact next other inRest' more
          rw [raisedI] at raised
          split at raised
          · exact later raised
          · split at raised
            · rename_i low
              rcases List.mem_cons.mp raised with rfl | again
              · have isNext := List.mem_cons_self (a := inext) (l := rest)
                refine ⟨inext, List.mem_cons_of_mem _ isNext, first inext isNext, low.2.2, ?_⟩
                intro other member more
                rcases List.mem_cons.mp member with rfl | inRest
                · exact absurd more (lt_irrefl _)
                · rcases List.mem_cons.mp inRest with rfl | inRest
                  · exact Nat.le_refl _
                  · exact Nat.le_of_lt ((List.pairwise_cons.mp ascendingRest).1 other inRest)
              · exact later again
            · exact later raised

variable {row : List Nat} {prev key other : Nat}

theorem raised_apart_behind (ascending : row.Pairwise (· < ·)) (tall : height < prev)
    (raised : key ∈ raisedI level marked height prev row) (member : other ∈ row) (less : other < key)
    (unmarked : marked other = false)
    (high : other ∈ raisedI level marked height prev row ∨ height < level other) :
    ∃ middle ∈ row, other < middle ∧ middle < key ∧ marked middle = false := by
  rcases raised_behind row ascending raised with ⟨low, _⟩ | ⟨before, inRow, facts⟩
  · omega
  · obtain ⟨lessBefore, unmarkedBefore, low, stays, last⟩ := facts
    refine ⟨before, inRow, Nat.lt_of_le_of_ne (last other member less unmarked) ?_, lessBefore,
      unmarkedBefore⟩
    rintro rfl
    rcases high with again | tallOther
    · exact stays again
    · omega

theorem raised_apart_before (ascending : row.Pairwise (· < ·))
    (raised : key ∈ raisedI level marked height prev row) (member : other ∈ row) (more : key < other)
    (high : height < level other) :
    ∃ middle ∈ row, key < middle ∧ middle < other ∧ level middle ≤ height := by
  obtain ⟨behind, inRow, less, low, next⟩ := raised_before row ascending raised
  refine ⟨behind, inRow, less, Nat.lt_of_le_of_ne (next other member more) ?_, low⟩
  rintro rfl
  omega

theorem dropMarked_keeps (row : List Nat) : ∀ {skipping : Bool}, key ∈ row → marked key = false →
    key ∈ dropMarked marked skipping row := by
  induction row with
  | nil => exact fun member => absurd member List.not_mem_nil
  | cons index rest ih =>
      intro skipping member unmarked
      cases rest with
      | nil =>
          obtain rfl := List.mem_singleton.mp member
          rw [dropMarked, unmarked, Bool.and_false, if_neg Bool.false_ne_true]
          exact List.mem_cons_self
      | cons inext rest =>
          rw [dropMarked]
          rcases List.mem_cons.mp member with rfl | inRest
          · rw [unmarked, if_neg Bool.false_ne_true]
            exact List.mem_cons_self
          · split
            · exact ih inRest unmarked
            · exact List.mem_cons_of_mem _ (ih inRest unmarked)

theorem dropMarked_last (row : List Nat) : ∀ {skipping : Bool}, row.Pairwise (· < ·) →
    key ∈ dropMarked marked skipping row → marked key = true → ∀ other ∈ row, other ≤ key := by
  induction row with
  | nil => exact fun _ left => absurd left List.not_mem_nil
  | cons index rest ih =>
      intro skipping ascending left isMarked
      have inside := (Index.dropMarked_sublist marked skipping _).subset left
      cases rest with
      | nil =>
          obtain rfl := List.mem_singleton.mp inside
          exact fun other member => Nat.le_of_eq (List.mem_singleton.mp member)
      | cons inext rest =>
          obtain ⟨first, ascendingRest⟩ := List.pairwise_cons.mp ascending
          have later : ∀ {skipping : Bool}, key ∈ dropMarked marked skipping (inext :: rest) →
              ∀ other ∈ index :: inext :: rest, other ≤ key := by
            intro skipping again other member
            have inRest := (Index.dropMarked_sublist marked skipping _).subset again
            rcases List.mem_cons.mp member with rfl | member
            · exact Nat.le_of_lt (first key inRest)
            · exact ih ascendingRest again isMarked other member
          rw [dropMarked] at left
          split at left
          · exact later left
          · rename_i notMarked
            rcases List.mem_cons.mp left with rfl | again
            · exact absurd isMarked notMarked
            · exact later again

end Row

end Hosk
