import Hosk.LinkedRows

/-! What the sliding window of `bg_raise_ilevel` leaves unraised in a row. -/

namespace Hosk

theorem infix_tail {α : Type} {part rest : List α} {head : α} (inside : part <:+: rest) :
    part <:+: head :: rest :=
  inside.trans (List.suffix_cons head rest).isInfix

theorem right_neighbour_unique {α : Type} {item first second : α} {list : List α}
    (nodup : list.Nodup) (left : [item, first] <:+: list) (right : [item, second] <:+: list) :
    first = second := by
  induction list with
  | nil => exact absurd (List.infix_nil.mp left) (List.cons_ne_nil _ _)
  | cons head rest ih =>
      obtain ⟨fresh, nodupRest⟩ := List.nodup_cons.mp nodup
      have inRest : ∀ {other : α}, [item, other] <:+: rest → item ∈ rest :=
        fun inside => inside.subset List.mem_cons_self
      rcases List.infix_cons_iff.mp left with leftFirst | leftRest <;>
        rcases List.infix_cons_iff.mp right with rightFirst | rightRest
      · obtain ⟨_, leftFirst⟩ := List.cons_prefix_cons.mp leftFirst
        obtain ⟨_, rightFirst⟩ := List.cons_prefix_cons.mp rightFirst
        obtain ⟨_, rfl⟩ := leftFirst
        obtain ⟨_, same⟩ := rightFirst
        exact ((List.cons.inj same).1).symm
      · obtain ⟨rfl, _⟩ := List.cons_prefix_cons.mp leftFirst
        exact absurd (inRest rightRest) fresh
      · obtain ⟨rfl, _⟩ := List.cons_prefix_cons.mp rightFirst
        exact absurd (inRest leftRest) fresh
      · exact ih nodupRest leftRest rightRest

section Window

variable {level : Nat → Nat} {marked : Nat → Bool} {height : Nat}

theorem first_kept_raised {middle next : Nat} {kept : List Nat} (row : List Nat) :
    ∀ {prev : Nat} {skipping : Bool}, prev ≤ height →
      dropMarked marked skipping row = middle :: next :: kept → level middle ≤ height →
      (∀ behind, [middle, behind] <:+: row → level behind ≤ height) →
      middle ∈ raisedI level marked height prev row := by
  induction row with
  | nil => exact fun _ keeps _ _ => absurd keeps.symm (List.cons_ne_nil _ _)
  | cons index rest ih =>
      intro prev skipping low keeps lowMiddle lowBehind
      cases rest with
      | nil =>
          rw [dropMarked] at keeps
          split at keeps
          · exact absurd keeps.symm (List.cons_ne_nil _ _)
          · exact absurd (List.cons.inj keeps).2.symm (List.cons_ne_nil _ _)
      | cons inext rest =>
          rw [dropMarked] at keeps
          rw [raisedI]
          by_cases isMarked : marked index = true
          · rw [if_pos isMarked] at keeps ⊢
            exact ih low keeps lowMiddle fun behind inside => lowBehind behind (infix_tail inside)
          · rw [if_neg isMarked] at keeps ⊢
            obtain ⟨rfl, _⟩ := List.cons.inj keeps
            have lowNext := lowBehind inext (List.prefix_append [index, inext] rest).isInfix
            rw [if_pos ⟨low, lowMiddle, lowNext⟩]
            exact List.mem_cons_self

/-- A bare window that is left has a tall inode behind its middle one in the row as it was. -/
theorem window_raised {first middle last : Nat} (row : List Nat) :
    ∀ {prev : Nat} {skipping : Bool},
      [first, middle, last] <:+: dropMarked marked skipping row →
      level first ≤ height → level middle ≤ height →
      (∀ behind, [middle, behind] <:+: row → level behind ≤ height) →
      first ∈ raisedI level marked height prev row ∨
        middle ∈ raisedI level marked height prev row := by
  induction row with
  | nil =>
      intro prev skipping window
      exact absurd (List.infix_nil.mp window) (List.cons_ne_nil _ _)
  | cons index rest ih =>
      intro prev skipping window lowFirst lowMiddle lowBehind
      cases rest with
      | nil =>
          have short := window.length_le.trans (Index.dropMarked_sublist marked skipping [index]).length_le
          exact absurd short (by simp)
      | cons inext rest =>
          have later := fun behind (inside : [middle, behind] <:+: inext :: rest) =>
            lowBehind behind (infix_tail inside)
          rw [dropMarked] at window
          rw [raisedI]
          by_cases isMarked : marked index = true
          · rw [if_pos isMarked] at window ⊢
            exact ih window lowFirst lowMiddle later
          · rw [if_neg isMarked] at window ⊢
            split
            · rcases List.infix_cons_iff.mp window with isFirst | inRest
              · obtain ⟨rfl, _⟩ := List.cons_prefix_cons.mp isFirst
                exact .inl List.mem_cons_self
              · exact (ih inRest lowFirst lowMiddle later).imp (List.mem_cons_of_mem _)
                  (List.mem_cons_of_mem _)
            · rcases List.infix_cons_iff.mp window with isFirst | inRest
              · obtain ⟨rfl, kept, isKept⟩ := List.cons_prefix_cons.mp isFirst
                exact .inr (first_kept_raised _ lowFirst isKept.symm lowMiddle later)
              · exact ih inRest lowFirst lowMiddle later

end Window

end Hosk
