import Hosk.RandRange

/-! The share of effective updates, which `get_unext` holds below the rate that is asked for. -/

namespace Hosk

namespace AppRes

def effectives (r : AppRes) : Nat := r.added + r.removed

def operations (r : AppRes) : Nat := r.add + r.remove + r.contains

/-- No more effective updates than the rate allows, but for one operation. -/
def Shared (update : Nat) (r : AppRes) : Prop := 100 * r.effectives < update * r.operations + 100

instance (update : Nat) (r : AppRes) : Decidable (r.Shared update) := inferInstanceAs (Decidable (_ < _))

def Counts (update : Nat) (r : AppRes) : Prop :=
  100 * r.effectives < 2 ^ 64 ∧ update * r.operations < 2 ^ 64

instance (update : Nat) (r : AppRes) : Decidable (r.Counts update) := inferInstanceAs (Decidable (_ ∧ _))

end AppRes

def tried (before after : AppRes) : AppRes :=
  { after with added := before.added, removed := before.removed }

variable {params : AppParam} {state : AppLoop}

theorem updateResults_counts (otype : Option OpType) (r : AppRes) (result key last : Int)
    (alternate : Bool) :
    let after := (updateResults otype r result key last alternate).1
    r.operations ≤ after.operations ∧ (after.effectives = r.effectives ∨
      otype ≠ some .contains ∧ after.effectives = r.effectives + 1 ∧
        after.operations = r.operations + 1) := by
  unfold updateResults AppRes.operations AppRes.effectives
  split
  · exact ⟨by dsimp only; omega, .inl rfl⟩
  · dsimp only
    split
    · exact ⟨by dsimp only; omega, .inr ⟨by simp, by dsimp only; omega, by dsimp only; omega⟩⟩
    · exact ⟨by dsimp only; omega, .inl rfl⟩
  · dsimp only
    split
    · exact ⟨by dsimp only; omega, .inr ⟨by simp, by dsimp only; omega, by dsimp only; omega⟩⟩
    · exact ⟨by dsimp only; omega, .inl rfl⟩
  · exact ⟨Nat.le_refl _, .inl rfl⟩

theorem chosen_read (isRead : state.unext = false) (draw : Nat) :
    (chooseOperation params state draw).2.1 = some .contains := by
  rw [chooseOperation, isRead, if_neg Bool.false_ne_true]
  split
  · split
    · split <;> rfl
    · split <;> rfl
  · rfl

/-- An update is only begun while there is room for one more effective operation. -/
structure Paced (params : AppParam) (state : AppLoop) : Prop where
  shared : state.results.Shared params.update
  room : state.unext = true →
    100 * state.results.effectives < params.update * (state.results.operations + 1)

theorem Paced.start {firstDraw : Nat} (drawn : 1 ≤ firstDraw) :
    Paced params (applicationStart params firstDraw) := by
  refine ⟨?_, fun isUpdate => ?_⟩
  · show 0 < params.update * 0 + 100
    omega
  · have below : (firstDraw : Int) - 1 < params.update := by simpa [applicationStart] using isUpdate
    show 0 < params.update * 1
    omega

theorem applicationTurn_counts (params : AppParam) (state : AppLoop) (turn : AppTurn) :
    let after := (applicationTurn params state turn).results
    state.results.operations ≤ after.operations ∧
      (after.effectives = state.results.effectives ∨
        state.unext = true ∧ after.effectives = state.results.effectives + 1 ∧
          after.operations = state.results.operations + 1) := by
  obtain ⟨more, effective⟩ := updateResults_counts (chooseOperation params state turn.keyDraw).2.1
    state.results turn.result (asInt (chooseOperation params state turn.keyDraw).1)
    (chooseOperation params state turn.keyDraw).2.2 params.alternate
  refine ⟨more, effective.imp_right fun ⟨notRead, counted⟩ => ⟨?_, counted⟩⟩
  by_contra isRead
  exact notRead (chosen_read (Bool.eq_false_of_not_eq_true isRead) _)

theorem Paced.shared_after (paced : Paced params state) (turn : AppTurn) :
    (tried state.results (applicationTurn params state turn).results).Shared params.update ∧
      (applicationTurn params state turn).results.Shared params.update := by
  have shared := paced.shared
  obtain ⟨more, effective⟩ := applicationTurn_counts params state turn
  generalize (applicationTurn params state turn).results = after at *
  have scaled := Nat.mul_le_mul_left params.update more
  unfold AppRes.Shared at *
  refine ⟨?_, ?_⟩
  · show 100 * state.results.effectives < params.update * after.operations + 100
    omega
  · rcases effective with same | ⟨isUpdate, oneMore, counted⟩
    · rw [same]
      omega
    · have room := paced.room isUpdate
      rw [oneMore, counted]
      omega

theorem Paced.turn (paced : Paced params state) (effective : params.effective = true) (turn : AppTurn)
    (counts : (applicationTurn params state turn).results.Counts params.update) :
    Paced params (applicationTurn params state turn) := by
  refine ⟨(paced.shared_after turn).2, fun isUpdate => ?_⟩
  generalize isAfter : applicationTurn params state turn = after at *
  have chosen : after.unext = getUnext params after.results turn.unextDraw := by
    rw [← isAfter]
    rfl
  rw [chosen, getUnext, if_pos effective, decide_eq_true_eq] at isUpdate
  obtain ⟨left, right⟩ := counts
  have compared : (100 * after.results.effectives) % 2 ^ 64 <
      (params.update * after.results.operations) % 2 ^ 64 := isUpdate
  rw [Nat.mod_eq_of_lt left, Nat.mod_eq_of_lt right] at compared
  rw [Nat.mul_succ]
  omega

/-- In effective mode, at every point of every run, no more operations are effective updates than the
rate allows, but for one. -/
theorem effective_share_bounded (params : AppParam) (effective : params.effective = true)
    (rand : Nat → Int) (values : RandValues rand) (firstDraw : Nat)
    (drawn : randRangeRe rand 100 = some (firstDraw : Int)) (turns : List AppTurn)
    (counts : Runs.Along (applicationTurn params)
      (fun state turn => (applicationTurn params state turn).results.Counts params.update)
      (applicationStart params firstDraw) turns) :
    (applicationStart params firstDraw).results.Shared params.update ∧
    Runs.Along (applicationTurn params)
      (fun state turn =>
        (tried state.results (applicationTurn params state turn).results).Shared params.update ∧
        (applicationTurn params state turn).results.Shared params.update)
      (applicationStart params firstDraw) turns := by
  have positive := (randRangeRe_bounds values (by decide) drawn).1
  have started : Paced params (applicationStart params firstDraw) := .start (by omega)
  refine ⟨started.shared, ?_⟩
  revert counts started
  generalize applicationStart params firstDraw = state
  induction turns generalizing state with
  | nil => exact fun _ _ => trivial
  | cons turn rest ih =>
      rintro ⟨now, later⟩ paced
      exact ⟨paced.shared_after turn, ih _ later (paced.turn effective turn now)⟩

theorem defaultTurns_share :
    (applicationStart defaultParam 1).results.Shared defaultParam.update ∧
    Runs.Along (applicationTurn defaultParam)
      (fun state turn =>
        (tried state.results (applicationTurn defaultParam state turn).results).Shared
          defaultParam.update ∧
        (applicationTurn defaultParam state turn).results.Shared defaultParam.update)
      (applicationStart defaultParam 1) defaultTurns := by
  have values : RandValues fun _ => 0 := fun _ => ⟨Int.le_refl 0, (by decide : 0 ≤ randMax)⟩
  have drawn : randRangeRe (fun _ => 0) 100 = some ((1 : Nat) : Int) := by
    rw [randRangeRe, randRangeLoop]
    decide
  exact effective_share_bounded defaultParam rfl (fun _ => 0) values 1 drawn defaultTurns (by decide)

end Hosk
