import Hosk.ApplicationLoop

/-!
`rand_range_re`, which adds up one `int` for each `RAND_MAX` of its range, and the keys that an
application thread draws with it.
-/

namespace Hosk

def randMax : Int := 2 ^ 31 - 1

def RandValues (rand : Nat → Int) : Prop := ∀ call, 0 ≤ rand call ∧ rand call ≤ randMax

-- d = (m > r ? r : m)
def chunk (r : Int) : Int := if randMax > r then r else randMax

/-- `v += 1 + (int)(d * ((double)rand_r(seed)/((double)(m)+1.0)))` -/
def addChunk (rand : Nat → Int) (r : Int) (call : Nat) (v : Int) : Int :=
  v + (1 + (chunk r * rand call).tdiv (randMax + 1))

/-- The loop for the range `r` that is left; no result stands for an `int` that overflows. -/
def randRangeLoop (rand : Nat → Int) (r : Int) (call : Nat) (v : Int) : Option Int :=
  if randMax < addChunk rand r call v then none
  else if r - randMax > 0 then
    randRangeLoop rand (r - randMax) (call + 1) (addChunk rand r call v)
  else some (addChunk rand r call v)
termination_by r.toNat
decreasing_by
  unfold randMax at *
  omega

def randRangeRe (rand : Nat → Int) (r : Int) : Option Int := randRangeLoop rand r 0 0

section Bounds

variable {rand : Nat → Int}

theorem chunk_bounds {r : Int} (positive : 1 ≤ r) :
    1 ≤ chunk r ∧ chunk r ≤ r ∧ chunk r ≤ randMax := by
  unfold chunk randMax
  split <;> omega

theorem addChunk_bounds (values : RandValues rand) {r : Int} (positive : 1 ≤ r) (call : Nat) (v : Int) :
    v + 1 ≤ addChunk rand r call v ∧ addChunk rand r call v ≤ v + chunk r := by
  obtain ⟨lower, upper⟩ := values call
  have length := (chunk_bounds positive).1
  have nonnegative : 0 ≤ chunk r * rand call := Int.mul_nonneg (by omega) lower
  have below : chunk r * rand call < chunk r * (randMax + 1) :=
    Int.mul_lt_mul_of_pos_left (by omega) (by omega)
  have quotient : chunk r * rand call / (randMax + 1) < chunk r := Int.ediv_lt_of_lt_mul (by decide) below
  have least : 0 ≤ chunk r * rand call / (randMax + 1) := Int.ediv_nonneg nonnegative (by decide)
  rw [addChunk, Int.tdiv_eq_ediv_of_nonneg nonnegative]
  omega

/-- Whatever is returned lies in the range. -/
theorem randRangeLoop_bounds (values : RandValues rand) (r : Int) (call : Nat) (v : Int) :
    ∀ {w : Int}, 1 ≤ r → randRangeLoop rand r call v = some w → v + 1 ≤ w ∧ w ≤ v + r := by
  induction r, call, v using randRangeLoop.induct rand with
  | case1 r call v overflows =>
      intro w _ returned
      rw [randRangeLoop, if_pos overflows] at returned
      exact absurd returned (Option.some_ne_none w).symm
  | case2 r call v fits more ih =>
      intro w positive returned
      rw [randRangeLoop, if_neg fits, if_pos more] at returned
      obtain ⟨lower, upper⟩ := ih (by omega) returned
      have added := addChunk_bounds values positive call v
      have length := (chunk_bounds positive).2.2
      omega
  | case3 r call v fits done =>
      intro w positive returned
      rw [randRangeLoop, if_neg fits, if_neg done] at returned
      obtain rfl := Option.some.inj returned
      have added := addChunk_bounds values positive call v
      have length := (chunk_bounds positive).2.1
      omega

theorem randRangeRe_bounds (values : RandValues rand) {r w : Int} (positive : 1 ≤ r)
    (returned : randRangeRe rand r = some w) : 1 ≤ w ∧ w ≤ r := by
  have bounds := randRangeLoop_bounds values r 0 0 positive returned
  omega

theorem randRangeRe_returns (values : RandValues rand) {r : Int} (positive : 1 ≤ r)
    (short : r ≤ randMax) : ∃ w, randRangeRe rand r = some w := by
  have added := addChunk_bounds values positive 0 0
  have length := (chunk_bounds positive).2.1
  refine ⟨addChunk rand r 0 0, ?_⟩
  rw [randRangeRe, randRangeLoop, if_neg (by omega), if_neg (by omega)]

theorem largest_values : RandValues fun _ => randMax := by
  intro _
  exact ⟨(by decide : 0 ≤ randMax), Int.le_refl _⟩

theorem randRangeRe_overflows {r : Int} (long : randMax < r) :
    randRangeRe (fun _ => randMax) r = none := by
  have first : addChunk (fun _ => randMax) r 0 0 = randMax := by
    have whole : chunk r = randMax := by
      unfold chunk
      rw [if_neg (by omega)]
    rw [addChunk, whole]
    decide
  have more : r - randMax > 0 := by omega
  have second := (addChunk_bounds largest_values (by omega : 1 ≤ r - randMax) (0 + 1) randMax).1
  rw [randRangeRe, randRangeLoop, first, if_neg (Int.lt_irrefl _), if_pos more, randRangeLoop,
    if_pos (by omega)]

end Bounds

def KeptInRange (range : Int) (state : AppLoop) : Prop :=
  state.last < 0 ∨ 1 ≤ state.last ∧ state.last ≤ range

def FirstInRange (params : AppParam) (range : Int) : Prop :=
  params.alternate = true → params.update = 0 → 1 ≤ params.first ∧ (params.first : Int) ≤ range

instance (params : AppParam) (range : Int) : Decidable (FirstInRange params range) :=
  inferInstanceAs (Decidable (_ → _ → _))

def DrawnKey (range : Int) (turn : AppTurn) : Prop :=
  ∃ rand, RandValues rand ∧ randRangeRe rand range = some (turn.keyDraw : Int)

def KeyInRange (params : AppParam) (range : Int) (state : AppLoop) (turn : AppTurn) : Prop :=
  let key := (chooseOperation params state turn.keyDraw).1
  1 ≤ key ∧ (key : Int) ≤ range

section Keys

variable {params : AppParam} {range : Int} {state : AppLoop} {turn : AppTurn}

theorem DrawnKey.drawn (positive : 1 ≤ range) (short : range ≤ randMax)
    (drawn : DrawnKey range turn) : Drawn turn.keyDraw ∧ (turn.keyDraw : Int) ≤ range := by
  obtain ⟨rand, values, returned⟩ := drawn
  have bounds := randRangeRe_bounds values positive returned
  unfold Drawn
  unfold randMax at short
  omega

theorem asUint_kept {last : Int} (positive : 1 ≤ last) (short : last ≤ range)
    (rangeShort : range ≤ randMax) : (asUint last : Int) = last := by
  unfold asUint
  unfold randMax at rangeShort
  omega

theorem asInt_kept {key : Nat} (positive : 1 ≤ key) (short : (key : Int) ≤ range)
    (rangeShort : range ≤ randMax) : asInt key = key := by
  apply asInt_drawn
  unfold Drawn
  unfold randMax at rangeShort
  omega

theorem chosen_in_range (positive : 1 ≤ range) (short : range ≤ randMax)
    (first : FirstInRange params range) (kept : KeptInRange range state)
    (drawn : DrawnKey range turn) :
    let chosen := chooseOperation params state turn.keyDraw
    (1 ≤ chosen.1 ∧ (chosen.1 : Int) ≤ range) ∧
      (chosen.2.2 < 0 ∨ 1 ≤ chosen.2.2 ∧ chosen.2.2 ≤ range) := by
  obtain ⟨isDrawn, drawnShort⟩ := drawn.drawn positive short
  have drawnKey : 1 ≤ asUint turn.keyDraw ∧ (asUint turn.keyDraw : Int) ≤ range := by
    rw [asUint_drawn isDrawn]
    exact ⟨isDrawn.1, drawnShort⟩
  have keptKey : ¬ state.last < 0 → 1 ≤ asUint state.last ∧ (asUint state.last : Int) ≤ range := by
    intro keeps
    rcases kept with none | ⟨lower, upper⟩
    · exact absurd none keeps
    · have same := asUint_kept lower upper short
      omega
  dsimp only
  rw [chooseOperation]
  split
  · split
    · exact ⟨drawnKey, kept⟩
    · rename_i keeps
      split
      · exact ⟨keptKey keeps, kept⟩
      · exact ⟨drawnKey, kept⟩
  · split
    · rename_i alternates
      split
      · rename_i never
        obtain ⟨lower, upper⟩ := first alternates never
        split
        · refine ⟨⟨lower, upper⟩, .inr ?_⟩
          dsimp only
          rw [asInt_kept lower upper short]
          exact ⟨by omega, upper⟩
        · exact ⟨drawnKey, .inl (Int.negSucc_lt_zero 0)⟩
      · split
        · exact ⟨drawnKey, kept⟩
        · rename_i keeps
          exact ⟨keptKey keeps, kept⟩
    · exact ⟨drawnKey, kept⟩

theorem updateResults_keeps {otype : Option OpType} {results : AppRes} {result key last : Int}
    {alternate : Bool} (keyIn : 1 ≤ key ∧ key ≤ range) (kept : last < 0 ∨ 1 ≤ last ∧ last ≤ range) :
    let after := (updateResults otype results result key last alternate).2
    after < 0 ∨ 1 ≤ after ∧ after ≤ range := by
  unfold updateResults
  split
  · exact kept
  · dsimp only
    split
    · exact .inr keyIn
    · exact kept
  · dsimp only
    split
    · exact .inl (Int.negSucc_lt_zero 0)
    · split
      · exact .inl (Int.negSucc_lt_zero 0)
      · exact kept
  · exact kept

theorem KeptInRange.later (positive : 1 ≤ range) (short : range ≤ randMax)
    (first : FirstInRange params range) (kept : KeptInRange range state)
    (drawn : DrawnKey range turn) : KeptInRange range (applicationTurn params state turn) := by
  obtain ⟨⟨lower, upper⟩, keeps⟩ := chosen_in_range positive short first kept drawn
  rw [KeptInRange, applicationTurn]
  apply updateResults_keeps _ keeps
  rw [asInt_kept lower upper short]
  exact ⟨by omega, upper⟩

end Keys

/-- `rand_range_re` returns a value of its range, whatever is drawn, exactly for ranges up to
`RAND_MAX`; for these an application thread uses no key outside the range. -/
theorem random_keys_iff_short (range : Int) (positive : 1 ≤ range) :
    ((∀ rand, RandValues rand → ∃ v, randRangeRe rand range = some v ∧ 1 ≤ v ∧ v ≤ range) ↔
      range ≤ randMax) ∧
    (range ≤ randMax → ∀ params firstDraw turns, FirstInRange params range →
      (∀ turn ∈ turns, DrawnKey range turn) →
      Runs.Along (applicationTurn params) (KeyInRange params range)
        (applicationStart params firstDraw) turns) := by
  refine ⟨⟨fun all => ?_, fun short rand values => ?_⟩, fun short params firstDraw turns first drawn => ?_⟩
  · by_contra long
    obtain ⟨v, returned, _⟩ := all _ largest_values
    rw [randRangeRe_overflows (Int.not_le.mp long)] at returned
    exact Option.some_ne_none v returned.symm
  · obtain ⟨v, returned⟩ := randRangeRe_returns values positive short
    exact ⟨v, returned, randRangeRe_bounds values positive returned⟩
  · have started : KeptInRange range (applicationStart params firstDraw) :=
      .inl (Int.negSucc_lt_zero 0)
    revert started
    generalize applicationStart params firstDraw = state
    induction turns generalizing state with
    | nil => exact fun _ => trivial
    | cons turn rest ih =>
        intro kept
        have here := drawn turn List.mem_cons_self
        exact ⟨(chosen_in_range positive short first kept here).1,
          ih (fun other member => drawn other (List.mem_cons_of_mem _ member)) _
            (kept.later positive short first here)⟩

theorem hundred_in_range :
    ((∀ rand, RandValues rand → ∃ v, randRangeRe rand 100 = some v ∧ 1 ≤ v ∧ v ≤ 100) ↔
      100 ≤ randMax) ∧
    (100 ≤ randMax → ∀ params firstDraw turns, FirstInRange params 100 →
      (∀ turn ∈ turns, DrawnKey 100 turn) →
      Runs.Along (applicationTurn params) (KeyInRange params 100)
        (applicationStart params firstDraw) turns) :=
  random_keys_iff_short 100 (by decide)

/-- One more than `RAND_MAX` overflows; and a reading thread of an empty list begins with key 0. -/
theorem random_keys_stray :
    (RandValues (fun _ => randMax) ∧ randRangeRe (fun _ => randMax) (2 ^ 31) = none) ∧
    ¬ KeyInRange ⟨0, 0, true, true⟩ 100 (applicationStart ⟨0, 0, true, true⟩ 1) ⟨1, 0, 1⟩ := by
  refine ⟨⟨largest_values, randRangeRe_overflows (by decide)⟩, ?_⟩
  rintro ⟨positive, _⟩
  exact absurd positive (by decide)

end Hosk
