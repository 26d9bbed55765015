import Mathlib.Algebra.Ring.Int.Defs
import Mathlib.Algebra.Ring.Nat
import Mathlib.Tactic.Common
import Hosk.DataLayerCore
import Hosk.Runs

/-! `application_loop`: the operations that an application thread performs, one after the other. -/

namespace Hosk

structure AppParam where
  first : Nat
  update : Nat
  alternate : Bool
  effective : Bool

structure AppRes where
  add : Nat
  added : Nat
  remove : Nat
  removed : Nat
  contains : Nat
  found : Nat
  deriving DecidableEq

/-- The variables of the loop; `otype` has no value before it is first assigned. -/
structure AppLoop where
  unext : Bool
  last : Int
  otype : Option OpType
  results : AppRes
  deriving DecidableEq

/-- What one iteration is given: a random key, the result of its operation, and the random number
that `get_unext` may draw. -/
structure AppTurn where
  keyDraw : Nat
  result : Int
  unextDraw : Nat

def asUint (value : Int) : Nat := (value % 2 ^ 32).toNat

def asInt (value : Nat) : Int := (value : Int).bmod (2 ^ 32)

def updateResults (otype : Option OpType) (ares : AppRes) (result key oldLast : Int)
    (alternate : Bool) : AppRes × Int :=
  match otype with
  | some .contains =>
      ({ ares with
        contains := ares.contains + 1
        found := if result = 1 then ares.found + 1 else ares.found }, oldLast)
  | some .insert =>
      let ares := { ares with add := ares.add + 1 }
      if result = 1 then ({ ares with added := ares.added + 1 }, key) else (ares, oldLast)
  | some .delete =>
      let last := if alternate then -1 else oldLast
      let ares := { ares with remove := ares.remove + 1 }
      if result = 1 then ({ ares with removed := ares.removed + 1 }, -1) else (ares, last)
  | none => (ares, oldLast)

-- the counters are unsigned long
def getUnext (d : AppParam) (r : AppRes) (draw : Nat) : Bool :=
  if d.effective then
    (100 * (r.added + r.removed)) % 2 ^ 64 < (d.update * (r.add + r.remove + r.contains)) % 2 ^ 64
  else (draw : Int) - 1 < d.update

def chooseOperation (params : AppParam) (state : AppLoop) (draw : Nat) :
    Nat × Option OpType × Int :=
  if state.unext then
    if state.last < 0 then (asUint draw, some .insert, state.last)
    else if params.alternate then (asUint state.last, some .delete, state.last)
    -- the type of the previous operation is left as it is
    else (asUint draw, state.otype, state.last)
  else if params.alternate then
    if params.update = 0 then
      if state.last < 0 then (params.first, some .contains, asInt params.first)
      else (asUint draw, some .contains, -1)
    else if state.last < 0 then (asUint draw, some .contains, state.last)
    else (asUint state.last, some .contains, state.last)
  else (asUint draw, some .contains, state.last)

def applicationTurn (params : AppParam) (state : AppLoop) (turn : AppTurn) : AppLoop :=
  let (key, otype, last) := chooseOperation params state turn.keyDraw
  let (results, last) :=
    updateResults otype state.results turn.result (asInt key) last params.alternate
  ⟨getUnext params results turn.unextDraw, last, otype, results⟩

/-- "Is the first op an update?" -/
def applicationStart (params : AppParam) (draw : Nat) : AppLoop :=
  ⟨(draw : Int) - 1 < params.update, -1, none, ⟨0, 0, 0, 0, 0, 0⟩⟩

/-- An update inserts if no key is kept, and deletes if one is. -/
def AppLoop.Alternates (params : AppParam) (state : AppLoop) (turn : AppTurn) : Prop :=
  state.unext = true → (chooseOperation params state turn.keyDraw).2.1 =
    some (if state.last < 0 then .insert else .delete)

instance (params : AppParam) (state : AppLoop) (turn : AppTurn) :
    Decidable (state.Alternates params turn) := inferInstanceAs (Decidable (_ → _))

/-- The branch that leaves the type as it is, is not taken. -/
def AppLoop.Assigns (params : AppParam) (state : AppLoop) : Prop :=
  params.alternate = true ∨ state.unext = false ∨ state.last < 0

instance (params : AppParam) (state : AppLoop) : Decidable (state.Assigns params) :=
  inferInstanceAs (Decidable (_ ∨ _))

section Law

variable {params : AppParam} {state : AppLoop}

theorem chosen_not_delete (turn : AppTurn) (stays : params.alternate = false)
    (before : state.otype ≠ some .delete) :
    (chooseOperation params state turn.keyDraw).2.1 ≠ some .delete := by
  rw [chooseOperation]
  by_cases update : state.unext = true
  · rw [if_pos update]
    by_cases noneKept : state.last < 0
    · simp [noneKept]
    · simpa [noneKept, stays] using before
  · simp [update, stays]

theorem alternates_iff_assigns (turn : AppTurn)
    (inv : params.alternate = false → state.otype ≠ some .delete) :
    state.Alternates params turn ↔ state.Assigns params := by
  rw [AppLoop.Alternates, AppLoop.Assigns]
  cases update : state.unext with
  | false => simp
  | true =>
      by_cases noneKept : state.last < 0
      · simp [noneKept, chooseOperation, update]
      · cases mode : params.alternate with
        | true => simp [noneKept, chooseOperation, update, mode]
        | false => simpa [noneKept, chooseOperation, update, mode] using inv mode

end Law

/-- A thread whose keys no other thread touches: each operation is answered by the set of them. -/
def privateTurn (params : AppParam) (thread : AppLoop × Finset Nat) (draws : Nat × Nat) :
    AppLoop × Finset Nat :=
  match chooseOperation params thread.1 draws.1 with
  | (key, some optype, _) =>
      let (keys, result) := keySet.apply ⟨optype, key, key⟩ thread.2
      (applicationTurn params thread.1 ⟨draws.1, result, draws.2⟩, keys)
  | (_, none, _) => thread

/-- What `rand_range_re` returns, as an `int` that has not overflowed. -/
def Drawn (draw : Nat) : Prop := 1 ≤ draw ∧ draw < 2 ^ 31

instance (draw : Nat) : Decidable (Drawn draw) :=
  inferInstanceAs (Decidable (1 ≤ draw ∧ draw < 2 ^ 31))

theorem asUint_drawn {draw : Nat} (drawn : Drawn draw) : asUint draw = draw := by
  have bound : draw < 2 ^ 31 := drawn.2
  rw [asUint]
  omega

theorem asInt_drawn {draw : Nat} (drawn : Drawn draw) : asInt draw = draw := by
  have bound : draw < 2 ^ 31 := drawn.2
  have lower : -((2 ^ 32 : Nat) : Int) ≤ (draw : Int) * 2 := by omega
  have upper : (draw : Int) * 2 < ((2 ^ 32 : Nat) : Int) := by omega
  unfold asInt
  exact Int.bmod_eq_of_le_mul_two lower upper

/-- One more added than removed exactly while a key is kept, which is then in the set. -/
def AppThreadOk (params : AppParam) (thread : AppLoop × Finset Nat) : Prop :=
  params.update = 0 ∧ thread.1.unext = false ∧ thread.1.results.added = thread.1.results.removed ∨
    params.update ≠ 0 ∧
      (thread.1.last < 0 ∧ thread.1.results.added = thread.1.results.removed ∨
        ∃ key ∈ thread.2, Drawn key ∧ thread.1.last = key ∧
          thread.1.results.added = thread.1.results.removed + 1)

theorem getUnext_never {params : AppParam} (never : params.update = 0) (results : AppRes) {draw : Nat}
    (drawn : Drawn draw) : getUnext params results draw = false := by
  obtain ⟨positive, _⟩ := drawn
  rw [getUnext, never]
  split
  · simp
  · simp
    omega

section Private

variable {params : AppParam} {thread : AppLoop × Finset Nat} {draws : Nat × Nat}

theorem privateTurn_chosen {key : Nat} {optype : OpType} {last : Int}
    (chosen : chooseOperation params thread.1 draws.1 = (key, some optype, last)) :
    privateTurn params thread draws =
      let (keys, result) := keySet.apply ⟨optype, key, key⟩ thread.2
      let (results, last) :=
        updateResults (some optype) thread.1.results result (asInt key) last params.alternate
      (⟨getUnext params results draws.2, last, some optype, results⟩, keys) := by
  rw [privateTurn, chosen]
  simp only [applicationTurn, chosen]

theorem privateTurn_reads (isRead : thread.1.unext = false) : ∃ last results,
    privateTurn params thread draws =
      (⟨getUnext params results draws.2, last, some .contains, results⟩, thread.2) ∧
    results.added = thread.1.results.added ∧ results.removed = thread.1.results.removed ∧
    (params.update ≠ 0 → last = thread.1.last) := by
  obtain ⟨key, last, chosen, same⟩ : ∃ key last,
      chooseOperation params thread.1 draws.1 = (key, some .contains, last) ∧
        (params.update ≠ 0 → last = thread.1.last) := by
    rw [chooseOperation, isRead, if_neg Bool.false_ne_true]
    split
    · split
      · rename_i never
        split
        · exact ⟨_, _, rfl, fun updates => absurd never updates⟩
        · exact ⟨_, _, rfl, fun updates => absurd never updates⟩
      · split
        · exact ⟨_, _, rfl, fun _ => rfl⟩
        · exact ⟨_, _, rfl, fun _ => rfl⟩
    · exact ⟨_, _, rfl, fun _ => rfl⟩
  rw [privateTurn_chosen chosen]
  exact ⟨last, _, rfl, rfl, rfl, same⟩

theorem AppThreadOk.turn (ok : AppThreadOk params thread) (assigns : thread.1.Assigns params)
    (keyDrawn : Drawn draws.1) (unextDrawn : Drawn draws.2) :
    AppThreadOk params (privateTurn params thread draws) := by
  rcases ok with ⟨never, isRead, same⟩ | ⟨updates, kept⟩
  · obtain ⟨last, results, turned, added, removed, _⟩ := privateTurn_reads isRead
    rw [turned]
    exact .inl ⟨never, getUnext_never never results unextDrawn, by
      rw [added, removed, same]⟩
  · refine .inr ⟨updates, ?_⟩
    cases isUpdate : thread.1.unext with
    | false =>
        obtain ⟨last, results, turned, added, removed, lastSame⟩ := privateTurn_reads isUpdate
        rw [turned]
        simpa only [added, removed, lastSame updates] using kept
    | true =>
        rcases kept with ⟨noneKept, same⟩ | ⟨key, member, drawn, isLast, more⟩
        · have chosen : chooseOperation params thread.1 draws.1 =
              (asUint draws.1, some .insert, thread.1.last) := by
            rw [chooseOperation, if_pos isUpdate, if_pos noneKept]
          rw [privateTurn_chosen chosen, asUint_drawn keyDrawn]
          by_cases present : draws.1 ∈ thread.2
          · simp only [keySet, present, if_true, updateResults]
            exact .inl ⟨noneKept, same⟩
          · simp only [keySet, present, if_false, updateResults, asInt_drawn keyDrawn]
            exact .inr ⟨draws.1, Finset.mem_insert_self _ _, keyDrawn, rfl, congrArg (· + 1) same⟩
        · have notNegative : ¬ thread.1.last < 0 := by omega
          have mode : params.alternate = true := by
            rcases assigns with mode | isRead | negative
            · exact mode
            · exact absurd (isRead.symm.trans isUpdate) Bool.false_ne_true
            · exact absurd negative notNegative
          have chosen : chooseOperation params thread.1 draws.1 =
              (key, some .delete, thread.1.last) := by
            rw [chooseOperation, if_pos isUpdate, if_neg notNegative, if_pos mode, isLast,
              asUint_drawn drawn]
          rw [privateTurn_chosen chosen]
          simp only [keySet, member, if_true, updateResults, Int.natCast_one]
          exact .inl ⟨Int.negSucc_lt_zero 0, more⟩

end Private

/-- Every update inserts or deletes as `last` says, exactly if the branch that assigns no type is
never taken; and then a thread on its own keys has added as many as it removed, or one more. -/
theorem application_alternates_iff_assigns (params : AppParam) (firstDraw : Nat) :
    (∀ turns, Runs.Along (applicationTurn params) (AppLoop.Alternates params)
        (applicationStart params firstDraw) turns ↔
      Runs.Along (applicationTurn params) (fun state _ => state.Assigns params)
        (applicationStart params firstDraw) turns) ∧
    (Drawn firstDraw → ∀ keys draws, (∀ pair ∈ draws, Drawn pair.1 ∧ Drawn pair.2) →
      Runs.Along (privateTurn params) (fun thread _ => thread.1.Assigns params)
        (applicationStart params firstDraw, keys) draws →
      let results :=
        (Runs.run (privateTurn params) (applicationStart params firstDraw, keys) draws).1.results
      results.added = results.removed ∨ results.added = results.removed + 1) := by
  constructor
  · intro turns
    refine Runs.along_iff (fun state => params.alternate = false → state.otype ≠ some .delete)
      (fun state turn inv => alternates_iff_assigns turn inv) ?_ turns
      (fun _ => (Option.some_ne_none _).symm)
    intro state turn inv _ mode
    exact chosen_not_delete turn mode (inv mode)
  · intro firstDrawn keys draws drawn assigns
    have started : AppThreadOk params (applicationStart params firstDraw, keys) := by
      by_cases never : params.update = 0
      · refine .inl ⟨never, ?_, rfl⟩
        have positive : 1 ≤ firstDraw := firstDrawn.1
        simp [applicationStart, never]
        omega
      · exact .inr ⟨never, .inl ⟨Int.negSucc_lt_zero 0, rfl⟩⟩
    revert assigns started
    generalize (applicationStart params firstDraw, keys) = thread
    induction draws generalizing thread with
    | nil =>
        rintro - (⟨_, _, same⟩ | ⟨_, ⟨_, same⟩ | ⟨_, _, _, _, more⟩⟩)
        · exact .inl same
        · exact .inl same
        · exact .inr more
    | cons pair rest ih =>
        rintro ⟨now, later⟩ ok
        obtain ⟨keyDrawn, unextDrawn⟩ := drawn pair List.mem_cons_self
        exact ih (fun other member => drawn other (List.mem_cons_of_mem _ member)) _ later
          (ok.turn now keyDrawn unextDrawn)

def defaultParam : AppParam := ⟨1, 20, false, true⟩

def defaultTurns : List AppTurn :=
  ⟨7, 1, 1⟩ :: List.replicate 5 ⟨3, 0, 1⟩ ++ [⟨7, 1, 1⟩]

theorem alternateMode_alternates :
    let results := (Runs.run (privateTurn { defaultParam with alternate := true })
      (applicationStart { defaultParam with alternate := true } 1, ∅)
      ((7, 1) :: List.replicate 5 (3, 1))).1.results
    results.added = results.removed ∨ results.added = results.removed + 1 :=
  (application_alternates_iff_assigns { defaultParam with alternate := true } 1).2 (by decide) ∅
    ((7, 1) :: List.replicate 5 (3, 1)) (by decide) (by decide)

/-- The default loop reads where it should delete, and where every trial counts it adds again. -/
theorem default_never_deletes :
    ¬ Runs.Along (applicationTurn defaultParam) (AppLoop.Alternates defaultParam)
      (applicationStart defaultParam 1) defaultTurns ∧
    let results := (Runs.run (privateTurn { defaultParam with effective := false })
      (applicationStart { defaultParam with effective := false } 1, ∅) [(7, 1), (8, 1)]).1.results
    results.added = 2 ∧ results.removed = 0 := by
  decide

end Hosk
