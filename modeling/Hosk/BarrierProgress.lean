import Hosk.Barrier
import Hosk.Progress

/-!
`barrier_cross` lets all through, as long as no thread wakes up of itself: some thread can always go on, and
every thread gets through one use after the other however the others are scheduled.
-/

namespace Hosk

open Progress

namespace BarrierPc

def asleep : BarrierPc → Bool
  | .condWait | .waiting => true
  | _ => false

def stage : BarrierPc → Nat
  | .outside => 0
  | .lock => 1
  | .increment => 2
  | .test => 3
  | .condWait | .broadcast => 4
  | .waiting | .reset => 5
  | .awake => 6
  | .unlock => 7
  | .leave => 8

theorem stage_le (pc : BarrierPc) : pc.stage ≤ 8 := by
  cases pc <;> simp [stage]

end BarrierPc

theorem BarrierThread.Placed.returned {g : Nat} {state : BarrierThread} (placed : state.Placed g) :
    state.returned ≤ g ∧ g ≤ state.returned + 1 := by
  unfold BarrierThread.Placed at placed
  split at placed <;> omega

namespace Barrier

variable {n : Nat}

def enabled (b : Barrier n) (thread : Fin n) : Bool :=
  match (b.threads thread).pc with
  | .waiting => false
  | .lock | .awake => b.mutex.isNone
  | _ => true

def steps (b : Barrier n) : BarrierAct n → Nat
  | .step thread => if b.enabled thread then 1 else 0
  | .spurious _ => 0

/-- Whoever has the mutex is at work with it, and not all threads sleep. -/
structure Live (b : Barrier n) : Prop where
  held : ∀ thread, b.mutex = some thread → (b.threads thread).pc.holds = true
  awake : ∃ thread, (b.threads thread).pc.asleep = false

variable {g : Nat} {b : Barrier n} {thread : Fin n}

theorem Live.enabled (live : b.Live) : ∃ thread, b.enabled thread = true := by
  obtain ⟨thread, notAsleep⟩ := live.awake
  cases free : b.mutex with
  | none =>
      refine ⟨thread, ?_⟩
      cases located : (b.threads thread).pc <;> simp_all [Barrier.enabled, BarrierPc.asleep]
  | some holder =>
      have holds := live.held holder free
      refine ⟨holder, ?_⟩
      cases located : (b.threads holder).pc <;> simp_all [Barrier.enabled, BarrierPc.holds]

/-- A thread that goes to sleep leaves one behind that has not been counted. -/
theorem Ok.another (ok : b.Ok g) (located : (b.threads thread).pc = .test) (early : b.crossing < b.count) :
    ∃ other, other ≠ thread ∧ (b.threads other).pc.asleep = false := by
  have notReset : ∀ other, (b.threads other).pc ≠ .reset := by
    intro other isReset
    have mine := ok.owner thread (by rw [located]; rfl)
    have its := ok.owner other (by rw [isReset]; rfl)
    obtain rfl := Option.some.inj (mine.symm.trans its)
    rw [located] at isReset
    exact BarrierPc.noConfusion isReset
  have crossing := ok.crossing notReset
  have count := ok.count
  have fewer : b.waits.card < n := by omega
  obtain ⟨other, outside⟩ : ∃ other, other ∉ b.waits := by
    by_contra all
    have whole : b.waits = Finset.univ := Finset.eq_univ_iff_forall.mpr fun other => by
      by_contra outside
      exact all ⟨other, outside⟩
    rw [whole, Finset.card_univ, Fintype.card_fin] at fewer
    omega
  rw [mem_waits, Bool.not_eq_true] at outside
  refine ⟨other, ?_, ?_⟩
  · rintro rfl
    rw [located] at outside
    exact Bool.false_ne_true outside.symm
  · cases pc : (b.threads other).pc <;> simp_all [BarrierPc.asleep, BarrierPc.counted]

theorem Live.moves (live : b.Live) {after : Barrier n} {state : BarrierThread}
    (threads : after.threads = Function.update b.threads thread state)
    (mine : after.mutex = some thread → state.pc.holds = true)
    (others : ∀ other, other ≠ thread → after.mutex = some other → b.mutex = some other)
    (awake : state.pc.asleep = false ∨ ∃ other, other ≠ thread ∧ (b.threads other).pc.asleep = false) :
    after.Live := by
  constructor
  · intro other holder
    by_cases same : other = thread
    · subst same
      rw [threads, Function.update_self]
      exact mine holder
    · rw [threads, Function.update_of_ne same]
      exact live.held other (others other same holder)
  · rcases awake with itself | ⟨other, apart, notAsleep⟩
    · exact ⟨thread, by rw [threads, Function.update_self]; exact itself⟩
    · exact ⟨other, by rw [threads, Function.update_of_ne apart]; exact notAsleep⟩

theorem Live.others (live : b.Live) (asleep : (b.threads thread).pc.asleep = true) :
    ∃ other, other ≠ thread ∧ (b.threads other).pc.asleep = false := by
  obtain ⟨other, notAsleep⟩ := live.awake
  refine ⟨other, ?_, notAsleep⟩
  rintro rfl
  exact Bool.false_ne_true (notAsleep.symm.trans asleep)

theorem wake_holds (state : BarrierThread) : state.wake.pc.holds = state.pc.holds := by
  rw [BarrierThread.wake]
  split
  · rename_i waits
    rw [waits]
    rfl
  · rfl

theorem Live.barrierCross (ok : b.Ok g) (live : b.Live) (thread : Fin n) : (b.barrierCross thread).Live := by
  have stays : ∀ other, other ≠ thread → b.mutex = some other → b.mutex = some other := fun _ _ holder => holder
  have gone : ∀ other, other ≠ thread → none = some other → b.mutex = some other :=
    fun other _ wrong => absurd wrong.symm (Option.some_ne_none other)
  have taken : ∀ other, other ≠ thread → some thread = some other → b.mutex = some other :=
    fun other apart wrong => absurd (Option.some.inj wrong).symm apart
  cases located : (b.threads thread).pc with
  | outside | leave =>
      simp only [Barrier.barrierCross, located]
      refine live.moves rfl (fun holder => ?_) stays (.inl rfl)
      have holds := live.held thread holder
      rw [located] at holds
      exact absurd holds Bool.false_ne_true
  | lock | awake =>
      simp only [Barrier.barrierCross, located]
      split
      · exact live.moves rfl (fun _ => rfl) taken (.inl rfl)
      · exact live
  | increment | reset =>
      simp only [Barrier.barrierCross, located]
      exact live.moves rfl (fun _ => rfl) stays (.inl rfl)
  | test =>
      simp only [Barrier.barrierCross, located]
      split
      · rename_i early
        exact live.moves rfl (fun _ => rfl) stays (.inr (ok.another located early))
      · exact live.moves rfl (fun _ => rfl) stays (.inl rfl)
  | condWait =>
      simp only [Barrier.barrierCross, located]
      refine live.moves rfl (fun wrong => absurd wrong.symm (Option.some_ne_none thread)) gone (.inr ?_)
      exact live.others (by rw [located]; rfl)
  | waiting =>
      simp only [Barrier.barrierCross, located]
      exact live
  | broadcast =>
      simp only [Barrier.barrierCross, located]
      have woken : Live { b with threads := fun other => (b.threads other).wake } := by
        refine ⟨fun other holder => ?_, thread, ?_⟩
        · rw [wake_holds]
          exact live.held other holder
        · simp [BarrierThread.wake, located, BarrierPc.asleep]
      exact woken.moves rfl (fun _ => rfl) (fun _ _ holder => holder) (.inl rfl)
  | unlock =>
      simp only [Barrier.barrierCross, located]
      exact live.moves rfl (fun wrong => absurd wrong.symm (Option.some_ne_none thread)) gone (.inl rfl)

/-- The steps that a thread has come, its finished calls included. -/
def strides (b : Barrier n) (thread : Fin n) : Nat :=
  9 * (b.threads thread).returned + (b.threads thread).pc.stage

theorem setThread_strides (b : Barrier n) (thread : Fin n) (state : BarrierThread) :
    (b.setThread thread state).strides thread = 9 * state.returned + state.pc.stage := by
  rw [strides, setThread_same]

theorem strides_mine (b : Barrier n) (thread : Fin n) :
    b.strides thread + b.steps (.step thread) ≤ (b.barrierCross thread).strides thread := by
  cases located : (b.threads thread).pc with
  | lock | awake =>
      simp only [Barrier.barrierCross, located, steps, Barrier.enabled]
      cases free : b.mutex with
      | none =>
          simp only [if_true, Option.isNone_none, moveTo, setThread_strides]
          simp [strides, located, BarrierPc.stage]
      | some holder => simp
  | waiting => simp [Barrier.barrierCross, located, steps, Barrier.enabled]
  | test =>
      by_cases early : b.crossing < b.count <;>
        simp only [Barrier.barrierCross, located, steps, Barrier.enabled, moveTo, setThread_strides, early,
          if_true, if_false] <;>
        simp [strides, located, BarrierPc.stage]
  | broadcast =>
      simp only [Barrier.barrierCross, located, steps, Barrier.enabled, moveTo, setThread_strides]
      simp [strides, located, BarrierPc.stage, BarrierThread.wake]
  | leave =>
      simp only [Barrier.barrierCross, located, steps, Barrier.enabled, setThread_strides]
      simp [strides, located, BarrierPc.stage]
      omega
  | outside | increment | condWait | reset | unlock =>
      simp only [Barrier.barrierCross, located, steps, Barrier.enabled, moveTo, setThread_strides]
      simp [strides, located, BarrierPc.stage]

theorem strides_other (b : Barrier n) {thread other : Fin n} (apart : other ≠ thread) :
    b.strides other ≤ (b.barrierCross thread).strides other := by
  have woken : (b.barrierCross thread).threads other = b.threads other ∨
      (b.barrierCross thread).threads other = (b.threads other).wake := by
    cases located : (b.threads thread).pc <;> simp only [Barrier.barrierCross, located]
    case broadcast => exact .inr (moveTo_other _ _ apart)
    case lock | awake => split <;> simp [moveTo_other _ _ apart]
    case waiting => exact .inl trivial
    all_goals first | exact .inl (moveTo_other _ _ apart) | exact .inl (setThread_other _ _ apart)
  rw [strides, strides]
  rcases woken with same | wakes
  · rw [same]
  · rw [wakes, BarrierThread.wake]
    split
    · rename_i waits
      simp [waits, BarrierPc.stage]
    · exact Nat.le_refl _

/-- Spurious wake-ups apart, what an action steps is gained. -/
theorem strides_act (b : Barrier n) (action : BarrierAct n) (sound : b.NotSpurious action) :
    (∑ other, b.strides other) + b.steps action ≤ ∑ other, (b.act action).strides other := by
  cases action with
  | step thread =>
      have gained := sum_le (Finset.mem_univ thread)
        (show b.strides thread + b.steps (.step thread) ≤ (b.barrierCross thread).strides thread + 0 from
          b.strides_mine thread)
        fun other _ apart => Nat.le_trans (b.strides_other apart) (Nat.le_add_right _ 0)
      rw [Nat.mul_zero] at gained
      exact gained
  | spurious thread =>
      rw [Barrier.act, setThread_wake b (sound thread rfl)]
      exact Nat.le_refl _

/-- As long as no thread wakes up of itself: in every state of every run some thread can take a step, and
with every `9 * n` steps that the threads take together, whichever they are, each of them has come through
once more. -/
theorem barrier_lets_all_through {n : Nat} (some : 0 < n) (acts : List (BarrierAct n))
    (sound : Runs.Along act NotSpurious (barrierInit n) acts) :
    (∃ thread, (run acts).enabled thread = true) ∧ ∀ thread : Fin n,
      along act steps (barrierInit n) acts ≤ n * (9 * ((run acts).threads thread).returned + 17) := by
  have start : (∃ g, (barrierInit n).Ok g) ∧ (barrierInit n).Live := by
    refine ⟨⟨0, barrierInit_ok n⟩, fun thread holder => ?_, ⟨0, some⟩, rfl⟩
    exact absurd holder.symm (Option.some_ne_none thread)
  have keeps : ∀ (b : Barrier n) action, (∃ g, b.Ok g) ∧ b.Live → b.NotSpurious action →
      (∃ g, (b.act action).Ok g) ∧ (b.act action).Live := by
    rintro b action ⟨⟨g, ok⟩, live⟩ now
    refine ⟨ok.act now, ?_⟩
    cases action with
    | step thread => exact live.barrierCross ok thread
    | spurious thread =>
        rw [Barrier.act, setThread_wake b (now thread rfl)]
        exact live
  obtain ⟨⟨⟨g, ok⟩, live⟩, gained⟩ := spent_gained (fun b : Barrier n => ∑ other, b.strides other) steps _ keeps
    (fun b action _ now => b.strides_act action now) acts _ start sound
  change (run acts).Ok g at ok
  refine ⟨live.enabled, fun thread => ?_⟩
  have few : ∀ other ∈ Finset.univ, (run acts).strides other ≤ 9 * ((run acts).threads thread).returned + 17 := by
    intro other _
    have stage := ((run acts).threads other).pc.stage_le
    have mine := (ok.placed thread).returned
    have its := (ok.placed other).returned
    rw [strides]
    omega
  have most := Finset.sum_le_card_nsmul Finset.univ _ _ few
  rw [Finset.card_univ, Fintype.card_fin] at most
  exact Nat.le_trans (Nat.le_trans (Nat.le_add_left _ _) gained) most

theorem twoMeet_through : 0 < 2 ∧ Runs.Along act NotSpurious (barrierInit 2) twoMeet ∧
    along act steps (barrierInit 2) twoMeet = 16 ∧ (∃ thread, (run twoMeet).enabled thread = true) ∧
    ∀ thread : Fin 2,
      along act steps (barrierInit 2) twoMeet ≤ 2 * (9 * ((run twoMeet).threads thread).returned + 17) := by
  have sound : Runs.Along act NotSpurious (barrierInit 2) twoMeet := by decide
  exact ⟨by decide, sound, by decide, barrier_lets_all_through (by decide) twoMeet sound⟩

end Barrier

end Hosk
