import Mathlib.Data.Fintype.Card
import Hosk.Runs

/-!
`barrier_cross`: `n` threads, each in one call after the other, on one mutex and one condition
variable. `pthread_cond_wait` may also return without any broadcast.
-/

namespace Hosk

/-- Where a thread stands: between two calls, or at the next thing it does in one. -/
inductive BarrierPc where
  | outside
  | lock
  | increment
  | test
  | condWait
  | waiting
  | awake
  | broadcast
  | reset
  | unlock
  | leave
  deriving DecidableEq, Repr

structure BarrierThread where
  pc : BarrierPc
  entered : Nat
  returned : Nat
  deriving DecidableEq, Repr

def BarrierThread.wake (state : BarrierThread) : BarrierThread :=
  if state.pc = .waiting then { state with pc := .awake } else state

structure Barrier (n : Nat) where
  count : Nat
  crossing : Nat
  mutex : Option (Fin n)
  threads : Fin n → BarrierThread

inductive BarrierAct (n : Nat) where
  | step (thread : Fin n)
  | spurious (thread : Fin n)
  deriving DecidableEq

namespace Barrier

variable {n : Nat}

def barrierInit (n : Nat) : Barrier n := ⟨n, 0, none, fun _ => ⟨.outside, 0, 0⟩⟩

def setThread (b : Barrier n) (thread : Fin n) (state : BarrierThread) : Barrier n :=
  { b with threads := Function.update b.threads thread state }

def moveTo (b : Barrier n) (thread : Fin n) (pc : BarrierPc) : Barrier n :=
  b.setThread thread { b.threads thread with pc := pc }

-- a thread that waits, or finds the mutex taken, stays where it is
def barrierCross (b : Barrier n) (thread : Fin n) : Barrier n :=
  let state := b.threads thread
  match state.pc with
  | .outside => b.setThread thread { state with pc := .lock, entered := state.entered + 1 }
  | .lock => if b.mutex = none then { b with mutex := some thread }.moveTo thread .increment else b
  | .increment => { b with crossing := b.crossing + 1 }.moveTo thread .test
  | .test => b.moveTo thread (if b.crossing < b.count then .condWait else .broadcast)
  | .condWait => { b with mutex := none }.moveTo thread .waiting
  | .waiting => b
  | .awake => if b.mutex = none then { b with mutex := some thread }.moveTo thread .unlock else b
  | .broadcast => { b with threads := fun other => (b.threads other).wake }.moveTo thread .reset
  | .reset => { b with crossing := 0 }.moveTo thread .unlock
  | .unlock => { b with mutex := none }.moveTo thread .leave
  | .leave => b.setThread thread { state with pc := .outside, returned := state.returned + 1 }

def act (b : Barrier n) : BarrierAct n → Barrier n
  | .step thread => b.barrierCross thread
  | .spurious thread => b.setThread thread (b.threads thread).wake

def run (acts : List (BarrierAct n)) : Barrier n := Runs.run act (barrierInit n) acts

/-- No thread has returned from more calls than any other has entered. -/
def ReleasesLate (b : Barrier n) : Prop :=
  ∀ thread other, (b.threads thread).returned ≤ (b.threads other).entered

instance (b : Barrier n) : Decidable b.ReleasesLate := inferInstanceAs (Decidable (∀ _ _, _ ≤ _))

def NotSpurious (b : Barrier n) (action : BarrierAct n) : Prop :=
  ∀ thread, action = .spurious thread → (b.threads thread).pc ≠ .waiting

instance (b : Barrier n) (action : BarrierAct n) : Decidable (b.NotSpurious action) :=
  inferInstanceAs (Decidable (∀ _, _ → _))

end Barrier

namespace BarrierPc

def counted : BarrierPc → Bool
  | .test | .condWait | .waiting | .broadcast => true
  | _ => false

def holds : BarrierPc → Bool
  | .increment | .test | .condWait | .broadcast | .reset | .unlock => true
  | _ => false

end BarrierPc

/-- Where a thread can be when `g` times all threads have been released. -/
def BarrierThread.Placed (g : Nat) (state : BarrierThread) : Prop :=
  match state.pc with
  | .outside => state.entered = g ∧ state.returned = g
  | .lock | .increment | .test | .condWait | .waiting | .broadcast =>
      state.entered = g + 1 ∧ state.returned = g
  | .awake | .reset | .unlock | .leave => state.entered = g ∧ state.returned + 1 = g

namespace Barrier

variable {n : Nat}

def waits (b : Barrier n) : Finset (Fin n) :=
  Finset.univ.filter fun thread => (b.threads thread).pc.counted = true

theorem mem_waits {b : Barrier n} {thread : Fin n} :
    thread ∈ b.waits ↔ (b.threads thread).pc.counted = true := by
  simp only [waits, Finset.mem_filter, Finset.mem_univ, true_and]

structure Ok (g : Nat) (b : Barrier n) : Prop where
  count : b.count = n
  placed : ∀ thread, (b.threads thread).Placed g
  owner : ∀ thread, (b.threads thread).pc.holds = true → b.mutex = some thread
  crossing : (∀ thread, (b.threads thread).pc ≠ .reset) → b.crossing = b.waits.card
  full : ∀ thread, (b.threads thread).pc = .broadcast →
    ∀ other, (b.threads other).pc.counted = true
  emptied : ∀ thread, (b.threads thread).pc = .reset →
    ∀ other, (b.threads other).pc.counted = false

variable {g : Nat} {b : Barrier n} {thread : Fin n}

theorem barrierInit_ok (n : Nat) : (barrierInit n).Ok 0 where
  count := rfl
  placed := fun _ => ⟨rfl, rfl⟩
  owner := fun _ holds => absurd holds Bool.false_ne_true
  crossing := by
    intro _
    have none : (barrierInit n).waits = ∅ := Finset.filter_false_of_mem fun _ _ => Bool.false_ne_true
    rw [none]
    rfl
  full := fun _ located => absurd located (fun same => by cases same)
  emptied := fun _ located => absurd located (fun same => by cases same)

theorem Ok.releasesLate (ok : b.Ok g) : b.ReleasesLate := by
  have bounds : ∀ thread, (b.threads thread).returned ≤ g ∧ g ≤ (b.threads thread).entered := by
    intro thread
    have placed := ok.placed thread
    unfold BarrierThread.Placed at placed
    split at placed <;> omega
  exact fun thread other => Nat.le_trans (bounds thread).1 (bounds other).2

theorem Ok.alone (ok : b.Ok g) (holds : (b.threads thread).pc.holds = true) {other : Fin n}
    (apart : other ≠ thread) : (b.threads other).pc.holds = false := by
  by_contra also
  have same := (ok.owner other (Bool.eq_true_of_not_eq_false also)).symm.trans (ok.owner thread holds)
  exact apart (Option.some.inj same)

theorem waits_congr {after : Barrier n}
    (same : ∀ other, (after.threads other).pc.counted = (b.threads other).pc.counted) :
    after.waits = b.waits := by
  unfold waits
  simp only [same]

theorem setThread_same (b : Barrier n) (thread : Fin n) (state : BarrierThread) :
    (b.setThread thread state).threads thread = state := by
  simp [setThread]

theorem setThread_other (b : Barrier n) {thread other : Fin n} (state : BarrierThread)
    (apart : other ≠ thread) : (b.setThread thread state).threads other = b.threads other := by
  simp [setThread, apart]

theorem Ok.moves (ok : b.Ok g) {state : BarrierThread} {mutex : Option (Fin n)}
    (placed : state.Placed g) (counted : state.pc.counted = (b.threads thread).pc.counted)
    (notReset : (b.threads thread).pc ≠ .reset) (notBroadcast' : state.pc ≠ .broadcast)
    (notReset' : state.pc ≠ .reset) (owns : state.pc.holds = true → mutex = some thread)
    (others : ∀ other, other ≠ thread → (b.threads other).pc.holds = true → mutex = some other) :
    ({ b with mutex := mutex }.setThread thread state).Ok g := by
  have same : ({ b with mutex := mutex }.setThread thread state).threads thread = state :=
    setThread_same _ _ _
  have kept : ∀ other, other ≠ thread →
      ({ b with mutex := mutex }.setThread thread state).threads other = b.threads other :=
    fun other apart => setThread_other _ _ apart
  have countedSame : ∀ other,
      (({ b with mutex := mutex }.setThread thread state).threads other).pc.counted =
        (b.threads other).pc.counted := by
    intro other
    by_cases apart : other = thread
    · rw [apart, same, counted]
    · rw [kept other apart]
  refine ⟨ok.count, ?_, ?_, ?_, ?_, ?_⟩
  · intro other
    by_cases apart : other = thread
    · rw [apart, same]
      exact placed
    · rw [kept other apart]
      exact ok.placed other
  · intro other holds
    by_cases apart : other = thread
    · rw [apart, same] at holds
      rw [apart]
      exact owns holds
    · rw [kept other apart] at holds
      exact others other apart holds
  · intro none
    rw [waits_congr countedSame]
    refine ok.crossing fun other located => ?_
    by_cases apart : other = thread
    · exact notReset (apart ▸ located)
    · exact none other (by rw [kept other apart]; exact located)
  · intro other located another
    by_cases apart : other = thread
    · rw [apart, same] at located
      exact absurd located notBroadcast'
    · rw [kept other apart] at located
      rw [countedSame]
      exact ok.full other located another
  · intro other located another
    by_cases apart : other = thread
    · rw [apart, same] at located
      exact absurd located notReset'
    · rw [kept other apart] at located
      rw [countedSame]
      exact ok.emptied other located another

theorem moveTo_same (b : Barrier n) (thread : Fin n) (pc : BarrierPc) :
    (b.moveTo thread pc).threads thread = { b.threads thread with pc := pc } :=
  setThread_same _ _ _

theorem moveTo_other (b : Barrier n) {thread other : Fin n} (pc : BarrierPc) (apart : other ≠ thread) :
    (b.moveTo thread pc).threads other = b.threads other :=
  setThread_other _ _ apart

theorem Ok.elsewhere (ok : b.Ok g) (holds : (b.threads thread).pc.holds = true) {pc : BarrierPc}
    (held : pc.holds = true) {other : Fin n} (located : (b.threads other).pc = pc) : other = thread := by
  by_contra apart
  have free := ok.alone holds apart
  rw [located, held] at free
  cases free

theorem Ok.increment (ok : b.Ok g) (located : (b.threads thread).pc = .increment) :
    ({ b with crossing := b.crossing + 1 }.moveTo thread .test).Ok g := by
  have holding : (b.threads thread).pc.holds = true := by rw [located]; rfl
  have placed := ok.placed thread
  simp only [BarrierThread.Placed, located] at placed
  have nowhere : ∀ pc, pc.holds = true → pc ≠ .increment → ∀ other, (b.threads other).pc ≠ pc := by
    intro pc held apart other isAt
    have same := ok.elsewhere holding held isAt
    rw [same, located] at isAt
    exact apart isAt.symm
  have same := moveTo_same { b with crossing := b.crossing + 1 } thread .test
  have kept : ∀ other, other ≠ thread → _ := fun other apart =>
    moveTo_other { b with crossing := b.crossing + 1 } .test apart
  refine ⟨ok.count, ?_, ?_, ?_, ?_, ?_⟩
  · intro other
    by_cases apart : other = thread
    · rw [apart, same]
      exact placed
    · rw [kept other apart]
      exact ok.placed other
  · intro other holds
    by_cases apart : other = thread
    · rw [apart]
      exact ok.owner thread holding
    · rw [kept other apart] at holds
      exact ok.owner other holds
  · intro _
    have fresh : thread ∉ b.waits := by
      rw [mem_waits, located]
      exact Bool.false_ne_true
    have grown : ({ b with crossing := b.crossing + 1 }.moveTo thread .test).waits =
        insert thread b.waits := by
      ext other
      rw [Finset.mem_insert, mem_waits, mem_waits]
      by_cases apart : other = thread
      · rw [apart, same]
        exact iff_of_true rfl (Or.inl rfl)
      · rw [kept other apart, or_iff_right apart]
    rw [grown, Finset.card_insert_of_notMem fresh,
      ← ok.crossing (nowhere .reset rfl (fun same => by cases same))]
    rfl
  · intro other isAt
    by_cases apart : other = thread
    · rw [apart, same] at isAt
      cases isAt
    · rw [kept other apart] at isAt
      exact absurd isAt (nowhere .broadcast rfl (fun same => by cases same) other)
  · intro other isAt
    by_cases apart : other = thread
    · rw [apart, same] at isAt
      cases isAt
    · rw [kept other apart] at isAt
      exact absurd isAt (nowhere .reset rfl (fun same => by cases same) other)

theorem counted_free {pc : BarrierPc} (counted : pc.counted = true) (free : pc.holds = false) :
    pc = .waiting := by
  cases pc <;> simp_all [BarrierPc.counted, BarrierPc.holds]

/-- The last thread lets all the others go, and the next time begins. -/
theorem Ok.broadcast (ok : b.Ok g) (located : (b.threads thread).pc = .broadcast) :
    ({ b with threads := fun other => (b.threads other).wake }.moveTo thread .reset).Ok (g + 1) := by
  have holding : (b.threads thread).pc.holds = true := by rw [located]; rfl
  have placed := ok.placed thread
  simp only [BarrierThread.Placed, located] at placed
  have same := moveTo_same { b with threads := fun other => (b.threads other).wake } thread .reset
  have woken : ∀ other, other ≠ thread →
      ({ b with threads := fun other => (b.threads other).wake }.moveTo thread .reset).threads other =
        { b.threads other with pc := .awake } ∧
      (b.threads other).entered = g + 1 ∧ (b.threads other).returned = g := by
    intro other apart
    have isWaiting := counted_free (ok.full thread located other) (ok.alone holding apart)
    have otherPlaced := ok.placed other
    simp only [BarrierThread.Placed, isWaiting] at otherPlaced
    rw [moveTo_other _ _ apart]
    refine ⟨?_, otherPlaced⟩
    simp only [BarrierThread.wake, isWaiting, if_true]
  have counts : ((b.threads thread).wake).entered = g + 1 ∧
      ((b.threads thread).wake).returned + 1 = g + 1 := by
    simp only [BarrierThread.wake, located, reduceCtorEq, if_false, placed, and_self]
  refine ⟨ok.count, ?_, ?_, ?_, ?_, ?_⟩
  · intro other
    by_cases apart : other = thread
    · rw [apart, same]
      exact counts
    · obtain ⟨now, entered, returned⟩ := woken other apart
      rw [now]
      exact ⟨entered, congrArg (· + 1) returned⟩
  · intro other holds
    by_cases apart : other = thread
    · rw [apart]
      exact ok.owner thread holding
    · rw [(woken other apart).1] at holds
      cases holds
  · intro none
    exact absurd (congrArg BarrierThread.pc same) (none thread)
  · intro other isAt
    by_cases apart : other = thread
    · rw [apart, same] at isAt
      cases isAt
    · rw [(woken other apart).1] at isAt
      cases isAt
  · intro _ _ other
    by_cases apart : other = thread
    · rw [apart, same]
      rfl
    · rw [(woken other apart).1]
      rfl

theorem Ok.reset (ok : b.Ok g) (located : (b.threads thread).pc = .reset) :
    ({ b with crossing := 0 }.moveTo thread .unlock).Ok g := by
  have holding : (b.threads thread).pc.holds = true := by rw [located]; rfl
  have placed := ok.placed thread
  simp only [BarrierThread.Placed, located] at placed
  have nowhere : ∀ pc, pc.holds = true → ∀ other, other ≠ thread → (b.threads other).pc ≠ pc :=
    fun pc held other apart isAt => apart (ok.elsewhere holding held isAt)
  have same := moveTo_same { b with crossing := 0 } thread .unlock
  have kept : ∀ other, other ≠ thread → _ := fun other apart =>
    moveTo_other { b with crossing := 0 } .unlock apart
  refine ⟨ok.count, ?_, ?_, ?_, ?_, ?_⟩
  · intro other
    by_cases apart : other = thread
    · rw [apart, same]
      exact placed
    · rw [kept other apart]
      exact ok.placed other
  · intro other holds
    by_cases apart : other = thread
    · rw [apart]
      exact ok.owner thread holding
    · rw [kept other apart] at holds
      exact ok.owner other holds
  · intro _
    have none : ({ b with crossing := 0 }.moveTo thread .unlock).waits = ∅ := by
      refine Finset.filter_false_of_mem fun other _ => ?_
      by_cases apart : other = thread
      · rw [apart, same]
        exact Bool.false_ne_true
      · rw [kept other apart, ok.emptied thread located other]
        exact Bool.false_ne_true
    rw [none]
    rfl
  · intro other isAt
    by_cases apart : other = thread
    · rw [apart, same] at isAt
      cases isAt
    · rw [kept other apart] at isAt
      exact absurd isAt (nowhere .broadcast rfl other apart)
  · intro other isAt
    by_cases apart : other = thread
    · rw [apart, same] at isAt
      cases isAt
    · rw [kept other apart] at isAt
      exact absurd isAt (nowhere .reset rfl other apart)

theorem Ok.last (ok : b.Ok g) (notReset : ∀ thread, (b.threads thread).pc ≠ .reset)
    (enough : b.count ≤ b.crossing) (other : Fin n) : (b.threads other).pc.counted = true := by
  have all : b.waits = Finset.univ := by
    refine (Finset.card_eq_iff_eq_univ _).1 (le_antisymm (Finset.card_le_univ _) ?_)
    rw [Fintype.card_fin, ← ok.crossing notReset]
    exact ok.count.symm.trans_le enough
  exact mem_waits.1 (all ▸ Finset.mem_univ other)

theorem Ok.broadcasts (ok : b.Ok g) (located : (b.threads thread).pc = .test)
    (enough : b.count ≤ b.crossing) : (b.moveTo thread .broadcast).Ok g := by
  have holding : (b.threads thread).pc.holds = true := by rw [located]; rfl
  have placed := ok.placed thread
  simp only [BarrierThread.Placed, located] at placed
  have notReset : ∀ other, (b.threads other).pc ≠ .reset := by
    intro other isAt
    have same := ok.elsewhere holding rfl isAt
    rw [same, located] at isAt
    cases isAt
  have same := moveTo_same b thread .broadcast
  have kept : ∀ other, other ≠ thread → _ := fun other apart => moveTo_other b .broadcast apart
  have countedSame : ∀ other, ((b.moveTo thread .broadcast).threads other).pc.counted =
      (b.threads other).pc.counted := by
    intro other
    by_cases apart : other = thread
    · rw [apart, same, located]
      rfl
    · rw [kept other apart]
  refine ⟨ok.count, ?_, ?_, ?_, ?_, ?_⟩
  · intro other
    by_cases apart : other = thread
    · rw [apart, same]
      exact placed
    · rw [kept other apart]
      exact ok.placed other
  · intro other holds
    by_cases apart : other = thread
    · rw [apart]
      exact ok.owner thread holding
    · rw [kept other apart] at holds
      exact ok.owner other holds
  · intro _
    rw [waits_congr countedSame]
    exact ok.crossing notReset
  · intro _ _ other
    rw [countedSame]
    exact ok.last notReset enough other
  · intro other isAt
    by_cases apart : other = thread
    · rw [apart, same] at isAt
      cases isAt
    · rw [kept other apart] at isAt
      exact absurd isAt (notReset other)

theorem Ok.free (ok : b.Ok g) (free : b.mutex = none) (other : Fin n) :
    (b.threads other).pc.holds = false := by
  by_contra also
  have owner := ok.owner other (Bool.eq_true_of_not_eq_false also)
  rw [free] at owner
  cases owner

theorem Ok.lets_go (ok : b.Ok g) (holding : (b.threads thread).pc.holds = true) {pc : BarrierPc}
    (placed : BarrierThread.Placed g { b.threads thread with pc := pc })
    (counted : pc.counted = (b.threads thread).pc.counted)
    (notReset : (b.threads thread).pc ≠ .reset) (lets : pc.holds = false) :
    ({ b with mutex := none }.moveTo thread pc).Ok g := by
  refine ok.moves placed counted notReset ?_ ?_ ?_ ?_
  · intro same
    rw [show pc = .broadcast from same] at lets
    cases lets
  · intro same
    rw [show pc = .reset from same] at lets
    cases lets
  · intro holds
    rw [show pc.holds = true from holds] at lets
    cases lets
  · intro other apart holds
    rw [ok.alone holding apart] at holds
    cases holds

theorem Ok.gets (ok : b.Ok g) (free : b.mutex = none) {pc : BarrierPc}
    (placed : BarrierThread.Placed g { b.threads thread with pc := pc })
    (counted : pc.counted = (b.threads thread).pc.counted)
    (notReset : (b.threads thread).pc ≠ .reset) (notBroadcast' : pc ≠ .broadcast)
    (notReset' : pc ≠ .reset) : ({ b with mutex := some thread }.moveTo thread pc).Ok g := by
  refine ok.moves placed counted notReset notBroadcast' notReset' (fun _ => rfl) ?_
  intro other _ holds
  rw [ok.free free other] at holds
  cases holds

/-- One step of one thread, which may be the one that lets all go. -/
theorem Ok.barrierCross (ok : b.Ok g) (thread : Fin n) :
    (b.barrierCross thread).Ok g ∨ (b.barrierCross thread).Ok (g + 1) := by
  have placed := ok.placed thread
  cases located : (b.threads thread).pc <;>
    simp only [Barrier.barrierCross, BarrierThread.Placed, located] at placed ⊢
  case outside =>
    refine Or.inl (ok.moves ?_ ?_ ?_ ?_ ?_ ?_ fun other _ => ok.owner other)
    all_goals simp [BarrierThread.Placed, located, BarrierPc.counted, BarrierPc.holds, placed]
  case lock =>
    split
    next free =>
      refine Or.inl (ok.gets free ?_ ?_ ?_ ?_ ?_)
      all_goals simp [BarrierThread.Placed, located, BarrierPc.counted, placed]
    next => exact Or.inl ok
  case increment => exact Or.inl (ok.increment located)
  case test =>
    split
    next early =>
      refine Or.inl (ok.moves ?_ ?_ ?_ ?_ ?_ (fun _ => ?_) fun other _ => ok.owner other)
      case refine_6 => exact ok.owner thread (by rw [located]; rfl)
      all_goals simp [BarrierThread.Placed, located, BarrierPc.counted, placed]
    next last => exact Or.inl (ok.broadcasts located (Nat.le_of_not_lt last))
  case condWait =>
    refine Or.inl (ok.lets_go ?_ ?_ ?_ ?_ ?_)
    all_goals simp [BarrierThread.Placed, located, BarrierPc.counted, BarrierPc.holds, placed]
  case waiting => exact Or.inl ok
  case awake =>
    split
    next free =>
      refine Or.inl (ok.gets free ?_ ?_ ?_ ?_ ?_)
      all_goals simp [BarrierThread.Placed, located, BarrierPc.counted, placed]
    next => exact Or.inl ok
  case broadcast => exact Or.inr (ok.broadcast located)
  case reset => exact Or.inl (ok.reset located)
  case unlock =>
    refine Or.inl (ok.lets_go ?_ ?_ ?_ ?_ ?_)
    all_goals simp [BarrierThread.Placed, located, BarrierPc.counted, BarrierPc.holds, placed]
  case leave =>
    refine Or.inl (ok.moves ?_ ?_ ?_ ?_ ?_ ?_ fun other _ => ok.owner other)
    all_goals simp [BarrierThread.Placed, located, BarrierPc.counted, BarrierPc.holds, placed]

theorem setThread_wake (b : Barrier n) (asleep : (b.threads thread).pc ≠ .waiting) :
    b.setThread thread (b.threads thread).wake = b := by
  rw [BarrierThread.wake, if_neg asleep]
  exact congrArg (fun threads => { b with threads := threads }) (Function.update_eq_self _ _)

theorem Ok.act (ok : b.Ok g) {action : BarrierAct n} (sound : b.NotSpurious action) :
    ∃ later, (b.act action).Ok later := by
  cases action with
  | step thread => exact (ok.barrierCross thread).elim (fun now => ⟨g, now⟩) fun now => ⟨g + 1, now⟩
  | spurious thread =>
    refine ⟨g, ?_⟩
    rw [Barrier.act, setThread_wake b (sound thread rfl)]
    exact ok

theorem Ok.along {acts : List (BarrierAct n)} :
    ∀ {g : Nat} {b : Barrier n}, b.Ok g → Runs.Along Barrier.act NotSpurious b acts →
      ∃ later, (Runs.run Barrier.act b acts).Ok later := by
  induction acts with
  | nil => exact fun ok _ => ⟨_, ok⟩
  | cons action rest ih =>
    rintro g b ok ⟨now, sound⟩
    obtain ⟨_, stepped⟩ := ok.act now
    exact ih stepped sound

/-- `barrier_cross` releases nobody early as long as no thread wakes up of itself. -/
theorem released_after_all_entered (n : Nat) (acts : List (BarrierAct n))
    (sound : Runs.Along act NotSpurious (barrierInit n) acts) : (run acts).ReleasesLate := by
  obtain ⟨_, ok⟩ := (barrierInit_ok n).along sound
  exact ok.releasesLate

def twoMeet : List (BarrierAct 2) :=
  List.replicate 5 (.step 0) ++ List.replicate 8 (.step 1) ++ List.replicate 3 (.step 0)

theorem twoMeet_released :
    ((run twoMeet).threads 0).returned = 1 ∧ ((run twoMeet).threads 1).returned = 1 ∧
      (run twoMeet).ReleasesLate := by
  have sound : Runs.Along act NotSpurious (barrierInit 2) twoMeet := by decide
  exact ⟨by decide, by decide, released_after_all_entered 2 twoMeet sound⟩

def earlyWake : List (BarrierAct 2) :=
  List.replicate 5 (.step 0) ++ [.spurious 0] ++ List.replicate 3 (.step 0)

theorem earlyWake_released_early :
    ((run earlyWake).threads 0).returned = 1 ∧ ((run earlyWake).threads 1).entered = 0 ∧
      ¬ (run earlyWake).ReleasesLate := by
  have returned : ((run earlyWake).threads 0).returned = 1 := by decide
  have entered : ((run earlyWake).threads 1).entered = 0 := by decide
  refine ⟨returned, entered, fun late => ?_⟩
  have bound := late 0 1
  rw [returned, entered] at bound
  exact absurd bound (by decide)

end Barrier

end Hosk
