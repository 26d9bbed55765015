import Hosk.ApplicationLoop
import Hosk.InsertedRuns
import Hosk.OpBufferInterleaving

/-!
Start-up: an enclave's population through its operation buffer, its helper started again with
`reset_index`, and the loop in which `main` waits for the level of the sentinel.
-/

namespace Hosk

-- if (n >= 1<<k) { n >>= k; pos += k; }
def shiftIfLarge (k : Nat) (state : Nat × Nat) : Nat × Nat :=
  if 1 <<< k ≤ state.1 then (state.1 >>> k, state.2 + k) else state

def floorLog2 (n : Nat) : Int :=
  let (n, pos) := shiftIfLarge 2 (shiftIfLarge 4 (shiftIfLarge 8 (shiftIfLarge 16 (n, 0))))
  let pos := if 1 <<< 1 ≤ n then pos + 1 else pos
  if n = 0 then -1 else pos

/-- The condition of the loop: the level is unsigned, so the right side is converted. -/
def stillWaits (level d : Nat) : Prop := level < asUint (floorLog2 d - 1)

instance (level d : Nat) : Decidable (stillWaits level d) := inferInstanceAs (Decidable (_ < _))

def opbufferSz : Nat := 2000000

/-- The buffer, the helper's layers, and the jobs published so far, which is history. -/
structure StartUp where
  buffer : OpBuffer
  enclave : Option Enclave
  published : List Op

def Op.job (op : Op) : Job := ⟨op.key, op.node⟩

inductive StartUpAct where
  | publish (op : Op)
  | take
  | pass

namespace StartUp

def publish (state : StartUp) (op : Op) : StartUp :=
  let (accepted, buffer) := state.buffer.opbufferInsert op.key op.node
  { state with
    buffer := buffer
    published := if accepted then state.published ++ [op] else state.published }

def callHelper (platform : Platform) (state : StartUp) (call : Call) : StartUp :=
  { state with enclave := Enclave.turn platform state.enclave call }

def take (platform : Platform) (state : StartUp) : StartUp :=
  match state.buffer.opbufferRemove with
  | (none, buffer) => { state with buffer := buffer }
  | (some op, buffer) => callHelper platform { state with buffer := buffer } (.job op.job)

def act (platform : Platform) (state : StartUp) : StartUpAct → StartUp
  | .publish op => state.publish op
  | .take => state.take platform
  | .pass => state.callHelper platform .pass

/-- `while((cur_job = obj->opbuffer_remove(&cur_job)))`; a loop that does not end leaves no enclave. -/
def drain (platform : Platform) : Nat → StartUp → StartUp
  | 0, state => { state with enclave := none }
  | fuel + 1, state =>
      if state.buffer.opbufferRemove.1.isNone then state
      else drain platform fuel (state.take platform)

/-- One turn of `helper_loop` with `update_all`. -/
def round (platform : Platform) (state : StartUp) : StartUp :=
  (drain platform (state.buffer.bufSize + 1) state).callHelper platform .pass

def rounds (platform : Platform) : Nat → StartUp → StartUp
  | 0, state => state
  | count + 1, state => (rounds platform count state).round platform

def restarted (platform : Platform) (state : StartUp) : StartUp :=
  state.callHelper platform .reset

end StartUp

def Setting.populated (setting : Setting) (acts : List StartUpAct) : StartUp :=
  Runs.run (StartUp.act setting.platform) ⟨OpBuffer.new opbufferSz, setting.start, []⟩ acts

/-- After so many rounds the loop that waits for the enclave ends. -/
def Setting.EndsWait (setting : Setting) (acts : List StartUpAct) (d count : Nat) : Prop :=
  ∃ e level, (((setting.populated acts).restarted setting.platform).rounds setting.platform
      count).enclave = some e ∧ e.sentinelLevel = some level ∧ ¬ stillWaits level d

section Logarithm

theorem log_shiftRight {n k : Nat} (large : 1 <<< k ≤ n) :
    Nat.log 2 (n >>> k) + k = Nat.log 2 n ∧ n >>> k ≠ 0 := by
  rw [Nat.one_shiftLeft] at large
  have enough := Nat.le_log_of_pow_le Nat.one_lt_two large
  have quotient : ∀ k n, Nat.log 2 (n / 2 ^ k) = Nat.log 2 n - k := by
    intro k
    induction k with
    | zero => simp
    | succ k ih =>
        intro n
        rw [Nat.pow_succ, ← Nat.div_div_eq_div_mul, Nat.log_div_base, ih]
        omega
  rw [Nat.shiftRight_eq_div_pow, quotient]
  refine ⟨by omega, ?_⟩
  have positive := Nat.div_pos large (Nat.two_pow_pos k)
  omega

theorem log_small {n : Nat} (positive : n ≠ 0) (small : n < 4) :
    Nat.log 2 n = if 1 <<< 1 ≤ n then 1 else 0 := by
  match n with
  | 0 => exact absurd rfl positive
  | 1 | 2 | 3 => decide
  | n + 4 => omega

structure LogLeft (total bits : Nat) (state : Nat × Nat) : Prop where
  log : Nat.log 2 state.1 + state.2 = Nat.log 2 total
  nonzero : state.1 ≠ 0
  small : state.1 < 2 ^ bits

theorem LogLeft.shift {total k : Nat} {state : Nat × Nat} (left : LogLeft total (k + k) state) :
    LogLeft total k (shiftIfLarge k state) := by
  obtain ⟨log, nonzero, small⟩ := left
  rw [shiftIfLarge]
  split
  · rename_i large
    obtain ⟨shifted, positive⟩ := log_shiftRight large
    refine ⟨?_, positive, ?_⟩
    · rw [← log, ← shifted, Nat.add_assoc, Nat.add_comm k]
    · rw [Nat.shiftRight_eq_div_pow]
      apply Nat.div_lt_of_lt_mul
      rwa [← Nat.pow_add]
  · rename_i fits
    rw [Nat.one_shiftLeft] at fits
    exact ⟨log, nonzero, Nat.not_le.mp fits⟩

theorem floorLog2_eq {n : Nat} (positive : n ≠ 0) (bound : n < 2 ^ 32) : floorLog2 n = Nat.log 2 n := by
  have left : LogLeft n 32 (n, 0) := ⟨rfl, positive, bound⟩
  obtain ⟨log, nonzero, small⟩ : LogLeft n 2
      (shiftIfLarge 2 (shiftIfLarge 4 (shiftIfLarge 8 (shiftIfLarge 16 (n, 0))))) :=
    LogLeft.shift (LogLeft.shift (LogLeft.shift (LogLeft.shift left)))
  rw [floorLog2]
  generalize shiftIfLarge 2 _ = last at log nonzero small
  dsimp only
  rw [if_neg nonzero, ← log, log_small nonzero small]
  split <;> simp [Nat.add_comm]

end Logarithm

end Hosk
