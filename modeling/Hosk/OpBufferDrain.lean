import Mathlib.Data.List.Basic
import Hosk.OpBufferCore

/-!
Whole calls on the operation buffer. The emptiness test subtracts the two indices without
reducing the difference, so the consumer stops for ever once the producer has wrapped.
-/

namespace Hosk

inductive BufferCall where
  | insert (key node : Nat)
  | remove
  deriving DecidableEq, Repr

namespace OpBuffer

def call (buffer : OpBuffer) : BufferCall → OpBuffer
  | .insert key node => (buffer.opbufferInsert key node).2
  | .remove => buffer.opbufferRemove.2

def afterCalls (bufSize : Nat) (calls : List BufferCall) : OpBuffer :=
  Runs.run call (new bufSize) calls

/-- What both indices satisfy after any calls: the consumer's never comes within two slots of
the end of the array, since the test cannot succeed there. -/
structure IndicesOk (bufSize : Nat) (buffer : OpBuffer) : Prop where
  size : buffer.bufSize = bufSize
  app : buffer.appIdx < bufSize
  hlp : buffer.hlpIdx = 0 ∨ buffer.hlpIdx + 3 ≤ bufSize

theorem next_eq {buffer : OpBuffer} {index : Nat} (inside : index + 1 < buffer.bufSize) :
    buffer.next index = index + 1 := by
  simp [next, Nat.mod_eq_of_lt inside]

@[simp] theorem setKey_bufSize (buffer : OpBuffer) (index key : Nat) :
    (buffer.setKey index key).bufSize = buffer.bufSize := rfl

@[simp] theorem setKey_appIdx (buffer : OpBuffer) (index key : Nat) :
    (buffer.setKey index key).appIdx = buffer.appIdx := rfl

@[simp] theorem setKey_hlpIdx (buffer : OpBuffer) (index key : Nat) :
    (buffer.setKey index key).hlpIdx = buffer.hlpIdx := rfl

@[simp] theorem setNode_bufSize (buffer : OpBuffer) (index node : Nat) :
    (buffer.setNode index node).bufSize = buffer.bufSize := rfl

@[simp] theorem setNode_appIdx (buffer : OpBuffer) (index node : Nat) :
    (buffer.setNode index node).appIdx = buffer.appIdx := rfl

@[simp] theorem setNode_hlpIdx (buffer : OpBuffer) (index node : Nat) :
    (buffer.setNode index node).hlpIdx = buffer.hlpIdx := rfl

theorem insert_indices {bufSize : Nat} {buffer : OpBuffer} (ok : IndicesOk bufSize buffer)
    (key node : Nat) : IndicesOk bufSize (buffer.opbufferInsert key node).2 := by
  unfold opbufferInsert
  split
  · exact ok
  · refine ⟨ok.size, ?_, ok.hlp⟩
    have positive : 0 < buffer.bufSize := by rw [ok.size]; exact Nat.zero_lt_of_lt ok.app
    simpa [next, ok.size] using Nat.mod_lt (buffer.appIdx + 1) (ok.size ▸ positive)

/-- A remove that succeeds sees at least three slots between its index and the producer's. -/
theorem not_seemsEmpty {buffer : OpBuffer} {app : Nat} (appBound : app < buffer.bufSize)
    (hlpBound : buffer.hlpIdx = 0 ∨ buffer.hlpIdx + 3 ≤ buffer.bufSize)
    (passed : ¬ buffer.seemsEmpty app buffer.hlpIdx) :
    buffer.hlpIdx + 3 ≤ app ∧ buffer.next buffer.hlpIdx = buffer.hlpIdx + 1 := by
  unfold seemsEmpty at passed
  by_cases inside : buffer.hlpIdx + 1 < buffer.bufSize
  · rw [next_eq inside] at passed ⊢
    exact ⟨by omega, rfl⟩
  · have single : buffer.bufSize = 1 := by omega
    omega

theorem remove_indices {bufSize : Nat} {buffer : OpBuffer} (ok : IndicesOk bufSize buffer) :
    IndicesOk bufSize buffer.opbufferRemove.2 := by
  unfold opbufferRemove
  split
  · exact ok
  · rename_i passed
    have appBound : buffer.appIdx < buffer.bufSize := by rw [ok.size]; exact ok.app
    obtain ⟨room, nextEq⟩ := not_seemsEmpty appBound (by rw [ok.size]; exact ok.hlp) passed
    refine ⟨ok.size, ok.app, Or.inr ?_⟩
    have := ok.app
    simp only [nextEq]
    omega

theorem afterCalls_indices {bufSize : Nat} (positive : 0 < bufSize) (calls : List BufferCall) :
    IndicesOk bufSize (afterCalls bufSize calls) := by
  refine Runs.run_invariant (IndicesOk bufSize) ⟨rfl, positive, Or.inl rfl⟩ ?_ calls
  intro buffer call ok
  cases call with
  | insert key node => exact insert_indices ok key node
  | remove => exact remove_indices ok

/-- The buffer can be drained as it stands: a remove fails only with at most two entries queued,
and when an insert is refused, a remove returns the oldest entry and makes room for an insert. -/
def Drains (buffer : OpBuffer) : Prop :=
  (buffer.opbufferRemove.1 = none → buffer.queued ≤ 2) ∧
  ((∃ key node, (buffer.opbufferInsert key node).1 = false) →
    buffer.opbufferRemove.1 = some (buffer.slot buffer.hlpIdx) ∧
    ∀ key node, (buffer.opbufferRemove.2.opbufferInsert key node).1 = true)

theorem remove_none_iff (buffer : OpBuffer) :
    buffer.opbufferRemove.1 = none ↔ buffer.seemsEmpty buffer.appIdx buffer.hlpIdx := by
  unfold opbufferRemove
  split <;> simp_all

theorem insert_refused_iff (buffer : OpBuffer) (key node : Nat) :
    (buffer.opbufferInsert key node).1 = false ↔ buffer.next buffer.appIdx = buffer.hlpIdx := by
  unfold opbufferInsert
  split <;> simp_all

theorem queued_not_wrapped {buffer : OpBuffer} (bound : buffer.appIdx < buffer.bufSize)
    (order : buffer.hlpIdx ≤ buffer.appIdx) : buffer.queued = buffer.appIdx - buffer.hlpIdx := by
  have shift : buffer.appIdx + buffer.bufSize - buffer.hlpIdx =
      (buffer.appIdx - buffer.hlpIdx) + buffer.bufSize := by omega
  rw [queued, shift, Nat.add_mod_right, Nat.mod_eq_of_lt (by omega)]

theorem queued_wrapped {buffer : OpBuffer} (bound : buffer.hlpIdx < buffer.bufSize)
    (order : buffer.appIdx < buffer.hlpIdx) :
    buffer.queued = buffer.appIdx + buffer.bufSize - buffer.hlpIdx := by
  rw [queued, Nat.mod_eq_of_lt (by omega)]

theorem drains_of_not_wrapped {bufSize : Nat} {buffer : OpBuffer} (large : 4 ≤ bufSize)
    (ok : IndicesOk bufSize buffer) (order : buffer.hlpIdx ≤ buffer.appIdx) :
    buffer.Drains := by
  have appBound : buffer.appIdx < buffer.bufSize := by rw [ok.size]; exact ok.app
  have hlpBound := ok.hlp
  have size := ok.size
  have nextHlp : buffer.next buffer.hlpIdx = buffer.hlpIdx + 1 := next_eq (by omega)
  constructor
  · intro failed
    rw [remove_none_iff, seemsEmpty, nextHlp] at failed
    rw [queued_not_wrapped appBound order]
    omega
  · rintro ⟨key, node, refused⟩
    rw [insert_refused_iff] at refused
    -- a refused insert that has not wrapped stands at the last slot with the consumer at slot 0
    have last : buffer.appIdx + 1 = buffer.bufSize := by
      by_contra different
      rw [next_eq (by omega)] at refused
      omega
    have first : buffer.hlpIdx = 0 := by
      rw [next, last, Nat.mod_self] at refused
      exact refused.symm
    have passed : ¬ buffer.seemsEmpty buffer.appIdx buffer.hlpIdx := by
      rw [seemsEmpty, nextHlp]
      omega
    constructor
    · simp [opbufferRemove, passed]
    · intro key node
      rw [← Bool.not_eq_false, insert_refused_iff]
      simp only [opbufferRemove, passed, if_false]
      show ¬ (buffer.appIdx + 1) % buffer.bufSize = buffer.next buffer.hlpIdx
      rw [last, Nat.mod_self, nextHlp]
      omega

theorem not_drains_of_wrapped {bufSize : Nat} {buffer : OpBuffer}
    (ok : IndicesOk bufSize buffer) (order : buffer.appIdx < buffer.hlpIdx) :
    ¬ buffer.Drains := by
  have hlpBound := ok.hlp
  have size := ok.size
  have nextHlp : buffer.next buffer.hlpIdx = buffer.hlpIdx + 1 := next_eq (by omega)
  intro drains
  have failed : buffer.opbufferRemove.1 = none := by
    rw [remove_none_iff, seemsEmpty, nextHlp]
    omega
  have few := drains.1 failed
  rw [queued_wrapped (by omega) order] at few
  omega

/-- After any calls, the buffer drains exactly when the producer's index has not wrapped past
the consumer's. -/
theorem drains_iff_not_wrapped (bufSize : Nat) (large : 4 ≤ bufSize) (calls : List BufferCall) :
    (afterCalls bufSize calls).Drains ↔
      (afterCalls bufSize calls).hlpIdx ≤ (afterCalls bufSize calls).appIdx := by
  have ok := afterCalls_indices (by omega : 0 < bufSize) calls
  constructor
  · intro drains
    by_contra wrapped
    exact not_drains_of_wrapped ok (by omega) drains
  · exact drains_of_not_wrapped large ok

theorem drains_iff_not_wrapped_four :
    (afterCalls 4 [.insert 1 10, .insert 2 20, .insert 3 30]).Drains ↔
      (afterCalls 4 [.insert 1 10, .insert 2 20, .insert 3 30]).hlpIdx ≤
        (afterCalls 4 [.insert 1 10, .insert 2 20, .insert 3 30]).appIdx :=
  drains_iff_not_wrapped 4 (by decide) _

/-- Four slots: one entry removed and a fourth inserted leave the buffer full with the producer
at slot 0. Inserts are refused, and no remove ever returns an entry again. -/
theorem wrapped_buffer_never_drains :
    let buffer := afterCalls 4
      [.insert 1 10, .insert 2 20, .insert 3 30, .remove, .insert 4 40]
    buffer.queued = 3 ∧ buffer.opbufferRemove = (none, buffer) ∧
      (buffer.opbufferInsert 5 50).1 = false ∧ ¬ buffer.Drains := by
  refine ⟨by decide, by decide, by decide, ?_⟩
  intro drains
  exact absurd (drains.1 (by decide)) (by decide)

end OpBuffer

end Hosk
