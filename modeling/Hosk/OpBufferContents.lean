import Hosk.OpBufferInterleaving

/-! What whole calls on the operation buffer hand from one side to the other. -/

namespace Hosk

namespace OpBuffer

structure Filled (good : Op → Prop) (buffer : OpBuffer) : Prop where
  length : buffer.opbuffer.length = buffer.bufSize
  slots : ∀ index, buffer.hlpIdx ≤ index → index < buffer.appIdx → good (buffer.slot index)

variable {good good' : Op → Prop} {bufSize : Nat} {buffer : OpBuffer}

theorem Filled.initial (good : Op → Prop) (bufSize : Nat) : (new bufSize).Filled good :=
  ⟨List.length_replicate, fun index _ early => absurd early (Nat.not_lt_zero index)⟩

theorem Filled.imp (filled : buffer.Filled good) (imp : ∀ op, good op → good' op) :
    buffer.Filled good' :=
  ⟨filled.length, fun index late early => imp _ (filled.slots index late early)⟩

theorem Filled.opbufferInsert (filled : buffer.Filled good) (ok : IndicesOk bufSize buffer) {key node : Nat}
    (goodOp : good ⟨key, node⟩) : (buffer.opbufferInsert key node).2.Filled good := by
  unfold OpBuffer.opbufferInsert
  split
  · exact filled
  · have inside : buffer.appIdx < buffer.opbuffer.length := by
      rw [filled.length, ok.size]
      exact ok.app
    have keyInside : buffer.appIdx < (buffer.setKey buffer.appIdx key).opbuffer.length := by
      rw [setKey, List.length_set]
      exact inside
    refine ⟨?_, ?_⟩
    · change ((buffer.opbuffer.set _ _).set _ _).length = _
      rw [List.length_set, List.length_set]
      exact filled.length
    · intro index late early
      change good (((buffer.setKey buffer.appIdx key).setNode buffer.appIdx node).slot index)
      by_cases fresh : buffer.appIdx = index
      · subst fresh
        rw [setNode_slot_same node keyInside, setKey_slot_same key inside]
        exact goodOp
      · rw [setNode_slot_other node fresh, setKey_slot_other key fresh]
        apply filled.slots index late
        have moved : index < (buffer.appIdx + 1) % buffer.bufSize := early
        have notMore := Nat.mod_le (buffer.appIdx + 1) buffer.bufSize
        omega

theorem Filled.opbufferRemove (filled : buffer.Filled good) (ok : IndicesOk bufSize buffer) :
    buffer.opbufferRemove.2.Filled good ∧ ∀ op, buffer.opbufferRemove.1 = some op → good op := by
  unfold OpBuffer.opbufferRemove
  split
  · exact ⟨filled, fun op wrong => absurd wrong (Option.some_ne_none op).symm⟩
  · rename_i passed
    obtain ⟨room, nextEq⟩ :=
      not_seemsEmpty (by rw [ok.size]; exact ok.app) (by rw [ok.size]; exact ok.hlp) passed
    refine ⟨⟨filled.length, ?_⟩, ?_⟩
    · intro index late early
      have later : buffer.next buffer.hlpIdx ≤ index := late
      exact filled.slots index (by omega) early
    · intro op taken
      rw [← Option.some.inj taken]
      exact filled.slots buffer.hlpIdx (Nat.le_refl _) (by omega)

end OpBuffer

end Hosk
