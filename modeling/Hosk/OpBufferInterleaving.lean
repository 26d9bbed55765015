import Mathlib.Data.List.Basic
import Mathlib.Data.List.Infix
import Hosk.OpBufferDrain

/-!
One inserting and one removing thread on the operation buffer, interleaved at single loads and
stores. The consumer may act on an old `app_idx`; that index is only ever too small.
-/

namespace Hosk

namespace OpBuffer

theorem slot_set_same {buffer : OpBuffer} {index : Nat} (op : Op)
    (inside : index < buffer.opbuffer.length) :
    (buffer.opbuffer.set index op).getD index ⟨0, 0⟩ = op := by
  simp [List.getD, inside]

theorem slot_set_other {buffer : OpBuffer} {index other : Nat} (op : Op) (different : index ≠ other) :
    (buffer.opbuffer.set index op).getD other ⟨0, 0⟩ = buffer.slot other := by
  simp [slot, List.getD, different]

theorem setKey_slot_other {buffer : OpBuffer} {index other : Nat} (key : Nat)
    (different : index ≠ other) : (buffer.setKey index key).slot other = buffer.slot other :=
  slot_set_other _ different

theorem setNode_slot_other {buffer : OpBuffer} {index other : Nat} (node : Nat)
    (different : index ≠ other) : (buffer.setNode index node).slot other = buffer.slot other :=
  slot_set_other _ different

theorem setKey_slot_same {buffer : OpBuffer} {index : Nat} (key : Nat)
    (inside : index < buffer.opbuffer.length) :
    (buffer.setKey index key).slot index = { buffer.slot index with key := key } :=
  slot_set_same _ inside

theorem setNode_slot_same {buffer : OpBuffer} {index : Nat} (node : Nat)
    (inside : index < buffer.opbuffer.length) :
    (buffer.setNode index node).slot index = { buffer.slot index with node := node } :=
  slot_set_same _ inside

end OpBuffer

namespace RemovePc

-- an entry leaves the buffer when hlp_idx is stored, one turn before the call returns
def taken : RemovePc → Nat
  | .returning _ => 1
  | _ => 0

end RemovePc

namespace InsertPc

def unreturned : InsertPc → List Op
  | .returning op => [op]
  | _ => []

end InsertPc

namespace Ring

def consumed (ring : Ring) : Nat :=
  ring.returned.length + ring.removing.taken

/-- The producer has passed its test: the slot it is about to fill is not the consumer's last. -/
def HasRoom (ring : Ring) : Prop :=
  ring.published.length + 1 < ring.consumed + ring.buffer.bufSize

def appSlot (ring : Ring) : Op :=
  ring.buffer.slot ring.buffer.appIdx

def InsertOk (ring : Ring) : Prop :=
  match ring.inserting with
  | .idle => True
  | .fullApp _ => True
  | .fullHlp _ app => app = ring.buffer.appIdx
  | .keyIdx _ => ring.HasRoom
  | .keyStore _ index => ring.HasRoom ∧ index = ring.buffer.appIdx
  | .nodeIdx op => ring.HasRoom ∧ ring.appSlot.key = op.key
  | .nodeStore op index =>
      ring.HasRoom ∧ index = ring.buffer.appIdx ∧ ring.appSlot.key = op.key
  | .nextIdx op => ring.HasRoom ∧ ring.appSlot = op
  | .nextStore op index => ring.HasRoom ∧ index = ring.buffer.appIdx ∧ ring.appSlot = op
  | .returning _ => True

def Ready (ring : Ring) : Prop :=
  ring.consumed < ring.published.length ∧ ring.consumed + 4 ≤ ring.buffer.bufSize

-- what the consumer knows when it stands at pc
def Knows (ring : Ring) (pc : RemovePc) : Prop :=
  match pc with
  | .idle => True
  | .emptyApp => True
  | .emptyHlp app => app < ring.buffer.bufSize ∧ app ≤ ring.published.length
  | .keyIdx => ring.Ready
  | .keyLoad index => ring.Ready ∧ index = ring.consumed
  | .nodeIdx key => ring.Ready ∧ ring.published[ring.consumed]?.map Op.key = some key
  | .nodeLoad key index =>
      ring.Ready ∧ index = ring.consumed ∧ ring.published[ring.consumed]?.map Op.key = some key
  | .nextIdx op => ring.Ready ∧ ring.published[ring.consumed]? = some op
  | .nextStore op index =>
      ring.Ready ∧ index = ring.consumed ∧ ring.published[ring.consumed]? = some op
  | .returning op => ring.published[ring.returned.length]? = some op

structure Ok (ring : Ring) : Prop where
  positive : 0 < ring.buffer.bufSize
  length : ring.buffer.opbuffer.length = ring.buffer.bufSize
  app : ring.buffer.appIdx = ring.published.length % ring.buffer.bufSize
  hlp : ring.buffer.hlpIdx = ring.consumed
  low : ring.consumed = 0 ∨ ring.consumed + 3 ≤ ring.buffer.bufSize
  order : ring.consumed ≤ ring.published.length
  room : ring.published.length < ring.consumed + ring.buffer.bufSize
  slots : ∀ position, ring.consumed ≤ position → position < ring.published.length →
    ring.published[position]? = some (ring.buffer.slot (position % ring.buffer.bufSize))
  history : ring.returned = ring.published.take ring.returned.length
  accepted : ring.published = ring.accepted ++ ring.inserting.unreturned
  inserting : ring.InsertOk
  removing : ring.Knows ring.removing

theorem mod_ne_of_close {size low high : Nat} (below : low < high) (close : high < low + size) :
    high % size ≠ low % size := by
  intro same
  have apart : (high - low) % size = 0 := Nat.sub_mod_eq_zero_of_mod_eq same
  rw [Nat.mod_eq_of_lt (by omega)] at apart
  omega

/-- Left alone, the inserting thread does what the whole call does. -/
theorem insert_alone {ring : Ring} (idle : ring.inserting = .idle) (op : Op) :
    ∃ count, Runs.run turn ring (List.replicate count (.app op)) =
      { ring with
        buffer := (ring.buffer.opbufferInsert op.key op.node).2
        published := ring.published ++ if (ring.buffer.opbufferInsert op.key op.node).1 then [op] else []
        accepted := ring.accepted ++ if (ring.buffer.opbufferInsert op.key op.node).1 then [op] else [] } := by
  by_cases full : ring.buffer.next ring.buffer.appIdx = ring.buffer.hlpIdx
  · refine ⟨3, ?_⟩
    simp [Runs.run, List.replicate, turn, appTurn, idle, full, OpBuffer.opbufferInsert]
  · refine ⟨10, ?_⟩
    simp [Runs.run, List.replicate, turn, appTurn, idle, full, OpBuffer.opbufferInsert]

theorem remove_alone {ring : Ring} (idle : ring.removing = .idle) :
    ∃ count, Runs.run turn ring (List.replicate count .hlp) =
      { ring with
        buffer := ring.buffer.opbufferRemove.2
        returned := ring.returned ++ ring.buffer.opbufferRemove.1.toList } := by
  by_cases empty : ring.buffer.seemsEmpty ring.buffer.appIdx ring.buffer.hlpIdx
  · refine ⟨3, ?_⟩
    simp [Runs.run, List.replicate, turn, hlpTurn, idle, empty, OpBuffer.opbufferRemove]
  · refine ⟨10, ?_⟩
    simp [Runs.run, List.replicate, turn, hlpTurn, idle, empty, OpBuffer.opbufferRemove]

theorem Ok.consumed_lt {ring : Ring} (ok : ring.Ok) : ring.consumed < ring.buffer.bufSize := by
  have positive := ok.positive
  have low := ok.low
  omega

theorem Ok.slots_setKey {ring : Ring} (ok : ring.Ok) (key : Nat)
    (room : ring.published.length + 1 < ring.consumed + ring.buffer.bufSize) :
    ∀ position, ring.consumed ≤ position → position < ring.published.length →
      ring.published[position]? =
        some ((ring.buffer.setKey ring.buffer.appIdx key).slot
          (position % ring.buffer.bufSize)) := by
  intro position lower upper
  rw [OpBuffer.setKey_slot_other, ok.slots position lower upper]
  rw [ok.app]
  exact mod_ne_of_close upper (by omega)

theorem Ok.slots_setNode {ring : Ring} (ok : ring.Ok) (node : Nat)
    (room : ring.published.length + 1 < ring.consumed + ring.buffer.bufSize) :
    ∀ position, ring.consumed ≤ position → position < ring.published.length →
      ring.published[position]? =
        some ((ring.buffer.setNode ring.buffer.appIdx node).slot
          (position % ring.buffer.bufSize)) := by
  intro position lower upper
  rw [OpBuffer.setNode_slot_other, ok.slots position lower upper]
  rw [ok.app]
  exact mod_ne_of_close upper (by omega)

theorem Ok.appIdx_lt {ring : Ring} (ok : ring.Ok) :
    ring.buffer.appIdx < ring.buffer.opbuffer.length := by
  rw [ok.app, ok.length]
  exact Nat.mod_lt _ ok.positive

theorem Ok.moveInserting {ring : Ring} (ok : ring.Ok) (pc : InsertPc)
    (same : pc.unreturned = ring.inserting.unreturned)
    (good : ({ ring with inserting := pc } : Ring).InsertOk) :
    ({ ring with inserting := pc } : Ring).Ok where
  positive := ok.positive
  length := ok.length
  app := ok.app
  hlp := ok.hlp
  low := ok.low
  order := ok.order
  room := ok.room
  slots := ok.slots
  history := ok.history
  accepted := by rw [same]; exact ok.accepted
  inserting := good
  removing := ok.removing

theorem InsertOk.of_consumed {ring next : Ring} (good : ring.InsertOk)
    (app : next.buffer.appIdx = ring.buffer.appIdx) (slot : next.appSlot = ring.appSlot)
    (inserting : next.inserting = ring.inserting) (room : ring.HasRoom → next.HasRoom) :
    next.InsertOk := by
  unfold InsertOk at good ⊢
  rw [inserting, slot, app]
  cases pc : ring.inserting <;> simp only [pc] at good ⊢ <;> grind

theorem Ok.moveRemoving {ring : Ring} (ok : ring.Ok) (pc : RemovePc)
    (same : pc.taken = ring.removing.taken) (good : ring.Knows pc) :
    ({ ring with removing := pc } : Ring).Ok := by
  have consumed : ({ ring with removing := pc } : Ring).consumed = ring.consumed := by
    simp [Ring.consumed, same]
  refine ⟨ok.positive, ok.length, ok.app, ?_, ?_, ?_, ?_, ?_, ok.history, ok.accepted, ?_, ?_⟩
  · rw [consumed]; exact ok.hlp
  · rw [consumed]; exact ok.low
  · rw [consumed]; exact ok.order
  · rw [consumed]; exact ok.room
  · rw [consumed]; exact ok.slots
  · exact ok.inserting.of_consumed rfl rfl rfl (by unfold HasRoom; rw [consumed]; exact id)
  · unfold Knows Ready at good ⊢
    rw [consumed]
    exact good

theorem Ok.hasRoom {ring : Ring} (ok : ring.Ok)
    (notFull : ¬ ring.buffer.next ring.buffer.appIdx = ring.buffer.hlpIdx) : ring.HasRoom := by
  have room := ok.room
  have bound := ok.consumed_lt
  unfold HasRoom
  by_contra tight
  apply notFull
  have revolution : ring.published.length + 1 = ring.consumed + ring.buffer.bufSize := by omega
  rw [OpBuffer.next, ok.app, Nat.mod_add_mod, revolution, Nat.add_mod_right, ok.hlp,
    Nat.mod_eq_of_lt bound]

theorem Knows.of_published {ring next : Ring} {pc : RemovePc} (good : ring.Knows pc)
    (size : next.buffer.bufSize = ring.buffer.bufSize)
    (removing : next.removing = ring.removing) (returned : next.returned = ring.returned)
    (grown : ring.published <+: next.published) : next.Knows pc := by
  have consumed : next.consumed = ring.consumed := by simp [Ring.consumed, removing, returned]
  have length := grown.length_le
  have kept (position : Nat) (op : Op) (found : ring.published[position]? = some op) :
      next.published[position]? = some op := by
    obtain ⟨rest, grownEq⟩ := grown
    obtain ⟨bound, _⟩ := List.getElem?_eq_some_iff.mp found
    rw [← grownEq, List.getElem?_append_left bound, found]
  have keptKey (position key : Nat) (found : ring.published[position]?.map Op.key = some key) :
      next.published[position]?.map Op.key = some key := by
    obtain ⟨op, present, rfl⟩ := Option.map_eq_some_iff.mp found
    rw [kept position op present]
    rfl
  have ready (was : ring.Ready) : next.Ready := by
    unfold Ready at was ⊢
    rw [consumed, size]
    exact ⟨Nat.lt_of_lt_of_le was.1 length, was.2⟩
  unfold Knows at good ⊢
  rw [returned, consumed, size]
  cases pc with
  | emptyHlp app => exact ⟨good.1, Nat.le_trans good.2 length⟩
  | _ => simp only at good ⊢ <;> grind

theorem Ok.publish {ring : Ring} (ok : ring.Ok) {op : Op}
    (pc : ring.inserting = .nextStore op ring.buffer.appIdx) (room : ring.HasRoom)
    (filled : ring.appSlot = op) :
    ({ ring with
      buffer := { ring.buffer with appIdx := ring.buffer.next ring.buffer.appIdx }
      inserting := .returning op
      published := ring.published ++ [op] } : Ring).Ok := by
  refine ⟨ok.positive, ok.length, ?_, ok.hlp, ok.low, ?_, ?_, ?_, ?_, ?_, trivial, ?_⟩
  · simp [OpBuffer.next, ok.app]
  · simpa [Ring.consumed] using Nat.le_succ_of_le ok.order
  · simpa [Ring.consumed, HasRoom] using room
  · intro position lower upper
    rw [List.length_append, List.length_singleton] at upper
    by_cases last : position = ring.published.length
    · subst last
      rw [List.getElem?_concat_length, ← filled, appSlot, ok.app]
      rfl
    · rw [List.getElem?_append_left (by omega)]
      exact ok.slots position lower (by omega)
  · have shorter : ring.returned.length ≤ ring.published.length := by
      have order := ok.order
      unfold consumed at order
      omega
    rw [List.take_append_of_le_length shorter]
    exact ok.history
  · have accepted := ok.accepted
    simp only [pc, InsertPc.unreturned, List.append_nil] at accepted
    simp [InsertPc.unreturned, accepted]
  · exact Knows.of_published ok.removing rfl rfl rfl (List.prefix_append _ _)

theorem appTurn_ok {ring : Ring} (ok : ring.Ok) (call : Op) : (ring.appTurn call).Ok := by
  have good := ok.inserting
  unfold InsertOk at good
  cases pc : ring.inserting with
  | idle =>
      simp only [appTurn, pc]
      exact ok.moveInserting _ (by rw [pc]; rfl) trivial
  | fullApp op =>
      simp only [appTurn, pc]
      exact ok.moveInserting _ (by rw [pc]; rfl) rfl
  | fullHlp op app =>
      simp only [appTurn, pc] at good ⊢
      split
      · exact ok.moveInserting _ (by rw [pc]; rfl) trivial
      · rename_i notFull
        refine ok.moveInserting _ (by rw [pc]; rfl) ?_
        show ring.HasRoom
        exact ok.hasRoom (by rwa [good] at notFull)
  | keyIdx op =>
      simp only [appTurn, pc] at good ⊢
      exact ok.moveInserting _ (by rw [pc]; rfl) ⟨good, rfl⟩
  | keyStore op index =>
      simp only [appTurn, pc] at good ⊢
      obtain ⟨room, rfl⟩ := good
      refine ⟨ok.positive, ?_, ok.app, ok.hlp, ok.low, ok.order, ok.room, ?_, ok.history, ?_, ?_,
        ok.removing⟩
      · simpa [OpBuffer.setKey] using ok.length
      · exact ok.slots_setKey op.key room
      · simpa [pc, InsertPc.unreturned] using ok.accepted
      · refine ⟨room, ?_⟩
        show ((ring.buffer.setKey _ _).slot _).key = _
        rw [OpBuffer.setKey_appIdx, OpBuffer.setKey_slot_same _ ok.appIdx_lt]
  | nodeIdx op =>
      simp only [appTurn, pc] at good ⊢
      exact ok.moveInserting _ (by rw [pc]; rfl) ⟨good.1, rfl, good.2⟩
  | nodeStore op index =>
      simp only [appTurn, pc] at good ⊢
      obtain ⟨room, rfl, key⟩ := good
      refine ⟨ok.positive, ?_, ok.app, ok.hlp, ok.low, ok.order, ok.room, ?_, ok.history, ?_, ?_,
        ok.removing⟩
      · simpa [OpBuffer.setNode] using ok.length
      · exact ok.slots_setNode op.node room
      · simpa [pc, InsertPc.unreturned] using ok.accepted
      · refine ⟨room, ?_⟩
        show (ring.buffer.setNode _ _).slot _ = _
        rw [OpBuffer.setNode_appIdx, OpBuffer.setNode_slot_same _ ok.appIdx_lt]
        exact Op.ext key rfl
  | nextIdx op =>
      simp only [appTurn, pc] at good ⊢
      exact ok.moveInserting _ (by rw [pc]; rfl) ⟨good.1, rfl, good.2⟩
  | nextStore op index =>
      simp only [appTurn, pc] at good ⊢
      obtain ⟨room, rfl, filled⟩ := good
      exact ok.publish pc room filled
  | returning op =>
      simp only [appTurn, pc]
      refine ⟨ok.positive, ok.length, ok.app, ok.hlp, ok.low, ok.order, ok.room, ok.slots,
        ok.history, ?_, trivial, ok.removing⟩
      simpa [pc, InsertPc.unreturned] using ok.accepted

theorem Ok.ready_of_passed {ring : Ring} (ok : ring.Ok) {app : Nat}
    (bound : app < ring.buffer.bufSize) (seen : app ≤ ring.published.length)
    (passed : ¬ ring.buffer.seemsEmpty app ring.buffer.hlpIdx) : ring.Ready := by
  have low := ok.low
  rw [← ok.hlp] at low
  obtain ⟨reach, _⟩ := OpBuffer.not_seemsEmpty bound low passed
  rw [ok.hlp] at reach
  unfold Ready
  omega

theorem Ok.front {ring : Ring} (ok : ring.Ok) (ready : ring.Ready) :
    ring.published[ring.consumed]? = some (ring.buffer.slot ring.consumed) := by
  rw [ok.slots _ (Nat.le_refl _) ready.1, Nat.mod_eq_of_lt ok.consumed_lt]

theorem Ok.consume {ring : Ring} (ok : ring.Ok) {op : Op} {index : Nat}
    (pc : ring.removing = .nextStore op index) (ready : ring.Ready)
    (atFront : index = ring.consumed) (front : ring.published[ring.consumed]? = some op) :
    ({ ring with
      buffer := { ring.buffer with hlpIdx := ring.buffer.next index }
      removing := .returning op } : Ring).Ok := by
  have count : ring.consumed = ring.returned.length := by
    simp [Ring.consumed, pc, RemovePc.taken]
  obtain ⟨published, inside⟩ := ready
  have room := ok.room
  have slots := ok.slots
  have keepsRoom : ring.HasRoom →
      ring.published.length + 1 < ring.returned.length + 1 + ring.buffer.bufSize := by
    unfold HasRoom
    omega
  rw [count] at published inside room slots front
  refine ⟨ok.positive, ok.length, ok.app, ?_, Or.inr ?_, ?_, ?_, ?_, ok.history, ok.accepted, ?_, ?_⟩
  · show ring.buffer.next index = ring.returned.length + 1
    rw [atFront, count]
    exact OpBuffer.next_eq (by omega)
  · show ring.returned.length + 1 + 3 ≤ ring.buffer.bufSize
    omega
  · show ring.returned.length + 1 ≤ ring.published.length
    omega
  · show ring.published.length < ring.returned.length + 1 + ring.buffer.bufSize
    omega
  · intro position lower upper
    exact slots position (Nat.le_of_succ_le lower) upper
  · exact ok.inserting.of_consumed rfl rfl rfl keepsRoom
  · exact front

theorem Ok.finish {ring : Ring} (ok : ring.Ok) {op : Op} (pc : ring.removing = .returning op)
    (front : ring.published[ring.returned.length]? = some op) :
    ({ ring with removing := .idle, returned := ring.returned ++ [op] } : Ring).Ok := by
  have count : ring.consumed = ring.returned.length + 1 := by
    simp [Ring.consumed, pc, RemovePc.taken]
  have same : ({ ring with removing := .idle, returned := ring.returned ++ [op] } : Ring).consumed =
      ring.consumed := by
    rw [count]
    simp [Ring.consumed, RemovePc.taken]
  refine ⟨ok.positive, ok.length, ok.app, ?_, ?_, ?_, ?_, ?_, ?_, ok.accepted, ?_, trivial⟩
  · rw [same]; exact ok.hlp
  · rw [same]; exact ok.low
  · rw [same]; exact ok.order
  · rw [same]; exact ok.room
  · rw [same]; exact ok.slots
  · show ring.returned ++ [op] = ring.published.take (ring.returned ++ [op]).length
    rw [List.length_append, List.length_singleton, List.take_add_one, front, ← ok.history]
    rfl
  · exact ok.inserting.of_consumed rfl rfl rfl (by unfold HasRoom; rw [same]; exact id)

theorem hlpTurn_ok {ring : Ring} (ok : ring.Ok) : ring.hlpTurn.Ok := by
  have good := ok.removing
  unfold Knows at good
  cases pc : ring.removing with
  | idle =>
      simp only [hlpTurn, pc]
      exact ok.moveRemoving _ (by rw [pc]; rfl) trivial
  | emptyApp =>
      simp only [hlpTurn, pc]
      refine ok.moveRemoving _ (by rw [pc]; rfl) ?_
      -- the index read is the true count or that count less one revolution
      exact ⟨ok.length ▸ ok.appIdx_lt, by rw [ok.app]; exact Nat.mod_le _ _⟩
  | emptyHlp app =>
      simp only [hlpTurn, pc] at good ⊢
      split
      · exact ok.moveRemoving _ (by rw [pc]; rfl) trivial
      · rename_i passed
        exact ok.moveRemoving _ (by rw [pc]; rfl) (ok.ready_of_passed good.1 good.2 passed)
  | keyIdx =>
      simp only [hlpTurn, pc] at good ⊢
      exact ok.moveRemoving _ (by rw [pc]; rfl) ⟨good, ok.hlp⟩
  | keyLoad index =>
      simp only [hlpTurn, pc] at good ⊢
      obtain ⟨ready, rfl⟩ := good
      exact ok.moveRemoving _ (by rw [pc]; rfl) ⟨ready, by rw [ok.front ready]; rfl⟩
  | nodeIdx key =>
      simp only [hlpTurn, pc] at good ⊢
      exact ok.moveRemoving _ (by rw [pc]; rfl) ⟨good.1, ok.hlp, good.2⟩
  | nodeLoad key index =>
      simp only [hlpTurn, pc] at good ⊢
      obtain ⟨ready, rfl, sameKey⟩ := good
      refine ok.moveRemoving _ (by rw [pc]; rfl) ⟨ready, ?_⟩
      rw [ok.front ready] at sameKey ⊢
      simp only [Option.map_some, Option.some.injEq] at sameKey
      rw [← sameKey]
  | nextIdx op =>
      simp only [hlpTurn, pc] at good ⊢
      exact ok.moveRemoving _ (by rw [pc]; rfl) ⟨good.1, ok.hlp, good.2⟩
  | nextStore op index =>
      simp only [hlpTurn, pc] at good ⊢
      exact ok.consume pc good.1 good.2.1 good.2.2
  | returning op =>
      simp only [hlpTurn, pc] at good ⊢
      exact ok.finish pc good

theorem run_ok {bufSize : Nat} (positive : 0 < bufSize) (turns : List Turn) :
    (run bufSize turns).Ok := by
  refine Runs.run_invariant Ok ?_ ?_ turns
  · refine ⟨positive, by simp [new, OpBuffer.new], ?_, rfl, Or.inl rfl, Nat.le_refl _, ?_, ?_, rfl,
      rfl, trivial, trivial⟩
    · exact (Nat.zero_mod bufSize).symm
    · simpa [new, OpBuffer.new, consumed, RemovePc.taken] using positive
    · intro position _ upper
      exact absurd upper (Nat.not_lt_zero position)
  · intro ring turn ok
    cases turn with
    | app op => exact appTurn_ok ok op
    | hlp => exact hlpTurn_ok ok

theorem Ok.stores_free {ring : Ring} (ok : ring.Ok) {turn : Turn} {index : Nat}
    (stores : ring.storesTo turn = some index) : ¬ ring.buffer.Holds index := by
  have good := ok.inserting
  have atApp : index = ring.buffer.appIdx := by
    cases turn with
    | hlp => simp [storesTo] at stores
    | app op =>
        unfold InsertOk at good
        cases pc : ring.inserting <;> simp only [storesTo, pc, reduceCtorEq] at stores
        all_goals
          simp only [pc] at good
          simp only [Option.some.injEq] at stores
          rw [← stores]
        · exact good.2
        · exact good.2.1
  unfold OpBuffer.Holds OpBuffer.queued
  rw [atApp]
  exact Nat.lt_irrefl _

/-- For every buffer size and every interleaving of the loads and stores of one inserting and one
removing thread: what removes have returned is a prefix of what has been published, the published
jobs are those whose insert returned true and at most one whose insert is about to, and no turn
stores to a slot that is still queued. -/
theorem returned_prefix_published (bufSize : Nat) (positive : 0 < bufSize) (turns : List Turn) :
    (run bufSize turns).returned <+: (run bufSize turns).published ∧
    (run bufSize turns).published =
      (run bufSize turns).accepted ++ (run bufSize turns).inserting.unreturned ∧
    ∀ turn index, (run bufSize turns).storesTo turn = some index →
      ¬ (run bufSize turns).buffer.Holds index := by
  have ok := run_ok positive turns
  refine ⟨?_, ok.accepted, fun turn index stores => ok.stores_free stores⟩
  rw [ok.history]
  exact List.take_prefix _ _

def threeInsertsOneRemove : List Turn :=
  List.replicate 10 (.app ⟨1, 10⟩) ++ List.replicate 10 (.app ⟨2, 20⟩) ++
    List.replicate 10 (.app ⟨3, 30⟩) ++ List.replicate 10 .hlp

theorem returned_prefix_published_four :
    (run 4 threeInsertsOneRemove).returned = [⟨1, 10⟩] ∧
    (run 4 threeInsertsOneRemove).returned <+: (run 4 threeInsertsOneRemove).published :=
  ⟨by decide, (returned_prefix_published 4 (by decide) _).1⟩

end Ring

end Hosk
