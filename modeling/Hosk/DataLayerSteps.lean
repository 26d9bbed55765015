import Hosk.DataLayerThreads

/-! Every step of a thread in `sl_traverse_data` goes on and keeps what all threads rely on. -/

namespace Hosk

open Linearizability

/-- A step of one thread: the list stays sound, the thread knows what its next access needs, the
others lose nothing, and the set changes at most by the thread's own operation taking effect. -/
structure Advances (head : Nat) (nodes : Nodes) (linked : List Nat) (keys : Finset Nat)
    (status : Status Operation Nat) (state : Local) (nodes' : Nodes) (linked' : List Nat)
    (keys' : Finset Nat) (status' : Status Operation Nat) (state' : Local) : Prop where
  list : ListOk head nodes' linked' keys'
  thread : ThreadOk nodes' linked' status' state'
  frames : Frames nodes linked (owned state) nodes' linked'
  turn : SilentTurn keySet keys status keys' status'
  owns : ∀ address, owned state' = some address → address ∉ linked' ∧
    (Store.get nodes' address).isSome ∧
    (owned state = some address ∨ Store.get nodes address = none)

def Steps (head : Nat) (nodes : Nodes) (linked : List Nat) (keys : Finset Nat)
    (status : Status Operation Nat) (state : Local) (malloc : Malloc) : Prop :=
  ∃ nodes' state', dataStep malloc nodes state = some (nodes', state') ∧
    ∃ linked' keys' status',
      Advances head nodes linked keys status state nodes' linked' keys' status' state'

variable {head : Nat} {nodes : Nodes} {linked : List Nat} {keys : Finset Nat}
  {status : Status Operation Nat} {f : Frame} {malloc : Malloc}

theorem Steps.reads {state : Local} (state' : Local) (status' : Status Operation Nat)
    (list : ListOk head nodes linked keys)
    (result : dataStep malloc nodes state = some (nodes, state'))
    (turn : SilentTurn keySet keys status keys status')
    (thread : ThreadOk nodes linked status' state') (ownsNone : owned state' = none) :
    Steps head nodes linked keys status state malloc := by
  refine ⟨nodes, state', result, linked, keys, status', list, thread, Frames.same _ _ _, turn, ?_⟩
  intro address owner
  exact absurd (ownsNone.symm.trans owner) (Option.some_ne_none address).symm

theorem Frames.set_linked {address : Nat} {node : Node} (changed : Node) {mine : Option Nat}
    (member : address ∈ linked) (stored : Store.get nodes address = some node)
    (sameKey : changed.key = node.key) :
    Frames nodes linked mine (Store.set nodes address changed) linked := by
  refine ⟨fun _ inside => inside, fun other _ => ListOk.keyAt_set changed stored sameKey other, ?_⟩
  intro other notLinked _ _
  have different : address ≠ other := fun same => notLinked (same ▸ member)
  exact ⟨notLinked, Store.get_set_other _ different⟩

theorem Frames.private {address : Nat} {mine : Option Nat} {nodes' : Nodes}
    (notLinked : address ∉ linked)
    (elsewhere : ∀ other, address ≠ other → Store.get nodes' other = Store.get nodes other)
    (mineOrFresh : mine = some address ∨ Store.get nodes address = none) :
    Frames nodes linked mine nodes' linked := by
  have apart : ∀ other ∈ linked, address ≠ other := fun other inside same =>
    notLinked (same ▸ inside)
  refine ⟨fun _ inside => inside, ?_, ?_⟩
  · intro other inside
    simp only [keyAt, elsewhere other (apart other inside)]
  · intro other otherNot present notMine
    have different : address ≠ other := by
      rintro rfl
      rcases mineOrFresh with mineHere | fresh
      · exact notMine mineHere.symm
      · rw [fresh] at present
        exact absurd present (by simp)
    exact ⟨otherNot, elsewhere other different⟩

section Traversal

/-- Reading a next pointer that leaves the key behind settles what has not been settled. -/
theorem settle_turn (list : ListOk head nodes linked keys) (standing : AtNode nodes linked f)
    {node : Node} (stored : Store.get nodes f.node = some node)
    (past : node.next = 0 ∨ f.op.key < keyAt nodes node.next) :
    SilentTurn keySet keys (sawVal nodes f) keys (decided nodes f) := by
  unfold sawVal decided
  split
  · exact .stay _ _
  · next different =>
      apply passed_turn
      apply list.absent standing.nodeLinked stored _ past
      have notPast := standing.notPast
      omega

theorem finish_ok (gap : AtGap nodes linked f) :
    ThreadOk nodes linked (decided nodes f) ⟨finishPc f.op.optype, f⟩ := by
  cases optype : f.op.optype with
  | contains => exact ⟨gap, rfl, optype⟩
  | delete => exact ⟨gap, rfl, optype⟩
  | insert => exact ⟨gap, rfl, optype⟩

theorem owned_finish (optype : OpType) : owned ⟨finishPc optype, f⟩ = none := by
  cases optype <;> rfl

theorem readVal_steps (list : ListOk head nodes linked keys)
    (ok : ThreadOk nodes linked status ⟨.readVal, f⟩) :
    Steps head nodes linked keys status ⟨.readVal, f⟩ malloc := by
  obtain ⟨standing, pending⟩ :
      AtNode nodes linked f ∧ status = .pending f.op := ok
  obtain ⟨node, stored, _⟩ := list.found standing.nodeLinked
  have val := valAt_found stored
  have notOwn : f.node ≠ node.val := by
    intro same
    exact list.notOwn _ standing.nodeLinked (val.trans same.symm)
  refine Steps.reads ⟨.readNext, { f with nodeVal := node.val }⟩
    (sawVal nodes { f with nodeVal := node.val }) list ?_ ?_ ⟨?_, rfl⟩ rfl
  · simp [dataStep, stored, notOwn]
  · rw [pending]
    unfold sawVal
    split
    · next sameKey =>
        apply judged_turn
        have member := list.mem_iff standing.nodeLinked (sameKey ▸ standing.positive)
        rw [sameKey, val] at member
        exact member
    · exact .stay _ _
  · exact ⟨standing.nodeLinked, standing.notPast, standing.positive, standing.value, standing.unset⟩

theorem readNext_steps (list : ListOk head nodes linked keys)
    (ok : ThreadOk nodes linked status ⟨.readNext, f⟩) :
    Steps head nodes linked keys status ⟨.readNext, f⟩ malloc := by
  obtain ⟨standing, saw⟩ :
      AtNode nodes linked f ∧ status = sawVal nodes f := ok
  obtain ⟨node, stored, _⟩ := list.found standing.nodeLinked
  have here : AtNode nodes linked { f with next := node.next } :=
    ⟨standing.nodeLinked, standing.notPast, standing.positive, standing.value, standing.unset⟩
  by_cases null : node.next = 0
  · refine Steps.reads ⟨finishPc f.op.optype, { f with next := node.next }⟩
      (decided nodes { f with next := node.next }) list ?_ ?_ (finish_ok ⟨here, .inl null⟩)
      (owned_finish _)
    · simp [dataStep, stored, null]
    · rw [saw]
      exact settle_turn list standing stored (.inl null)
  · obtain ⟨nextLinked, onward⟩ := list.successor standing.nodeLinked stored null
    refine Steps.reads ⟨.readNextVal, { f with next := node.next }⟩
      (sawNext nodes { f with next := node.next }) list ?_ ?_ ⟨⟨here, nextLinked, onward⟩, rfl⟩ rfl
    · simp [dataStep, stored, null]
    · rw [saw]
      unfold sawNext
      split
      · next past => exact settle_turn list standing stored (.inr past)
      · exact .stay _ _

theorem readNextVal_steps (list : ListOk head nodes linked keys)
    (ok : ThreadOk nodes linked status ⟨.readNextVal, f⟩) :
    Steps head nodes linked keys status ⟨.readNextVal, f⟩ malloc := by
  obtain ⟨standing, saw⟩ :
      AtNext nodes linked f ∧ status = sawNext nodes f := ok
  obtain ⟨next, stored, _⟩ := list.found standing.nextLinked
  have notOwn : next.val ≠ f.next := by
    rw [← valAt_found stored]
    exact list.notOwn _ standing.nextLinked
  refine Steps.reads ⟨.readNextKey, { f with nextVal := next.val }⟩ status list ?_ (.stay _ _)
    ⟨⟨⟨standing.nodeLinked, standing.notPast, standing.positive, standing.value, standing.unset⟩,
      standing.nextLinked, standing.onward⟩, saw⟩ rfl
  simp [dataStep, stored, notOwn]

theorem readNextKey_steps (list : ListOk head nodes linked keys)
    (ok : ThreadOk nodes linked status ⟨.readNextKey, f⟩) :
    Steps head nodes linked keys status ⟨.readNextKey, f⟩ malloc := by
  obtain ⟨standing, saw⟩ :
      AtNext nodes linked f ∧ status = sawNext nodes f := ok
  obtain ⟨next, stored, _⟩ := list.found standing.nextLinked
  have nextKey := keyAt_found stored
  by_cases past : f.op.key < next.key
  · refine Steps.reads ⟨finishPc f.op.optype, f⟩ status list ?_ (.stay _ _) ?_ (owned_finish _)
    · simp [dataStep, stored, past]
    · rw [saw, sawNext, nextKey, if_pos past]
      exact finish_ok ⟨standing.toAtNode, .inr ⟨standing.nextLinked, nextKey.symm ▸ past⟩⟩
  · have notKey : keyAt nodes f.node ≠ f.op.key := by
      have onward := standing.onward
      omega
    refine Steps.reads ⟨.readVal, { f with node := f.next }⟩ status list ?_ (.stay _ _)
      ⟨⟨standing.nextLinked, ?_, standing.positive, standing.value, standing.unset⟩, ?_⟩ rfl
    · simp [dataStep, stored, past]
    · rw [nextKey]
      exact Nat.le_of_not_lt past
    · rw [saw, sawNext, nextKey, if_neg past, sawVal, if_neg notKey]

end Traversal

section Finish

theorem containsKey_steps (list : ListOk head nodes linked keys)
    (ok : ThreadOk nodes linked status ⟨.containsKey, f⟩) :
    Steps head nodes linked keys status ⟨.containsKey, f⟩ malloc := by
  obtain ⟨gap, settled, isContains⟩ :
      AtGap nodes linked f ∧ status = decided nodes f ∧ f.op.optype = .contains := ok
  obtain ⟨node, stored, _⟩ := list.found gap.nodeLinked
  have nodeKey := keyAt_found stored
  refine Steps.reads ⟨.returned (if f.op.key = node.key ∧ f.nodeVal ≠ 0 then 1 else 0), f⟩ status
    list ?_ (.stay _ _) ?_ rfl
  · simp [dataStep, stored]
  · refine ⟨?_, .inl gap.unset⟩
    rw [settled, decided, nodeKey]
    by_cases sameKey : node.key = f.op.key
    · simp [sameKey, judged, isContains]
    · simp [sameKey, Ne.symm sameKey, passed, isContains]

theorem deleteKey_steps (list : ListOk head nodes linked keys)
    (ok : ThreadOk nodes linked status ⟨.deleteKey, f⟩) :
    Steps head nodes linked keys status ⟨.deleteKey, f⟩ malloc := by
  obtain ⟨gap, settled, isDelete⟩ :
      AtGap nodes linked f ∧ status = decided nodes f ∧ f.op.optype = .delete := ok
  obtain ⟨node, stored, _⟩ := list.found gap.nodeLinked
  have nodeKey := keyAt_found stored
  by_cases sameKey : node.key = f.op.key
  · by_cases null : f.nodeVal = 0
    · refine Steps.reads ⟨.returned 0, f⟩ status list ?_ (.stay _ _) ?_ rfl
      · simp [dataStep, stored, null]
      · exact ⟨by simp [settled, decided, nodeKey, sameKey, judged, isDelete, null], .inl gap.unset⟩
    · refine Steps.reads ⟨.deleteVal, f⟩ status list ?_ (.stay _ _)
        ⟨gap.toAtNode, nodeKey.trans sameKey, ?_, isDelete⟩ rfl
      · simp [dataStep, stored, sameKey, null]
      · simp [settled, decided, nodeKey, sameKey, judged, isDelete, null]
  · refine Steps.reads ⟨.returned 0, f⟩ status list ?_ (.stay _ _) ?_ rfl
    · simp [dataStep, stored, sameKey]
    · exact ⟨by simp [settled, decided, nodeKey, sameKey, passed, isDelete], .inl gap.unset⟩

theorem deleteVal_steps (list : ListOk head nodes linked keys)
    (ok : ThreadOk nodes linked status ⟨.deleteVal, f⟩) :
    Steps head nodes linked keys status ⟨.deleteVal, f⟩ malloc := by
  obtain ⟨standing, sameKey, pending, isDelete⟩ :
      AtNode nodes linked f ∧ keyAt nodes f.node = f.op.key ∧
      status = .pending f.op ∧ f.op.optype = .delete := ok
  obtain ⟨node, stored, _⟩ := list.found standing.nodeLinked
  have val := valAt_found stored
  have member := list.mem_iff standing.nodeLinked (sameKey ▸ standing.positive)
  rw [sameKey, val] at member
  by_cases null : node.val = 0
  · refine Steps.reads ⟨.returned 0, { f with nodeVal := node.val }⟩ (.finished 0) list ?_ ?_
      ⟨rfl, .inl standing.unset⟩ rfl
    · simp [dataStep, stored, null]
    · rw [pending]
      exact delete_null_turn isDelete fun inside => member.mp inside null
  · have notOwn : f.node ≠ node.val := by
      intro same
      exact list.notOwn _ standing.nodeLinked (val.trans same.symm)
    refine Steps.reads ⟨.deleteCas, { f with nodeVal := node.val }⟩ status list ?_ (.stay _ _)
      ⟨⟨standing.nodeLinked, standing.notPast, standing.positive, standing.value, standing.unset⟩, sameKey, pending,
        isDelete, null⟩ rfl
    simp [dataStep, stored, null, notOwn]

theorem deleteCas_steps (list : ListOk head nodes linked keys)
    (ok : ThreadOk nodes linked status ⟨.deleteCas, f⟩) :
    Steps head nodes linked keys status ⟨.deleteCas, f⟩ malloc := by
  obtain ⟨standing, sameKey, pending, isDelete, present⟩ :
      AtNode nodes linked f ∧ keyAt nodes f.node = f.op.key ∧
      status = .pending f.op ∧ f.op.optype = .delete ∧ f.nodeVal ≠ 0 := ok
  obtain ⟨node, stored, _⟩ := list.found standing.nodeLinked
  by_cases unchanged : node.val = f.nodeVal
  · have member := list.mem_iff standing.nodeLinked (sameKey ▸ standing.positive)
    rw [sameKey, valAt_found stored, unchanged] at member
    have deleted := list.storeVal standing.nodeLinked stored
      (list.nonzero standing.nodeLinked).symm
    rw [if_pos rfl, sameKey] at deleted
    refine ⟨_, ⟨.returned 1, f⟩, by simp [dataStep, stored, unchanged], linked, _, .finished 1,
      deleted, ⟨rfl, .inl standing.unset⟩, Frames.set_linked _ standing.nodeLinked stored rfl, ?_, ?_⟩
    · rw [pending]
      exact delete_turn isDelete (member.mpr present)
    · intro address owner
      exact absurd owner.symm (Option.some_ne_none address)
  · refine Steps.reads ⟨.deleteVal, f⟩ status list ?_ (.stay _ _)
      ⟨standing, sameKey, pending, isDelete⟩ rfl
    simp [dataStep, stored, unchanged]

theorem insertKey_steps (list : ListOk head nodes linked keys)
    (ok : ThreadOk nodes linked status ⟨.insertKey, f⟩) :
    Steps head nodes linked keys status ⟨.insertKey, f⟩ malloc := by
  obtain ⟨gap, settled, isInsert⟩ :
      AtGap nodes linked f ∧ status = decided nodes f ∧ f.op.optype = .insert := ok
  obtain ⟨node, stored, _⟩ := list.found gap.nodeLinked
  have nodeKey := keyAt_found stored
  by_cases sameKey : node.key = f.op.key
  · by_cases null : f.nodeVal = 0
    · refine Steps.reads ⟨.insertCasVal, f⟩ status list ?_ (.stay _ _)
        ⟨gap.toAtNode, nodeKey.trans sameKey, ?_, isInsert, null⟩ rfl
      · simp [dataStep, stored, sameKey, null]
      · simp [settled, decided, nodeKey, sameKey, judged, isInsert, null]
    · refine Steps.reads ⟨.returned 0, f⟩ status list ?_ (.stay _ _) ?_ rfl
      · simp [dataStep, stored, sameKey, null]
      · exact ⟨by simp [settled, decided, nodeKey, sameKey, judged, isInsert, null], .inl gap.unset⟩
  · have before : keyAt nodes f.node < f.op.key := by
      have notPast := gap.notPast
      omega
    refine Steps.reads ⟨.newNode .malloc, f⟩ status list ?_ (.stay _ _) ⟨gap, before, ?_, isInsert⟩
      rfl
    · simp [dataStep, stored, sameKey]
    · simp [settled, decided, nodeKey, sameKey, passed, isInsert]

theorem insertCasVal_steps (list : ListOk head nodes linked keys)
    (ok : ThreadOk nodes linked status ⟨.insertCasVal, f⟩)
    (assumption : assumed malloc nodes ⟨.insertCasVal, f⟩ = true) :
    Steps head nodes linked keys status ⟨.insertCasVal, f⟩ malloc := by
  obtain ⟨standing, sameKey, pending, isInsert, null⟩ :
      AtNode nodes linked f ∧ keyAt nodes f.node = f.op.key ∧
      status = .pending f.op ∧ f.op.optype = .insert ∧ f.nodeVal = 0 := ok
  obtain ⟨node, stored, _⟩ := list.found standing.nodeLinked
  by_cases unchanged : node.val = f.nodeVal
  · have notOwn : f.op.val ≠ f.node := by simpa [assumed] using assumption
    have member := list.mem_iff standing.nodeLinked (sameKey ▸ standing.positive)
    rw [sameKey, valAt_found stored, unchanged] at member
    have inserted := list.storeVal standing.nodeLinked stored notOwn
    rw [if_neg standing.value, sameKey] at inserted
    refine ⟨_, ⟨.returned 1, { f with pnode := f.node }⟩, by simp [dataStep, stored, unchanged],
      linked, _, .finished 1, inserted, ⟨rfl, .inr ⟨standing.nodeLinked, ?_⟩⟩,
      Frames.set_linked _ standing.nodeLinked stored rfl,
      ?_, ?_⟩
    · exact (ListOk.keyAt_set { node with val := f.op.val } stored rfl f.node).trans sameKey
    · rw [pending]
      exact insert_turn isInsert fun inside => member.mp inside null
    · intro address owner
      exact absurd owner.symm (Option.some_ne_none address)
  · refine Steps.reads ⟨.readVal, f⟩ status list ?_ (.stay _ _) ⟨standing, pending⟩ rfl
    simp [dataStep, stored, unchanged]

end Finish

section Insertion

theorem Steps.stores_own {state : Local} (state' : Local) {address : Nat} (node : Node)
    (list : ListOk head nodes linked keys) (notLinked : address ∉ linked)
    (result : dataStep malloc nodes state = some (Store.set nodes address node, state'))
    (before : owned state = some address ∨ owned state = none ∧ Store.get nodes address = none)
    (after : owned state' = some address)
    (thread : ThreadOk (Store.set nodes address node) linked status state') :
    Steps head nodes linked keys status state malloc := by
  have elsewhere : ∀ other, address ≠ other →
      Store.get (Store.set nodes address node) other = Store.get nodes other :=
    fun other different => Store.get_set_other node different
  have kept : ListOk head (Store.set nodes address node) linked keys :=
    list.congr fun other inside => elsewhere other fun same => notLinked (same ▸ inside)
  have mineOrFresh : owned state = some address ∨ Store.get nodes address = none :=
    before.imp_right And.right
  refine ⟨_, state', result, linked, keys, status, kept, thread,
    Frames.private notLinked elsewhere mineOrFresh, .stay _ _, ?_⟩
  intro other owner
  obtain rfl : address = other := Option.some.inj (after.symm.trans owner)
  exact ⟨notLinked, by simp, mineOrFresh⟩

theorem newNode_malloc_steps (list : ListOk head nodes linked keys)
    (ok : ThreadOk nodes linked status ⟨.newNode .malloc, f⟩)
    (assumption : assumed malloc nodes ⟨.newNode .malloc, f⟩ = true) :
    Steps head nodes linked keys status ⟨.newNode .malloc, f⟩ malloc := by
  have inserting : Inserting nodes linked status f := ok
  have fresh : (malloc.address ≠ 0 ∧ Store.get nodes malloc.address = none) ∧
      malloc.address ≠ f.op.val := by
    simpa [assumed] using assumption
  have notLinked : malloc.address ∉ linked := by
    intro inside
    obtain ⟨node, stored, _⟩ := list.found inside
    rw [fresh.1.2] at stored
    exact absurd stored (Option.some_ne_none node).symm
  have frames : Frames nodes linked none (Store.set nodes malloc.address malloc.content) linked :=
    Frames.private notLinked (fun _ different => Store.get_set_other _ different) (.inr fresh.1.2)
  have kept := Inserting.stable inserting frames
  refine Steps.stores_own ⟨.newNode .key, { f with newNode := malloc.address }⟩ _ list notLinked rfl
    (.inr ⟨rfl, fresh.1.2⟩) rfl ?_
  exact ⟨⟨⟨⟨kept.nodeLinked, kept.notPast, kept.positive, kept.value, kept.unset⟩, kept.past⟩, kept.before,
    kept.pending, kept.isInsert⟩, fresh.1.1, fresh.2.symm, malloc.content, by simp, trivial⟩

theorem Building.store {fields later : Node → Prop} {node : Node}
    (building : Building nodes linked status f fields) (notLinked : f.newNode ∉ linked)
    (stored : later node) :
    Building (Store.set nodes f.newNode node) linked status f later := by
  have frames : Frames nodes linked (some f.newNode) (Store.set nodes f.newNode node) linked :=
    Frames.private notLinked (fun _ different => Store.get_set_other _ different) (.inl rfl)
  exact ⟨building.toInserting.stable frames, building.freshNonzero, building.freshNotVal, node,
    by simp, stored⟩

theorem newNode_steps (list : ListOk head nodes linked keys) {stage : NewPc}
    (notMalloc : stage ≠ .malloc) (ok : ThreadOk nodes linked status ⟨.newNode stage, f⟩)
    (notLinked : f.newNode ∉ linked) :
    Steps head nodes linked keys status ⟨.newNode stage, f⟩ malloc := by
  have building : Building nodes linked status f fun node => Built node (newContent f) stage := by
    cases stage with
    | malloc => exact absurd rfl notMalloc
    | key | val | prev | next | level => exact ok
  obtain ⟨node, stored, built⟩ := building.content
  cases stage with
  | malloc => exact absurd rfl notMalloc
  | key =>
      exact Steps.stores_own ⟨.newNode .val, f⟩ { node with key := f.op.key } list notLinked
        (by simp only [dataStep, newStep, stored]; rfl) (.inl rfl) rfl (building.store notLinked rfl)
  | val =>
      exact Steps.stores_own ⟨.newNode .prev, f⟩ { node with val := f.op.val } list notLinked
        (by simp only [dataStep, newStep, stored]; rfl) (.inl rfl) rfl
        (building.store notLinked ⟨built, rfl⟩)
  | prev =>
      exact Steps.stores_own ⟨.newNode .next, f⟩ { node with prev := f.node } list notLinked
        (by simp only [dataStep, newStep, stored]; rfl) (.inl rfl) rfl
        (building.store notLinked ⟨built.1, built.2, rfl⟩)
  | next =>
      exact Steps.stores_own ⟨.newNode .level, f⟩ { node with next := f.next } list notLinked
        (by simp only [dataStep, newStep, stored]; rfl) (.inl rfl) rfl
        (building.store notLinked ⟨built.1, built.2.1, built.2.2, rfl⟩)
  | level =>
      exact Steps.stores_own ⟨.insertCasNext, f⟩ { node with level := 0 } list notLinked
        (by simp only [dataStep, newStep, stored]; rfl) (.inl rfl) rfl
        (building.store notLinked ⟨built.1, built.2.1, built.2.2.1, built.2.2.2⟩)

theorem insertCasNext_steps (list : ListOk head nodes linked keys)
    (ok : ThreadOk nodes linked status ⟨.insertCasNext, f⟩) (notLinked : f.newNode ∉ linked) :
    Steps head nodes linked keys status ⟨.insertCasNext, f⟩ malloc := by
  have building : Building nodes linked status f (Linkable f) := ok
  obtain ⟨new, newStored, newKey, newVal, newPrev, newNext⟩ := building.content
  obtain ⟨node, stored, _⟩ := list.found building.nodeLinked
  have present : f.newNode ≠ f.node := fun same => notLinked (same ▸ building.nodeLinked)
  by_cases unchanged : node.next = f.next
  · have nodeKey := keyAt_found stored
    have below : node.next = 0 ∨ f.op.key < keyAt nodes node.next := by
      rw [unchanged]
      exact building.past.imp_right And.right
    have absent : f.op.key ∉ keys :=
      list.absent building.nodeLinked stored building.before below
    have above : node.key < new.key := by
      rw [newKey, ← nodeKey]
      exact building.before
    obtain ⟨grown, grows, inGrown, linkedList⟩ := list.link building.nodeLinked stored newStored
      building.freshNonzero notLinked newPrev (newNext.trans unchanged.symm) above (newKey ▸ below)
      (newVal ▸ building.value) (newVal ▸ building.freshNotVal)
    rw [newKey] at linkedList
    have sameKey : ∀ other, keyAt (Store.set nodes f.node { node with next := f.newNode }) other =
        keyAt nodes other := ListOk.keyAt_set { node with next := f.newNode } stored rfl
    have newNodeKey : keyAt (Store.set nodes f.node { node with next := f.newNode }) f.newNode =
        f.op.key := by rw [sameKey, keyAt_found newStored, newKey]
    have frames : Frames nodes linked (some f.newNode)
        (Store.set nodes f.node { node with next := f.newNode }) grown := by
      refine ⟨grows, fun other _ => sameKey other, ?_⟩
      intro other otherNot _ notMine
      constructor
      · intro inside
        rcases (inGrown other).mp inside with inLinked | same
        · exact otherNot inLinked
        · exact notMine (congrArg some same)
      · exact Store.get_set_other _ fun same => otherNot (same ▸ building.nodeLinked)
    have turn : SilentTurn keySet keys status (insert f.op.key keys) (.finished 1) := by
      rw [building.pending]
      exact insert_turn building.isInsert absent
    by_cases last : f.next = 0
    · refine ⟨_, ⟨.returned 1, { f with pnode := f.newNode }⟩,
        by simp [dataStep, stored, unchanged, last], grown, _, .finished 1, linkedList,
        ⟨rfl, .inr ⟨(inGrown _).mpr (.inr rfl), newNodeKey⟩⟩, frames, turn, ?_⟩
      intro address owner
      exact absurd owner.symm (Option.some_ne_none address)
    · have nextLinked : f.next ∈ linked ∧ f.op.key < keyAt nodes f.next :=
        building.past.resolve_left last
      refine ⟨_, ⟨.storePrev, f⟩, by simp [dataStep, stored, unchanged, last], grown, _,
        .finished 1, linkedList,
        ⟨rfl, grows nextLinked.1, (inGrown _).mpr (.inr rfl), ?_, newNodeKey⟩, frames, turn, ?_⟩
      · rw [sameKey, sameKey, keyAt_found newStored, newKey]
        exact nextLinked.2
      · intro address owner
        exact absurd owner.symm (Option.some_ne_none address)
  · refine ⟨nodes, ⟨.freeNode, f⟩, by simp [dataStep, stored, unchanged], linked, keys, status, list,
      building.toInserting, Frames.same _ _ _, .stay _ _, ?_⟩
    intro address owner
    obtain rfl : f.newNode = address := Option.some.inj owner
    exact ⟨notLinked, by simp [newStored], .inl rfl⟩

theorem storePrev_steps (list : ListOk head nodes linked keys)
    (ok : ThreadOk nodes linked status ⟨.storePrev, f⟩) :
    Steps head nodes linked keys status ⟨.storePrev, f⟩ malloc := by
  obtain ⟨finished, nextLinked, newLinked, smaller, newKey⟩ : status = .finished 1 ∧
      f.next ∈ linked ∧ f.newNode ∈ linked ∧ keyAt nodes f.newNode < keyAt nodes f.next ∧
      keyAt nodes f.newNode = f.op.key := ok
  obtain ⟨next, stored, _⟩ := list.found nextLinked
  rw [keyAt_found stored] at smaller
  refine ⟨_, ⟨.returned 1, { f with pnode := f.newNode }⟩, by simp only [dataStep, stored]; rfl,
    linked, keys, status, list.storePrev stored newLinked smaller,
    ⟨finished, .inr ⟨newLinked, ?_⟩⟩, Frames.set_linked _ nextLinked stored rfl, .stay _ _, ?_⟩
  · exact (ListOk.keyAt_set { next with prev := f.newNode } stored rfl f.newNode).trans newKey
  intro address owner
  exact absurd owner.symm (Option.some_ne_none address)

theorem freeNode_steps (list : ListOk head nodes linked keys)
    (ok : ThreadOk nodes linked status ⟨.freeNode, f⟩) (notLinked : f.newNode ∉ linked) :
    Steps head nodes linked keys status ⟨.freeNode, f⟩ malloc := by
  have inserting : Inserting nodes linked status f := ok
  have elsewhere : ∀ other, f.newNode ≠ other →
      Store.get (Store.erase nodes f.newNode) other = Store.get nodes other :=
    fun _ different => Store.get_erase_other different
  have frames : Frames nodes linked (some f.newNode) (Store.erase nodes f.newNode) linked :=
    Frames.private notLinked elsewhere (.inl rfl)
  have kept : ListOk head (Store.erase nodes f.newNode) linked keys :=
    list.congr fun other inside => elsewhere other fun same => notLinked (same ▸ inside)
  refine ⟨_, ⟨.readVal, f⟩, rfl, linked, keys, status, kept,
    ⟨inserting.toAtNode.stable frames, inserting.pending⟩, frames, .stay _ _, ?_⟩
  intro address owner
  exact absurd owner.symm (Option.some_ne_none address)

end Insertion

/-- A thread that is not done always takes its step, and the step advances. -/
theorem dataStep_steps {state : Local} (list : ListOk head nodes linked keys)
    (ok : ThreadOk nodes linked status state)
    (notLinked : ∀ address, owned state = some address → address ∉ linked)
    (assumption : assumed malloc nodes state = true)
    (running : ∀ result, state.pc ≠ .returned result) :
    Steps head nodes linked keys status state malloc := by
  obtain ⟨pc, f⟩ := state
  cases pc with
  | readVal => exact readVal_steps list ok
  | readNext => exact readNext_steps list ok
  | readNextVal => exact readNextVal_steps list ok
  | readNextKey => exact readNextKey_steps list ok
  | containsKey => exact containsKey_steps list ok
  | deleteKey => exact deleteKey_steps list ok
  | deleteVal => exact deleteVal_steps list ok
  | deleteCas => exact deleteCas_steps list ok
  | insertKey => exact insertKey_steps list ok
  | insertCasVal => exact insertCasVal_steps list ok assumption
  | newNode stage =>
      by_cases start : stage = .malloc
      · subst start
        exact newNode_malloc_steps list ok assumption
      · refine newNode_steps list start ok (notLinked f.newNode ?_)
        cases stage with
        | malloc => exact absurd rfl start
        | key | val | prev | next | level => rfl
  | insertCasNext => exact insertCasNext_steps list ok (notLinked _ rfl)
  | storePrev => exact storePrev_steps list ok
  | freeNode => exact freeNode_steps list ok (notLinked _ rfl)
  | returned result => exact absurd rfl (running result)
  | readPrev | removeVal | removeKey | removeNext | removeTest | newMarker | markerVal | markerCas
    | reloadNext | prevNext | prevKey | prevPrev | ptrNext | removeCas => exact ok.elim

end Hosk
