import Hosk.HelperFrame
import Hosk.RemovingOperation

/-!
Whole calls of `sl_traverse_data` one after another, from whichever nodes the index gives, with calls of
helpers in between; whatever values the nodes hold.
-/

namespace Hosk

/-- The data layer between two calls: its memory, the nodes an index may know of, and the keys whose last
update that took effect was an insert or a delete. -/
structure DataState where
  nodes : Nodes
  entries : List Nat
  inserted : Finset Nat
  deleted : Finset Nat

/-- A call of an enclave, which looks at so many steps of it, or one of a helper. -/
inductive DataAct where
  | operate (mallocs : Mallocs) (fuel : Nat) (optype : OpType) (entry key : Nat)
  | helps (platform : Platform) (e : Enclave) (call : Call)

namespace DataState

def new (head : Nat) : DataState := ⟨(DataLayer.new head).nodes, [head], ∅, ∅⟩

/-- The memory, the result and the locals at the return of a call from a node the index may give. -/
def call (s : DataState) (mallocs : Mallocs) (fuel : Nat) (op : Operation) (entry : Nat) :
    Option (Nodes × Nat × Frame) :=
  if 1 ≤ op.key ∧ entry ∈ s.entries ∧ keyAt s.nodes entry ≤ op.key then
    match traverseUndisturbed mallocs fuel s.nodes (slTraverseData entry op) with
    | some (nodes, ⟨.returned result, f⟩) => some (nodes, result, f)
    | _ => none
  else none

def updated (s : DataState) (op : Operation) (nodes : Nodes) (result pnode : Nat) : DataState :=
  if result = 1 then
    match op.optype with
    | .contains => { s with nodes := nodes }
    | .delete => ⟨nodes, s.entries, s.inserted.erase op.key, insert op.key s.deleted⟩
    | .insert => ⟨nodes, pnode :: s.entries, insert op.key s.inserted, s.deleted.erase op.key⟩
  else { s with nodes := nodes }

-- what is not possible in the state leaves it as it is
def act (s : DataState) : DataAct → DataState
  | .operate mallocs fuel optype entry key =>
      match s.call mallocs fuel ⟨optype, key, key⟩ entry with
      | some (nodes, result, f) => s.updated ⟨optype, key, key⟩ nodes result f.pnode
      | none => s
  | .helps platform e call =>
      match ({ e with nodes := s.nodes } : Enclave).call platform call with
      | some e' => { s with nodes := e'.nodes }
      | none => s

def run (head : Nat) (acts : List DataAct) : DataState := Runs.run act (new head) acts

def Linked (head : Nat) (nodes : Nodes) (address : Nat) : Prop :=
  Chain.Follows (nextOf nodes) head address

end DataState

open RemovableList

theorem RemovableList.linked_iff {head : Nat} {nodes : Nodes} {cells : List DataCell}
    (list : RemovableList head nodes cells) {address : Nat} (positive : 1 ≤ keyAt nodes address) :
    DataState.Linked head nodes address ↔ ∃ cell ∈ cells, cell.node = address := by
  have nonzero := list.nonzero (node_mem_addresses list.headListed)
  rw [DataState.Linked, list.chain.follows_iff nonzero, addresses, List.mem_flatMap]
  constructor
  · rintro ⟨cell, member, inCell⟩
    rcases List.mem_cons.mp inCell with isNode | isMarker
    · exact ⟨cell, member, isNode.symm⟩
    · have zero := (list.markers cell member address (Option.mem_toList.mp isMarker)).2.1
      omega
  · rintro ⟨cell, member, rfl⟩
    exact ⟨cell, member, List.mem_cons_self⟩

/-- What holds between calls, whatever was called. -/
structure Sound (head : Nat) (s : DataState) (cells : List DataCell) : Prop where
  list : RemovableList head s.nodes cells
  backed : Backed head s.nodes cells s.entries
  vals : ∀ address ∈ s.entries, valAt s.nodes address = 0 ∨ valAt s.nodes address = keyAt s.nodes address
  deleted : ∀ cell ∈ cells, 1 ≤ keyAt s.nodes cell.node →
    (valAt s.nodes cell.node = 0 ↔ keyAt s.nodes cell.node ∈ s.deleted)
  inserted : ∀ key ∈ s.inserted,
    ∃ address ∈ s.entries, keyAt s.nodes address = key ∧ valAt s.nodes address ≠ 0

namespace Sound

variable {head : Nat} {s : DataState} {cells : List DataCell}

theorem initial (nonzero : head ≠ 0) : Sound head (DataState.new head) [⟨head, none⟩] := by
  have found : Store.get (DataLayer.new head).nodes head = some ⟨0, 0, 0, 0, 0⟩ := by
    simp [DataLayer.new, Store.get]
  have list : RemovableList head (DataLayer.new head).nodes [⟨head, none⟩] := by
    refine ⟨⟨rfl, nonzero, 0, nextOf_found found, rfl⟩, List.mem_singleton_self _, keyAt_found found,
      valAt_found found, prevAt_found found, List.pairwise_singleton _ _, ?_⟩
    intro cell member marker has
    rw [List.mem_singleton.mp member] at has
    exact absurd has (by simp)
  have known := list.backed (by simp)
  refine ⟨list, known, ?_, ?_, fun key wrong => absurd wrong (Finset.notMem_empty key)⟩
  · intro address member
    rw [List.mem_singleton.mp member]
    exact .inl (valAt_found found)
  · intro cell member positive
    rw [List.mem_singleton.mp member] at positive
    exact absurd (keyAt_found found) (Nat.ne_of_gt positive)

theorem relevels (sound : Sound head s cells) {nodes' : Nodes} (levels : LevelsOnly s.nodes nodes') :
    Sound head { s with nodes := nodes' } cells := by
  have next : nextOf nodes' = nextOf s.nodes := levels.nextOf
  have key : keyAt nodes' = keyAt s.nodes := funext (levels.get_elim 0 Node.key fun _ => rfl)
  have val : valAt nodes' = valAt s.nodes := funext (levels.get_elim 0 Node.val fun _ => rfl)
  have prev : prevAt nodes' = prevAt s.nodes := funext (levels.get_elim 0 Node.prev fun _ => rfl)
  obtain ⟨⟨chain, headListed, headKey, headVal, headPrev, sorted, markers⟩,
    ⟨listed, nonzero, stored, prevs, linked⟩, vals, deleted, inserted⟩ := sound
  rw [← next] at chain
  rw [← key] at headKey sorted markers prevs vals deleted inserted
  rw [← val] at headVal markers linked vals deleted inserted
  rw [← prev] at headPrev markers prevs
  refine ⟨⟨chain, headListed, headKey, headVal, headPrev, sorted, markers⟩,
    ⟨listed, nonzero, ?_, prevs, linked⟩, vals, deleted, inserted⟩
  intro address isKnown
  obtain ⟨node, found⟩ := stored address isKnown
  obtain ⟨level, found'⟩ := levels.found found
  exact ⟨_, found'⟩

theorem call_returns (sound : Sound head s cells) (mallocs : Mallocs) {op : Operation} {entry : Nat}
    (positive : 1 ≤ op.key) (isEntry : entry ∈ s.entries) (notPast : keyAt s.nodes entry ≤ op.key) :
    ∃ nodes' result f, (∃ enough, ∀ fuel ≥ enough,
        s.call mallocs fuel op entry = some (nodes', result, f)) ∧
      ∃ before resume rest inserted, cells = before ++ ⟨resume, none⟩ :: rest ∧
        Traversed mallocs head s.nodes before resume rest op nodes' f.node f.pnode result inserted := by
  obtain ⟨before, resume, rest, nodes', f, result, inserted, split, _, _, reaches, done⟩ :=
    slTraverseData_traversed mallocs sound.list sound.backed isEntry notPast positive
  obtain ⟨enough, ends⟩ := reaches.returns rfl
  refine ⟨nodes', result, f, ⟨enough, fun fuel more => ?_⟩, before, resume, rest, inserted, split, done⟩
  rw [DataState.call, if_pos ⟨positive, isEntry, notPast⟩, ends fuel more]

theorem call_traversed (sound : Sound head s cells) {mallocs : Mallocs} {fuel : Nat} {op : Operation}
    {entry result : Nat} {nodes' : Nodes} {f : Frame}
    (called : s.call mallocs fuel op entry = some (nodes', result, f)) :
    1 ≤ op.key ∧ entry ∈ s.entries ∧ ∃ before resume rest inserted,
      cells = before ++ ⟨resume, none⟩ :: rest ∧
      Traversed mallocs head s.nodes before resume rest op nodes' f.node f.pnode result inserted := by
  rw [DataState.call] at called
  split at called
  · next proper =>
      obtain ⟨positive, isEntry, notPast⟩ := proper
      split at called
      · next _ _ _ ran =>
          simp only [Option.some.injEq, Prod.mk.injEq] at called
          obtain ⟨rfl, rfl, rfl⟩ := called
          obtain ⟨before, resume, rest, nodes₁, f₁, result₁, inserted, split, _, _, reaches, done⟩ :=
            slTraverseData_traversed mallocs sound.list sound.backed isEntry notPast positive
          obtain ⟨ranTo, _⟩ := reaches_of_traverseUndisturbed fuel _ _ _ ran
          have same := ranTo.unique reaches rfl rfl
          simp only [Prod.mk.injEq, Local.mk.injEq, Pc.returned.injEq] at same
          obtain ⟨rfl, rfl, rfl⟩ := same
          exact ⟨positive, isEntry, before, resume, rest, inserted, split, done⟩
      · exact absurd called (by simp)
  · exact absurd called (by simp)

section Updated

variable {mallocs : Mallocs} {before rest inserted : List DataCell} {resume stop pnode result : Nat}
  {op : Operation} {nodes' : Nodes}

theorem known_kept (sound : Sound head s (before ++ ⟨resume, none⟩ :: rest))
    (done : Traversed mallocs head s.nodes before resume rest op nodes' stop pnode result inserted)
    {address : Nat} (isEntry : address ∈ s.entries) :
    keyAt nodes' address = keyAt s.nodes address ∧
      (address ≠ stop → valAt nodes' address = valAt s.nodes address) := by
  obtain ⟨node, found⟩ := sound.backed.stored address isEntry
  exact done.keyVal found

theorem carried (sound : Sound head s (before ++ ⟨resume, none⟩ :: rest))
    (done : Traversed mallocs head s.nodes before resume rest op nodes' stop pnode result inserted)
    {entries : List Nat} {insertedKeys deletedKeys : Finset Nat}
    (sameEntries : ∀ address, address ∈ entries ↔ address ∈ inserted.map DataCell.node ++ s.entries)
    (vals : ∀ address, address = stop ∨ address ∈ inserted.map DataCell.node →
      (valAt nodes' address = 0 ∨ valAt nodes' address = keyAt nodes' address) ∧
      (1 ≤ keyAt nodes' address → (valAt nodes' address = 0 ↔ keyAt nodes' address ∈ deletedKeys)))
    (otherDeleted : ∀ cell ∈ before ++ ⟨resume, none⟩ :: rest,
      cell ∈ before ++ ⟨resume, none⟩ ::
        (lastingPassed s.nodes op.key rest ++ inserted ++ past s.nodes op.key rest) → cell.node ≠ stop →
      (keyAt s.nodes cell.node ∈ deletedKeys ↔ keyAt s.nodes cell.node ∈ s.deleted))
    (stillInserted : ∀ key ∈ insertedKeys,
      (∃ address, (address = stop ∨ address ∈ inserted.map DataCell.node) ∧
        keyAt nodes' address = key ∧ valAt nodes' address ≠ 0) ∨
      key ∈ s.inserted ∧ (key = keyAt s.nodes stop → valAt nodes' stop = valAt s.nodes stop)) :
    Sound head ⟨nodes', entries, insertedKeys, deletedKeys⟩
      (before ++ ⟨resume, none⟩ ::
        (lastingPassed s.nodes op.key rest ++ inserted ++ past s.nodes op.key rest)) := by
  have known := done.backed sound.backed
  refine ⟨done.list, ⟨?_, ?_, ?_, ?_, ?_⟩, ?_, ?_, ?_⟩
  · exact fun cell member => (sameEntries _).mpr (known.listed cell member)
  · exact fun address isEntry => known.nonzero address ((sameEntries _).mp isEntry)
  · exact fun address isEntry => known.stored address ((sameEntries _).mp isEntry)
  · intro address isEntry other
    obtain ⟨prevKnown, smaller⟩ := known.prevs address ((sameEntries _).mp isEntry) other
    exact ⟨(sameEntries _).mpr prevKnown, smaller⟩
  · exact fun address isEntry => known.linked address ((sameEntries _).mp isEntry)
  · intro address isEntry
    by_cases touched : address = stop ∨ address ∈ inserted.map DataCell.node
    · exact (vals address touched).1
    · have old : address ∈ s.entries := by
        have inside := (sameEntries _).mp isEntry
        rw [List.mem_append] at inside
        tauto
      obtain ⟨key, val⟩ := sound.known_kept done old
      change valAt nodes' address = 0 ∨ valAt nodes' address = keyAt nodes' address
      rw [key, val fun isStop => touched (.inl isStop)]
      exact sound.vals address old
  · intro cell member positive
    by_cases touched : cell.node = stop ∨ cell.node ∈ inserted.map DataCell.node
    · exact (vals cell.node touched).2 positive
    · have old : cell ∈ before ++ ⟨resume, none⟩ :: rest := by
        refine (Traversed.listed_origin member).resolve_right fun new => ?_
        exact touched (.inr (List.mem_map_of_mem new))
      have notStop : cell.node ≠ stop := fun isStop => touched (.inl isStop)
      obtain ⟨key, val⟩ := sound.known_kept done (sound.backed.listed cell old)
      change 1 ≤ keyAt nodes' cell.node at positive
      change valAt nodes' cell.node = 0 ↔ keyAt nodes' cell.node ∈ deletedKeys
      rw [key] at positive ⊢
      rw [val notStop, otherDeleted cell old member notStop]
      exact sound.deleted cell old positive
  · intro key member
    rcases stillInserted key member with ⟨address, touched, isKey, value⟩ | ⟨old, sameVal⟩
    · refine ⟨address, (sameEntries _).mpr ?_, isKey, value⟩
      rcases touched with rfl | new
      · exact List.mem_append_right _ (sound.backed.listed _ done.stop_mem)
      · exact List.mem_append_left _ new
    · obtain ⟨address, isEntry, isKey, value⟩ := sound.inserted key old
      obtain ⟨keySame, valSame⟩ := sound.known_kept done isEntry
      refine ⟨address, (sameEntries _).mpr (List.mem_append_right _ isEntry), keySame.trans isKey, ?_⟩
      by_cases isStop : address = stop
      · subst isStop
        rw [sameVal isKey.symm]
        exact value
      · rw [valSame isStop]
        exact value

theorem quiet (sound : Sound head s (before ++ ⟨resume, none⟩ :: rest))
    (done : Traversed mallocs head s.nodes before resume rest op nodes' stop pnode result [])
    (sameVal : valAt nodes' stop = valAt s.nodes stop) :
    Sound head { s with nodes := nodes' }
      (before ++ ⟨resume, none⟩ :: (lastingPassed s.nodes op.key rest ++ [] ++ past s.nodes op.key rest)) := by
  have isEntry := sound.backed.listed _ done.stop_mem
  have sameKey := (sound.known_kept done isEntry).1
  refine sound.carried done (fun address => Iff.rfl) ?_ (fun _ _ _ _ => Iff.rfl)
    (fun key member => .inr ⟨member, fun _ => sameVal⟩)
  rintro address (rfl | wrong)
  · rw [sameKey, sameVal]
    exact ⟨sound.vals _ isEntry, sound.deleted _ done.stop_mem⟩
  · exact absurd wrong List.not_mem_nil

theorem revalued (sound : Sound head s (before ++ ⟨resume, none⟩ :: rest))
    (done : Traversed mallocs head s.nodes before resume rest op nodes' stop pnode result [])
    (isKey : op.key = keyAt s.nodes stop) {entries : List Nat} {insertedKeys deletedKeys : Finset Nat}
    (sameEntries : ∀ address, address ∈ entries ↔ address ∈ s.entries)
    (val : valAt nodes' stop = 0 ∨ valAt nodes' stop = op.key)
    (deleted : valAt nodes' stop = 0 ↔ op.key ∈ deletedKeys)
    (otherDeleted : ∀ key, key ≠ op.key → (key ∈ deletedKeys ↔ key ∈ s.deleted))
    (isInserted : op.key ∈ insertedKeys → valAt nodes' stop ≠ 0)
    (otherInserted : ∀ key, key ≠ op.key → key ∈ insertedKeys → key ∈ s.inserted) :
    Sound head ⟨nodes', entries, insertedKeys, deletedKeys⟩
      (before ++ ⟨resume, none⟩ :: (lastingPassed s.nodes op.key rest ++ [] ++ past s.nodes op.key rest)) := by
  have isEntry := sound.backed.listed _ done.stop_mem
  have sameKey := (sound.known_kept done isEntry).1
  refine sound.carried done sameEntries ?_ ?_ ?_
  · rintro address (rfl | wrong)
    · rw [sameKey, ← isKey]
      exact ⟨val, fun _ => deleted⟩
    · exact absurd wrong List.not_mem_nil
  · intro cell old _ notStop
    refine otherDeleted _ fun same => notStop ?_
    exact congrArg DataCell.node (sound.list.same_cell old done.stop_mem (same.trans isKey))
  · intro key member
    by_cases same : key = op.key
    · subst same
      exact .inl ⟨stop, .inl rfl, sameKey.trans isKey.symm, isInserted member⟩
    · exact .inr ⟨otherInserted key same member, fun isStop => absurd (isStop.trans isKey.symm) same⟩

theorem linked (sound : Sound head s (before ++ ⟨resume, none⟩ :: rest)) {new : Nat}
    (done : Traversed mallocs head s.nodes before resume rest op nodes' stop new 1 [⟨new, none⟩])
    (value : op.val = op.key) (positive : 1 ≤ op.key) (sameVal : valAt nodes' stop = valAt s.nodes stop)
    (other : op.key ≠ keyAt s.nodes stop) :
    Sound head ⟨nodes', new :: s.entries, insert op.key s.inserted, s.deleted.erase op.key⟩
      (before ++ ⟨resume, none⟩ ::
        (lastingPassed s.nodes op.key rest ++ [⟨new, none⟩] ++ past s.nodes op.key rest)) := by
  have isEntry := sound.backed.listed _ done.stop_mem
  have sameKey := (sound.known_kept done isEntry).1
  obtain ⟨_, free, next, foundNew⟩ := done.fresh ⟨new, none⟩ (List.mem_singleton_self _)
  have newKey : keyAt nodes' new = op.key := keyAt_found foundNew
  have newVal : valAt nodes' new = op.key := (valAt_found foundNew).trans value
  refine sound.carried done (fun address => Iff.rfl) ?_ ?_ ?_
  · rintro address (rfl | isNew)
    · rw [sameKey, sameVal]
      refine ⟨sound.vals _ isEntry, fun positiveKey => ?_⟩
      rw [sound.deleted _ done.stop_mem positiveKey, Finset.mem_erase]
      exact ⟨fun inside => ⟨other.symm, inside⟩, And.right⟩
    · rw [List.map_singleton, List.mem_singleton] at isNew
      subst isNew
      rw [newKey, newVal]
      exact ⟨.inr rfl, fun _ => by simp; omega⟩
  · intro cell old left _
    have differs : keyAt s.nodes cell.node ≠ op.key := by
      intro same
      have inList : (⟨new, none⟩ : DataCell) ∈ before ++ ⟨resume, none⟩ ::
          (lastingPassed s.nodes op.key rest ++ [⟨new, none⟩] ++ past s.nodes op.key rest) := by simp
      have isNew := done.list.same_cell left inList
        (((sound.known_kept done (sound.backed.listed _ old)).1.trans same).trans newKey.symm)
      obtain ⟨node, found⟩ := sound.list.stored (node_mem_addresses old)
      rw [isNew] at found
      exact absurd (free.symm.trans found) (Option.some_ne_none node).symm
    simp [differs]
  · intro key member
    rcases Finset.mem_insert.mp member with rfl | old
    · exact .inl ⟨new, .inr (List.mem_singleton_self _), newKey, by rw [newVal]; omega⟩
    · exact .inr ⟨old, fun _ => sameVal⟩

/-- Whatever a call of `sl_do_operation` does, the state after it is sound. -/
theorem updated (sound : Sound head s (before ++ ⟨resume, none⟩ :: rest))
    (done : Traversed mallocs head s.nodes before resume rest op nodes' stop pnode result inserted)
    (value : op.val = op.key) (positive : 1 ≤ op.key) :
    Sound head (s.updated op nodes' result pnode) (before ++ ⟨resume, none⟩ ::
      (lastingPassed s.nodes op.key rest ++ inserted ++ past s.nodes op.key rest)) := by
  have isEntry := sound.backed.listed _ done.stop_mem
  have published := done.published
  obtain ⟨stopVal, isVal⟩ : ∃ stopVal, valAt nodes' stop = stopVal := ⟨_, rfl⟩
  have effect := done.effect
  rw [isVal] at effect
  cases effect with
  | found kind _ =>
      simp only [DataState.updated, kind, if_true]
      exact sound.quiet done isVal
  | missing kind _ | absent kind _ | present kind _ =>
      simp only [DataState.updated, Nat.zero_ne_one, if_false]
      exact sound.quiet done isVal
  | deletes kind holds =>
      simp only [DataState.updated, kind, if_true]
      refine sound.revalued done holds.1 (fun _ => Iff.rfl) (.inl isVal) (by simp [isVal]) ?_ (by simp) ?_
      · intro key differs
        simp [differs]
      · exact fun key _ member => Finset.mem_of_mem_erase member
  | restores kind isKey isNull =>
      simp only [DataState.updated, kind, if_true]
      have nonzero : valAt nodes' stop ≠ 0 := by omega
      have isStop : pnode = stop := published kind rfl
      refine sound.revalued done isKey ?_ (.inr (isVal.trans value)) ?_ ?_ (fun _ => nonzero) ?_
      · intro address
        rw [isStop, List.mem_cons]
        refine ⟨fun either => either.elim (fun same => same ▸ isEntry) id, .inr⟩
      · simp [nonzero]
      · intro key differs
        simp [differs]
      · exact fun key differs member => (Finset.mem_insert.mp member).resolve_left differs
  | links new kind other =>
      simp only [DataState.updated, kind, if_true]
      obtain rfl : pnode = new := published kind rfl
      exact sound.linked done value positive isVal other

end Updated

/-- What one action preserves. -/
theorem act (sound : Sound head s cells) (a : DataAct) : ∃ cells', Sound head (s.act a) cells' := by
  cases a with
  | operate mallocs fuel optype entry key =>
      rw [DataState.act]
      split
      · next called =>
          obtain ⟨positive, _, before, resume, rest, inserted, rfl, done⟩ := sound.call_traversed called
          exact ⟨_, sound.updated done rfl positive⟩
      · exact ⟨cells, sound⟩
  | helps platform e call =>
      rw [DataState.act]
      split
      · next returned => exact ⟨cells, sound.relevels (Enclave.call_relevels platform _ call _ returned)⟩
      · exact ⟨cells, sound⟩

theorem run (nonzero : head ≠ 0) (acts : List DataAct) :
    ∃ cells, Sound head (DataState.run head acts) cells :=
  Runs.run_invariant (fun s => ∃ cells, Sound head s cells) ⟨_, Sound.initial nonzero⟩
    (fun _ a ⟨_, sound⟩ => sound.act a) acts

end Sound

end Hosk
