import Hosk.SequentialCalls

/-!
A deleted node is one whose value is NULL. Only a node whose value is the node itself is ever unlinked, and
no operation makes a deleted node one of those, so a traversal leaves it where it is.
-/

namespace Hosk

open DataState

variable {head : Nat} {s : DataState} {cells : List DataCell}

/-- A node whose key was deleted has no value, and so is not removable. -/
theorem Sound.live_of_deleted (sound : Sound head s cells) {cell : DataCell} (member : cell ∈ cells)
    (positive : 1 ≤ keyAt s.nodes cell.node) (deleted : keyAt s.nodes cell.node ∈ s.deleted) :
    valAt s.nodes cell.node ≠ cell.node := by
  rw [(sound.deleted cell member positive).mpr deleted]
  exact (sound.list.nonzero (node_mem_addresses member)).symm

theorem DataState.updated_deleted (s : DataState) (op : Operation) (nodes : Nodes) (result pnode : Nat)
    {key : Nat} (other : key ≠ op.key) :
    key ∈ (s.updated op nodes result pnode).deleted ↔ key ∈ s.deleted := by
  rw [DataState.updated]
  split
  · cases op.optype <;> simp [other]
  · exact Iff.rfl

/-- Between the entry and the stop there is a deleted node afterwards exactly if there was one before,
between the entry and a node that the traversal comes to. -/
theorem Sound.deleted_left_iff {mallocs : Mallocs} {before rest inserted : List DataCell}
    {resume stop pnode result entry : Nat} {op : Operation} {nodes' : Nodes}
    (sound : Sound head s (before ++ ⟨resume, none⟩ :: rest)) (isEntry : entry ∈ s.entries)
    (done : Traversed mallocs head s.nodes before resume rest op nodes' stop pnode result inserted) :
    (∀ address, Linked head nodes' address → keyAt nodes' entry < keyAt nodes' address →
      keyAt nodes' address < keyAt nodes' stop →
      keyAt nodes' address ∉ (s.updated op nodes' result pnode).deleted) ↔
    ∀ address later, Linked head s.nodes address → keyAt s.nodes address ∈ s.deleted →
      Linked head s.nodes later → valAt s.nodes later ≠ later →
      keyAt s.nodes entry < keyAt s.nodes address → keyAt s.nodes address < keyAt s.nodes later →
      op.key < keyAt s.nodes later := by
  have entryKey := (sound.known_kept done isEntry).1
  have stopKey : keyAt nodes' stop = keyAt s.nodes stop :=
    (sound.known_kept done (sound.backed.listed _ done.stop_mem)).1
  have notPast := done.stopNotPast
  constructor
  · intro none address later linked deleted laterLinked laterLive afterEntry beforeLater
    by_contra near
    obtain ⟨cell, member, rfl⟩ := (sound.list.linked_iff (by omega)).mp linked
    obtain ⟨laterCell, laterMember, rfl⟩ := (sound.list.linked_iff (by omega)).mp laterLinked
    have upTo := done.last laterCell laterMember laterLive (Nat.le_of_not_lt near)
    have live := sound.live_of_deleted member (by omega) deleted
    have sameKey := (sound.known_kept done (sound.backed.listed cell member)).1
    have stillLinked : Linked head nodes' cell.node :=
      (done.list.linked_iff (by omega)).mpr ⟨cell, Traversed.stays_listed member live, rfl⟩
    refine none cell.node stillLinked (by omega) (by omega) ?_
    rw [sameKey, s.updated_deleted op nodes' result pnode (by omega)]
    exact deleted
  · intro none address linked afterEntry beforeStop deleted
    obtain ⟨cell, member, rfl⟩ := (done.list.linked_iff (by omega)).mp linked
    rcases Traversed.listed_origin member with old | new
    · have sameKey := (sound.known_kept done (sound.backed.listed cell old)).1
      rw [sameKey] at deleted
      rw [s.updated_deleted op nodes' result pnode (by omega)] at deleted
      have isLinked : Linked head s.nodes cell.node :=
        (sound.list.linked_iff (by omega)).mpr ⟨cell, old, rfl⟩
      have stopLinked : Linked head s.nodes stop :=
        (sound.list.linked_iff (by omega)).mpr ⟨_, done.stop_mem, rfl⟩
      have beyondKey := none cell.node stop isLinked deleted stopLinked done.stopLive (by omega) (by omega)
      omega
    · obtain ⟨_, _, next, foundNew⟩ := done.fresh cell new
      rw [keyAt_found foundNew] at beforeStop
      have stopBelow : keyAt nodes' stop ≤ op.key := stopKey ▸ notPast
      exact absurd beforeStop (Nat.not_lt.mpr stopBelow)

/-- In every state that calls and helpers come to, a traversal ends, and then no deleted node is linked
between its entry and its stop exactly if none was before: none beyond the entry that has a node after it
which is not removable and not past the search key. -/
theorem deleted_left_iff_before (nonzero : head ≠ 0) (acts : List DataAct) (mallocs : Mallocs)
    {op : Operation} {entry : Nat} (positive : 1 ≤ op.key) (isEntry : entry ∈ (run head acts).entries)
    (notPast : keyAt (run head acts).nodes entry ≤ op.key) :
    ∃ nodes' result f, (∃ enough, ∀ fuel ≥ enough,
        (run head acts).call mallocs fuel op entry = some (nodes', result, f)) ∧
      ((∀ address, Linked head nodes' address → keyAt nodes' entry < keyAt nodes' address →
          keyAt nodes' address < keyAt nodes' f.node →
          keyAt nodes' address ∉ ((run head acts).updated op nodes' result f.pnode).deleted) ↔
        ∀ address later, Linked head (run head acts).nodes address →
          keyAt (run head acts).nodes address ∈ (run head acts).deleted →
          Linked head (run head acts).nodes later → valAt (run head acts).nodes later ≠ later →
          keyAt (run head acts).nodes entry < keyAt (run head acts).nodes address →
          keyAt (run head acts).nodes address < keyAt (run head acts).nodes later →
          op.key < keyAt (run head acts).nodes later) := by
  obtain ⟨cells, sound⟩ := Sound.run nonzero acts
  obtain ⟨nodes', result, f, returns, before, resume, rest, inserted, rfl, done⟩ :=
    sound.call_returns mallocs positive isEntry notPast
  exact ⟨nodes', result, f, returns, sound.deleted_left_iff isEntry done⟩

def deletedBetween : List DataAct :=
  [.operate bumpMallocs 60 .insert 1000 1, .operate bumpMallocs 60 .insert 1000 2,
    .operate bumpMallocs 60 .insert 1000 3, .operate bumpMallocs 60 .delete 1000 2]

theorem deletedBetween_left : ∃ nodes' result f, (∃ enough, ∀ fuel ≥ enough,
      (run 1000 deletedBetween).call bumpMallocs fuel ⟨.contains, 3, 3⟩ 1000 = some (nodes', result, f)) ∧
    ((∀ address, Linked 1000 nodes' address → keyAt nodes' 1000 < keyAt nodes' address →
        keyAt nodes' address < keyAt nodes' f.node →
        keyAt nodes' address ∉
          ((run 1000 deletedBetween).updated ⟨.contains, 3, 3⟩ nodes' result f.pnode).deleted) ↔
      ∀ address later, Linked 1000 (run 1000 deletedBetween).nodes address →
        keyAt (run 1000 deletedBetween).nodes address ∈ (run 1000 deletedBetween).deleted →
        Linked 1000 (run 1000 deletedBetween).nodes later →
        valAt (run 1000 deletedBetween).nodes later ≠ later →
        keyAt (run 1000 deletedBetween).nodes 1000 < keyAt (run 1000 deletedBetween).nodes address →
        keyAt (run 1000 deletedBetween).nodes address < keyAt (run 1000 deletedBetween).nodes later →
        3 < keyAt (run 1000 deletedBetween).nodes later) :=
  deleted_left_iff_before (by decide) deletedBetween bumpMallocs (by decide) (by decide +kernel)
    (by decide +kernel)

def searchedNodes : Nodes :=
  [(1000, ⟨0, 1001, 0, 0, 0⟩), (1001, ⟨1000, 2002, 1, 1, 0⟩), (2002, ⟨1001, 4004, 0, 2, 0⟩),
    (4004, ⟨2002, 0, 3, 3, 0⟩)]

/-- A search for 3 goes past the node of the deleted key 2, and leaves it linked. -/
theorem deleted_node_left : ¬ ∀ (head : Nat) (acts : List DataAct) (mallocs : Mallocs) (fuel : Nat)
    (op : Operation) (entry : Nat) (nodes' : Nodes) (result : Nat) (f : Frame), head ≠ 0 →
    (run head acts).call mallocs fuel op entry = some (nodes', result, f) →
    ∀ address, Linked head nodes' address → keyAt nodes' entry < keyAt nodes' address →
      keyAt nodes' address < keyAt nodes' f.node →
      keyAt nodes' address ∉ ((run head acts).updated op nodes' result f.pnode).deleted := by
  intro always
  have called : (run 1000 deletedBetween).call bumpMallocs 60 ⟨.contains, 3, 3⟩ 1000 =
      some (searchedNodes, 1, ⟨⟨.contains, 3, 3⟩, 4004, 3, 0, 3, 0, 0, 0, 0⟩) := by decide +kernel
  have linked : Linked 1000 searchedNodes 2002 :=
    (Relation.ReflTransGen.single ⟨by decide, rfl⟩ : Linked 1000 searchedNodes 1001).tail ⟨by decide, rfl⟩
  refine always 1000 deletedBetween bumpMallocs 60 _ 1000 _ _ _ (by decide) called 2002 linked (by decide)
    (by decide) ?_
  decide +kernel

end Hosk
