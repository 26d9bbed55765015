import Mathlib.Algebra.Order.BigOperators.Group.List
import Mathlib.Algebra.Order.Ring.Nat
import Mathlib.Data.Finset.Dedup
import Hosk.RemovingFinish

/-!
One whole `sl_traverse_data` on a list with removable nodes, from any node that is known. It ends, answers
as the set of the keys held, and takes out the removable nodes on its way and nothing else.
-/

namespace Hosk

open RemovableList

/-- The keys whose nodes hold a value that is neither NULL nor the node itself. -/
def keysHeld (nodes : Nodes) (cells : List DataCell) : Finset Nat :=
  ((cells.filter fun cell => valAt nodes cell.node ≠ 0 && lasting nodes cell).map
    fun cell => keyAt nodes cell.node).toFinset

theorem mem_keysHeld {nodes : Nodes} {cells : List DataCell} {key : Nat} : key ∈ keysHeld nodes cells ↔
    ∃ cell ∈ cells, valAt nodes cell.node ≠ 0 ∧ valAt nodes cell.node ≠ cell.node ∧
      keyAt nodes cell.node = key := by
  simp [keysHeld, lasting, and_assoc]

/-- What an operation with this entry leaves behind. It has come back to `resume`, gone on to `stop`, and
linked the nodes `inserted` behind that one. -/
structure Traversed (mallocs : Mallocs) (head : Nat) (nodes : Nodes) (before : List DataCell) (resume : Nat)
    (rest : List DataCell) (op : Operation) (nodes' : Nodes) (stop pnode result : Nat)
    (inserted : List DataCell) : Prop where
  list : RemovableList head nodes'
    (before ++ ⟨resume, none⟩ :: (lastingPassed nodes op.key rest ++ inserted ++ past nodes op.key rest))
  stopListed : ⟨stop, none⟩ ∈ before ++ ⟨resume, none⟩ :: lastingPassed nodes op.key rest
  stopLive : valAt nodes stop ≠ stop
  stopNotPast : keyAt nodes stop ≤ op.key
  last : ∀ cell ∈ before ++ ⟨resume, none⟩ :: rest, valAt nodes cell.node ≠ cell.node →
    keyAt nodes cell.node ≤ op.key → keyAt nodes cell.node ≤ keyAt nodes stop
  effect : Effect op (keyAt nodes stop) (valAt nodes stop) (valAt nodes' stop) result inserted
  stays : ∀ address node, Store.get nodes address = some node →
    ∃ node', Store.get nodes' address = some node' ∧ node'.key = node.key ∧
      (address ≠ stop → node'.val = node.val) ∧
      (node'.prev = node.prev ∨ ∃ cell ∈ inserted, node'.prev = cell.node ∧ op.key < node.key)
  fresh : ∀ cell ∈ inserted, cell.marker = none ∧ Store.get nodes cell.node = none ∧
    ∃ next, Store.get nodes' cell.node = some ⟨stop, next, op.val, op.key, 0⟩
  placed : (∀ cell ∈ rest, valAt nodes cell.node ≠ cell.node) →
    ∀ cell ∈ inserted, cell.node = (mallocs.block nodes).address
  published : op.optype = .insert → result = 1 → pnode = (inserted.map DataCell.node).headD stop

section Traversal

variable {mallocs : Mallocs} {head : Nat} {nodes nodes' : Nodes} {before rest inserted : List DataCell}
  {resume stop pnode result key : Nat} {op : Operation}

theorem mem_passed_or_past {cell : DataCell} (member : cell ∈ rest)
    (live : valAt nodes cell.node ≠ cell.node) :
    cell ∈ lastingPassed nodes key rest ∨ cell ∈ past nodes key rest := by
  have parts : rest.takeWhile (passes nodes key) ++ rest.dropWhile (passes nodes key) = rest :=
    List.takeWhile_append_dropWhile
  rw [← parts, List.mem_append] at member
  refine member.imp_left fun taken => ?_
  exact List.mem_filter.mpr ⟨taken, by simp [lasting, live]⟩

theorem passed_subset : lastingPassed nodes key rest ⊆ rest := fun _ member =>
  (List.takeWhile_sublist _).subset (List.mem_of_mem_filter member)

theorem past_subset : past nodes key rest ⊆ rest := (List.dropWhile_sublist _).subset

theorem slTraverseData_traversed (mallocs : Mallocs) {cells : List DataCell} {known : List Nat}
    (list : RemovableList head nodes cells) (backed : Backed head nodes cells known) {entry : Nat}
    (isKnown : entry ∈ known) (notPast : keyAt nodes entry ≤ op.key) (positive : 1 ≤ op.key) :
    ∃ before resume rest nodes' f' result inserted, cells = before ++ ⟨resume, none⟩ :: rest ∧
      WalksBack nodes entry resume ∧ valAt nodes resume ≠ resume ∧
      Reaches mallocs (nodes, slTraverseData entry op) (nodes', ⟨.returned result, f'⟩) ∧
      Traversed mallocs head nodes before resume rest op nodes' f'.node f'.pnode result inserted := by
  obtain ⟨f, walks, sameOp, back, live, listed, earlier⟩ := list.walksBack mallocs backed
    (keyAt nodes entry) (slTraverseData entry op).frame isKnown (Nat.le_refl _)
  have isOp : f.op = op := sameOp
  obtain ⟨before, rest, rfl⟩ := List.append_of_mem listed
  have stored : ∀ cell ∈ before ++ ⟨f.node, none⟩ :: rest, ∃ node, Store.get nodes cell.node = some node :=
    fun cell member => list.stored (node_mem_addresses member)
  obtain ⟨nodes₁, f₁, before₁, travels, sameOp₁, kept, untouched, split, stands⟩ :=
    RemovableList.travels mallocs nodes rest (fun cell member => stored cell (by simp [member])) before nodes
      f (Kept.refl nodes) list live (isOp ▸ Nat.le_trans earlier notPast)
  rw [isOp] at sameOp₁ split stands
  obtain ⟨nodes', f', result, inserted, ends, _, sameNode, finished⟩ := stands.finishes mallocs
    (sameOp₁ ▸ positive)
  rw [isOp] at travels
  rw [sameOp₁] at ends
  have reached : ⟨f₁.node, none⟩ ∈ before ++ ⟨f.node, none⟩ :: lastingPassed nodes op.key rest := by
    rw [← split]
    simp
  have inCells : ⟨f₁.node, none⟩ ∈ before ++ ⟨f.node, none⟩ :: rest := by
    simp only [List.mem_append, List.mem_cons] at reached ⊢
    exact reached.imp_right fun later => later.imp_right (passed_subset ·)
  obtain ⟨node, found⟩ := stored _ inCells
  refine ⟨before, f.node, rest, nodes', f', result, inserted, rfl, back, live,
    walks.trans (travels.trans ends), ?_⟩
  have stopNow : valAt nodes₁ f₁.node = valAt nodes f₁.node := kept.valAt_eq found
  have stopKey : keyAt nodes₁ f₁.node = keyAt nodes f₁.node := kept.keyAt_eq found
  have listNow := finished.list
  rw [show before₁ ++ ⟨f₁.node, none⟩ :: (inserted ++ past nodes op.key rest) =
    (before₁ ++ [⟨f₁.node, none⟩]) ++ (inserted ++ past nodes op.key rest) by simp, split] at listNow
  have effect := finished.effect
  rw [sameOp₁, stopNow, stopKey] at effect
  rw [sameNode]
  refine ⟨?_, reached, stopNow ▸ stands.live, ?_, ?_, effect, ?_, ?_, ?_, ?_⟩
  · simpa using listNow
  · rw [← stopKey, ← sameOp₁]
    exact stands.notPast
  · intro cell member liveCell notPast
    obtain ⟨cellNode, foundCell⟩ := stored cell member
    have inPassed : cell ∈ before₁ ++ [⟨f₁.node, none⟩] := by
      rw [split]
      simp only [List.mem_append, List.mem_cons] at member ⊢
      refine member.imp_right fun later => later.imp_right fun inRest => ?_
      refine (mem_passed_or_past inRest liveCell).resolve_right fun inPast => ?_
      have ahead := stands.ahead cell inPast
      rw [sameOp₁, kept.keyAt_eq foundCell] at ahead
      omega
    have sorted := stands.list.sorted
    rw [List.map_append, List.pairwise_append] at sorted
    rcases List.mem_append.mp inPassed with inBefore | isStop
    · have smaller := sorted.2.2 cell.node (List.mem_map_of_mem inBefore) f₁.node (by simp)
      rw [stopKey, kept.keyAt_eq foundCell] at smaller
      exact Nat.le_of_lt smaller
    · rw [List.mem_singleton.mp isStop]
  · intro address old foundOld
    obtain ⟨next, foundNow⟩ := kept address old foundOld
    obtain ⟨node', found', sameKey, sameVal, samePrev⟩ := finished.stays address _ foundNow
    rw [sameOp₁] at samePrev
    exact ⟨node', found', sameKey, sameVal, samePrev⟩
  · intro cell member
    obtain ⟨given, unmarked, next, foundNew⟩ := finished.fresh cell member
    rw [sameOp₁] at foundNew
    have free := mallocs.free nodes₁
    rw [← given] at free
    refine ⟨unmarked, ?_, next, foundNew⟩
    by_contra taken
    obtain ⟨old, foundOld⟩ := Option.ne_none_iff_exists'.mp taken
    obtain ⟨_, foundNow⟩ := kept cell.node old foundOld
    exact absurd (free.symm.trans foundNow) (by simp)
  · intro allLive cell member
    rw [(finished.fresh cell member).1, untouched allLive]
  · intro inserts one
    exact finished.published (sameOp₁ ▸ inserts) one

namespace Traversed

variable {known : List Nat}

theorem stop_mem (done : Traversed mallocs head nodes before resume rest op nodes' stop pnode result inserted) :
    ⟨stop, none⟩ ∈ before ++ ⟨resume, none⟩ :: rest := by
  have listed := done.stopListed
  simp only [List.mem_append, List.mem_cons] at listed ⊢
  exact listed.imp_right fun later => later.imp_right (passed_subset ·)

theorem held_iff (done : Traversed mallocs head nodes before resume rest op nodes' stop pnode result inserted)
    (list : RemovableList head nodes (before ++ ⟨resume, none⟩ :: rest)) :
    op.key ∈ keysHeld nodes (before ++ ⟨resume, none⟩ :: rest) ↔
      op.key = keyAt nodes stop ∧ valAt nodes stop ≠ 0 := by
  rw [mem_keysHeld]
  constructor
  · rintro ⟨cell, member, value, live, key⟩
    have upTo := done.last cell member live (Nat.le_of_eq key)
    have same : keyAt nodes cell.node = keyAt nodes stop := by
      have notPast := done.stopNotPast
      omega
    have isStop : cell = ⟨stop, none⟩ := list.same_cell member done.stop_mem same
    rw [isStop] at value
    exact ⟨key.symm.trans same, value⟩
  · rintro ⟨key, value⟩
    exact ⟨⟨stop, none⟩, done.stop_mem, value, done.stopLive, key.symm⟩

theorem result_eq (done : Traversed mallocs head nodes before resume rest op nodes' stop pnode result inserted)
    (list : RemovableList head nodes (before ++ ⟨resume, none⟩ :: rest)) :
    (keySet.apply op (keysHeld nodes (before ++ ⟨resume, none⟩ :: rest))).2 = result := by
  have held := done.held_iff list
  have effect := done.effect
  generalize keysHeld nodes (before ++ ⟨resume, none⟩ :: rest) = keys at held ⊢
  generalize valAt nodes' stop = left at effect
  cases effect with
  | found kind holds | deletes kind holds | present kind holds =>
      simp [keySet, kind, held.mpr holds]
  | missing kind fails | absent kind fails =>
      simp [keySet, kind, mt held.mp fails]
  | restores kind _ isNull =>
      have free : op.key ∉ keys := fun holds => (held.mp holds).2 isNull
      simp [keySet, kind, free]
  | links new kind other =>
      have free : op.key ∉ keys := fun holds => other (held.mp holds).1
      simp [keySet, kind, free]

theorem stays_listed {cell : DataCell} (member : cell ∈ before ++ ⟨resume, none⟩ :: rest)
    (live : valAt nodes cell.node ≠ cell.node) :
    cell ∈ before ++ ⟨resume, none⟩ :: (lastingPassed nodes key rest ++ inserted ++ past nodes key rest) := by
  simp only [List.mem_append, List.mem_cons] at member ⊢
  rcases member with inBefore | isResume | inRest
  · exact .inl inBefore
  · exact .inr (.inl isResume)
  · have later : cell ∈ lastingPassed nodes key rest ∨ cell ∈ past nodes key rest :=
      mem_passed_or_past inRest live
    tauto

theorem listed_origin {cell : DataCell} (member : cell ∈ before ++ ⟨resume, none⟩ ::
    (lastingPassed nodes key rest ++ inserted ++ past nodes key rest)) :
    cell ∈ before ++ ⟨resume, none⟩ :: rest ∨ cell ∈ inserted := by
  have inPassed : cell ∈ lastingPassed nodes key rest → cell ∈ rest := fun inside => passed_subset inside
  have inPast : cell ∈ past nodes key rest → cell ∈ rest := fun inside => past_subset inside
  simp only [List.mem_append, List.mem_cons] at member ⊢
  tauto

theorem keyVal (done : Traversed mallocs head nodes before resume rest op nodes' stop pnode result inserted)
    {address : Nat} {node : Node} (found : Store.get nodes address = some node) :
    keyAt nodes' address = keyAt nodes address ∧
      (address ≠ stop → valAt nodes' address = valAt nodes address) := by
  obtain ⟨node', found', key, val, _⟩ := done.stays address node found
  rw [keyAt_found found, keyAt_found found', valAt_found found, valAt_found found']
  exact ⟨key, val⟩

theorem backed (done : Traversed mallocs head nodes before resume rest op nodes' stop pnode result inserted)
    (old : Backed head nodes (before ++ ⟨resume, none⟩ :: rest) known) :
    Backed head nodes'
      (before ++ ⟨resume, none⟩ :: (lastingPassed nodes op.key rest ++ inserted ++ past nodes op.key rest))
      (inserted.map DataCell.node ++ known) := by
  have stays : ∀ address ∈ known, ∃ node node', Store.get nodes address = some node ∧
      Store.get nodes' address = some node' ∧ node'.key = node.key ∧
      (address ≠ stop → node'.val = node.val) ∧
      (node'.prev = node.prev ∨ ∃ cell ∈ inserted, node'.prev = cell.node ∧ op.key < node.key) := by
    intro address isKnown
    obtain ⟨node, found⟩ := old.stored address isKnown
    obtain ⟨node', facts⟩ := done.stays address node found
    exact ⟨node, node', found, facts⟩
  have sameKey : ∀ address ∈ known, keyAt nodes' address = keyAt nodes address := by
    intro address isKnown
    obtain ⟨node, found⟩ := old.stored address isKnown
    exact (done.keyVal found).1
  have stopKnown : stop ∈ known := old.listed _ done.stop_mem
  refine ⟨?_, ?_, ?_, ?_, ?_⟩
  · intro cell member
    rcases listed_origin member with inOld | new
    · exact List.mem_append_right _ (old.listed cell inOld)
    · exact List.mem_append_left _ (List.mem_map_of_mem new)
  · intro address isKnown
    rcases List.mem_append.mp isKnown with new | isKnown
    · obtain ⟨cell, member, rfl⟩ := List.mem_map.mp new
      exact done.list.nonzero (node_mem_addresses (by simp [member]))
    · exact old.nonzero address isKnown
  · intro address isKnown
    rcases List.mem_append.mp isKnown with new | isKnown
    · obtain ⟨cell, member, rfl⟩ := List.mem_map.mp new
      obtain ⟨_, _, next, foundNew⟩ := done.fresh cell member
      exact ⟨_, foundNew⟩
    · obtain ⟨_, node', _, found', _⟩ := stays address isKnown
      exact ⟨node', found'⟩
  · intro address isKnown other
    rcases List.mem_append.mp isKnown with new | isKnown
    · obtain ⟨cell, member, rfl⟩ := List.mem_map.mp new
      obtain ⟨_, _, next, foundNew⟩ := done.fresh cell member
      have differs : op.key ≠ keyAt nodes stop := by
        have effect := done.effect
        generalize valAt nodes' stop = left at effect
        cases effect with
        | links new _ differs => exact differs
        | _ => exact absurd member List.not_mem_nil
      have above : keyAt nodes stop < op.key := Nat.lt_of_le_of_ne done.stopNotPast differs.symm
      rw [prevAt_found foundNew, keyAt_found foundNew, sameKey stop stopKnown]
      exact ⟨List.mem_append_right _ stopKnown, above⟩
    · obtain ⟨node, node', found, found', key, _, prev⟩ := stays address isKnown
      obtain ⟨prevKnown, smaller⟩ := old.prevs address isKnown other
      rw [prevAt_found found] at prevKnown smaller
      rw [prevAt_found found', sameKey address isKnown]
      rcases prev with same | ⟨cell, member, isNew, beyondKey⟩
      · rw [same, sameKey _ prevKnown]
        exact ⟨List.mem_append_right _ prevKnown, smaller⟩
      · obtain ⟨_, _, next, foundNew⟩ := done.fresh cell member
        rw [isNew, keyAt_found foundNew, keyAt_found found]
        exact ⟨List.mem_append_left _ (List.mem_map_of_mem member), beyondKey⟩
  · intro address isKnown live
    rcases List.mem_append.mp isKnown with new | isKnown
    · obtain ⟨cell, member, rfl⟩ := List.mem_map.mp new
      obtain ⟨unmarked, _⟩ := done.fresh cell member
      have isCell : cell = ⟨cell.node, none⟩ := by rw [← unmarked]
      rw [← isCell]
      simp [member]
    · by_cases isStop : address = stop
      · subst isStop
        exact stays_listed done.stop_mem done.stopLive
      · obtain ⟨node, node', found, found', _, sameVal, _⟩ := stays address isKnown
        rw [valAt_found found', sameVal isStop, ← valAt_found found] at live
        exact stays_listed (old.linked address isKnown live) live

end Traversed

end Traversal

theorem RemovableList.backed {head : Nat} {nodes : Nodes} {cells : List DataCell}
    (list : RemovableList head nodes cells) (prevs : ∀ cell ∈ cells, cell.node ≠ head →
      ∃ earlier ∈ cells, prevAt nodes cell.node = earlier.node ∧
        keyAt nodes earlier.node < keyAt nodes cell.node) :
    Backed head nodes cells (cells.map DataCell.node) := by
  refine ⟨fun cell member => List.mem_map_of_mem member, ?_, ?_, ?_, ?_⟩
  · intro address member
    obtain ⟨cell, inCells, rfl⟩ := List.mem_map.mp member
    exact list.nonzero (node_mem_addresses inCells)
  · intro address member
    obtain ⟨cell, inCells, rfl⟩ := List.mem_map.mp member
    exact list.stored (node_mem_addresses inCells)
  · intro address member other
    obtain ⟨cell, inCells, rfl⟩ := List.mem_map.mp member
    obtain ⟨earlier, inside, prev, smaller⟩ := prevs cell inCells other
    rw [prev]
    exact ⟨List.mem_map_of_mem inside, smaller⟩
  · intro address member live
    obtain ⟨cell, inCells, rfl⟩ := List.mem_map.mp member
    rw [← list.unmarked inCells live]
    exact inCells

/-- A traversal of any such list ends with the answer of the set. Between the node it resumes from and the
first one beyond the key that is not removable, the removable ones are gone; all else is linked as it
was, but for the node of an insert. -/
theorem traversal_removes_what_it_passes (mallocs : Mallocs) {head : Nat} {nodes : Nodes}
    {cells : List DataCell} {entry : DataCell} {op : Operation} (list : RemovableList head nodes cells)
    (prevs : ∀ cell ∈ cells, cell.node ≠ head → ∃ earlier ∈ cells,
      prevAt nodes cell.node = earlier.node ∧ keyAt nodes earlier.node < keyAt nodes cell.node)
    (listed : entry ∈ cells) (notPast : keyAt nodes entry.node ≤ op.key) (positive : 1 ≤ op.key) :
    ∃ before resume rest nodes' state' inserted, cells = before ++ ⟨resume, none⟩ :: rest ∧
      WalksBack nodes entry.node resume ∧ valAt nodes resume ≠ resume ∧
      (∃ enough, ∀ fuel ≥ enough, traverseUndisturbed mallocs fuel nodes
        (slTraverseData entry.node op) = some (nodes', state')) ∧
      state'.pc = .returned (keySet.apply op (keysHeld nodes cells)).2 ∧
      RemovableList head nodes'
        (before ++ ⟨resume, none⟩ :: (lastingPassed nodes op.key rest ++ inserted ++ past nodes op.key rest)) ∧
      (∀ cell ∈ cells, keyAt nodes' cell.node = keyAt nodes cell.node) ∧
      (inserted = [] ∨ ∃ new, inserted = [⟨new, none⟩] ∧ op.optype = .insert ∧
        Store.get nodes new = none ∧ keyAt nodes' new = op.key) := by
  obtain ⟨before, resume, rest, nodes', f', result, inserted, rfl, back, live, reaches, done⟩ :=
    slTraverseData_traversed mallocs list (list.backed prevs) (List.mem_map_of_mem listed) notPast positive
  have answer := done.result_eq list
  obtain ⟨enough, ends⟩ := reaches.returns rfl
  refine ⟨before, resume, rest, nodes', ⟨.returned result, f'⟩, inserted, rfl, back, live,
    ⟨enough, ends⟩, congrArg Pc.returned answer.symm, done.list, ?_, ?_⟩
  · intro cell member
    obtain ⟨node, found⟩ := list.stored (node_mem_addresses member)
    obtain ⟨node', found', sameKey, _⟩ := done.stays cell.node node found
    rw [keyAt_found found, keyAt_found found', sameKey]
  · have effect := done.effect
    have fresh := done.fresh
    generalize valAt nodes' f'.node = left at effect
    cases effect with
    | links new isInsert _ =>
        obtain ⟨_, free, next, foundNew⟩ := fresh ⟨new, none⟩ (List.mem_singleton_self _)
        exact .inr ⟨new, rfl, isInsert, free, keyAt_found foundNew⟩
    | _ => exact .inl rfl

def bumpMallocs : Mallocs where
  block nodes := ⟨(nodes.map Prod.fst).sum + 1, ⟨0, 0, 0, 0, 0⟩⟩
  nonzero _ := Nat.succ_ne_zero _
  free nodes := by
    by_contra taken
    obtain ⟨node, found⟩ := Option.ne_none_iff_exists'.mp taken
    exact Nat.not_succ_le_self _
      (List.single_le_sum (fun _ _ => Nat.zero_le _) _ (Store.mem_of_get found))

def staleCells : List DataCell := [⟨100, none⟩, ⟨101, none⟩, ⟨102, none⟩, ⟨103, some 203⟩, ⟨105, none⟩]

def staleNodes : Nodes :=
  [(100, ⟨0, 101, 0, 0, 0⟩), (101, ⟨100, 102, 1, 1, 0⟩), (102, ⟨101, 103, 102, 2, 0⟩),
    (103, ⟨102, 203, 103, 3, 0⟩), (203, ⟨103, 105, 203, 0, 0⟩), (105, ⟨103, 0, 5, 5, 0⟩)]

theorem staleCells_removed : ∃ before resume rest nodes' state' inserted,
    staleCells = before ++ ⟨resume, none⟩ :: rest ∧
    WalksBack staleNodes 103 resume ∧ valAt staleNodes resume ≠ resume ∧
    (∃ enough, ∀ fuel ≥ enough, traverseUndisturbed bumpMallocs fuel staleNodes
      (slTraverseData 103 ⟨.insert, 4, 4⟩) = some (nodes', state')) ∧
    state'.pc = .returned 1 ∧
    RemovableList 100 nodes'
      (before ++ ⟨resume, none⟩ :: (lastingPassed staleNodes 4 rest ++ inserted ++ past staleNodes 4 rest)) ∧
    (∀ cell ∈ staleCells, keyAt nodes' cell.node = keyAt staleNodes cell.node) ∧
    (inserted = [] ∨ ∃ new, inserted = [⟨new, none⟩] ∧ OpType.insert = .insert ∧
      Store.get staleNodes new = none ∧ keyAt nodes' new = 4) := by
  have chain : Chain (nextOf staleNodes) 100 (addresses staleCells) :=
    ⟨rfl, by decide, 101, rfl, rfl, by decide, 102, rfl, rfl, by decide, 103, rfl, rfl, by decide, 203, rfl,
      rfl, by decide, 105, rfl, rfl, by decide, 0, rfl, rfl⟩
  have list : RemovableList 100 staleNodes staleCells :=
    ⟨chain, by decide, by decide, by decide, by decide, by decide, by decide⟩
  have listed : (⟨103, some 203⟩ : DataCell) ∈ staleCells := by decide
  have notPast : keyAt staleNodes 103 ≤ (⟨.insert, 4, 4⟩ : Operation).key := by decide
  exact traversal_removes_what_it_passes bumpMallocs list (by decide) listed notPast (by decide)

end Hosk
