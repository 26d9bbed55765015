import Hosk.RemovableList
import Hosk.UndisturbedRun

/-!
`sl_traverse_data` over a list with removable nodes: back from the entry to a node that is not
removable, onward past the key with each removable node on the way taken out, then the operation.
-/

namespace Hosk

section Segments

variable {mallocs : Mallocs} {nodes : Nodes} {f : Frame} {node after marker : Node}

theorem Reaches.walkBack (found : Store.get nodes f.node = some node) (own : node.val = f.node) :
    Reaches mallocs (nodes, ⟨.readVal, f⟩)
      (nodes, ⟨.readVal, { f with nodeVal := node.val, node := node.prev }⟩) := by
  refine .step (show _ = some (nodes, ⟨.readPrev, { f with nodeVal := node.val }⟩) from ?_)
    (.step (show _ = some (nodes, _) from ?_) (.refl _))
  · simp [dataStep, found, own]
  · simp [dataStep, found]

theorem Reaches.look (found : Store.get nodes f.node = some node) (live : node.val ≠ f.node) :
    Reaches mallocs (nodes, ⟨.readVal, f⟩)
      (nodes, ⟨if node.next ≠ 0 then .readNextVal else finishPc f.op.optype,
        { f with nodeVal := node.val, next := node.next }⟩) := by
  refine .step (show _ = some (nodes, ⟨.readNext, { f with nodeVal := node.val }⟩) from ?_)
    (.step (show _ = some (nodes, _) from ?_) (.refl _))
  · simp [dataStep, found, Ne.symm live]
  · simp [dataStep, found]

theorem Reaches.compare (found : Store.get nodes f.next = some after) (live : after.val ≠ f.next) :
    Reaches mallocs (nodes, ⟨.readNextVal, f⟩)
      (nodes, if f.op.key < after.key then ⟨finishPc f.op.optype, { f with nextVal := after.val }⟩
        else ⟨.readVal, { f with nextVal := after.val, node := f.next }⟩) := by
  refine .step (show _ = some (nodes, ⟨.readNextKey, { f with nextVal := after.val }⟩) from ?_)
    (.step (show _ = some (nodes, _) from ?_) (.refl _))
  · simp [dataStep, found, live]
  · by_cases above : f.op.key < after.key <;> simp [dataStep, found, above]

theorem Reaches.enterRemove (found : Store.get nodes f.next = some after) (own : after.val = f.next)
    (positive : after.key ≠ 0) :
    Reaches mallocs (nodes, ⟨.readNextVal, f⟩)
      (nodes, ⟨.removeTest, { f with nextVal := after.val, ptr := after.next }⟩) := by
  refine .step (show _ = some (nodes, ⟨.removeVal, { f with nextVal := after.val }⟩) from ?_)
    (.step (show _ = some (nodes, ⟨.removeKey, { f with nextVal := after.val }⟩) from ?_)
      (.step (show _ = some (nodes, ⟨.removeNext, { f with nextVal := after.val }⟩) from ?_)
        (.step (show _ = some (nodes, _) from ?_) (.refl _))))
  · simp [dataStep, found, own]
  · simp [dataStep, found, own]
  · simp [dataStep, found, positive]
  · simp [dataStep, found]

theorem Reaches.build (stages : NewPc → Pc) (final : Pc) (address : Nat) (content block : Node)
    (calls : ∀ memory stage, stage ≠ .malloc → dataStep (mallocs.block memory) memory ⟨stages stage, f⟩ =
      (newStep memory address content stage).map fun stored => (stored.1, ⟨stored.2.elim final stages, f⟩)) :
    Reaches mallocs (Store.set nodes address block, ⟨stages .key, f⟩)
      (Store.set nodes address content, ⟨final, f⟩) := by
  obtain ⟨prev, next, val, key, level⟩ := block
  refine .step (show _ = some (Store.set nodes address ⟨prev, next, val, content.key, level⟩,
      ⟨stages .val, f⟩) from ?_)
    (.step (show _ = some (Store.set nodes address ⟨prev, next, content.val, content.key, level⟩,
        ⟨stages .prev, f⟩) from ?_)
      (.step (show _ = some (Store.set nodes address ⟨content.prev, next, content.val, content.key, level⟩,
          ⟨stages .next, f⟩) from ?_)
        (.step (show _ = some (Store.set nodes address
            ⟨content.prev, content.next, content.val, content.key, level⟩, ⟨stages .level, f⟩) from ?_)
          (.step (show _ = some (_, _) from ?_) (.refl _)))))
  all_goals
    rw [calls _ _ (by simp)]
    simp [newStep, Store.set_set]

theorem Reaches.putMarker (found : Store.get nodes f.next = some after) (same : after.next = f.ptr)
    (unmarked : f.ptr = 0 ∨ ∃ ptr, Store.get nodes f.ptr = some ptr ∧ ptr.key ≠ 0) {address : Nat}
    (given : (mallocs.block nodes).address = address) :
    Reaches mallocs (nodes, ⟨.removeTest, f⟩)
      (Store.set (Store.set nodes address ⟨f.next, after.next, address, 0, 0⟩) f.next
        { after with next := address },
        ⟨.removeTest, { f with marker := address, ptr := address }⟩) := by
  have free := mallocs.free nodes
  rw [given] at free
  have apart : address ≠ f.next := by
    rintro rfl
    exact absurd (free.symm.trans found) (Option.some_ne_none after).symm
  let g : Frame := { f with marker := address }
  have begins : dataStep (mallocs.block nodes) nodes ⟨.removeTest, f⟩ =
      some (nodes, ⟨.newMarker .malloc, f⟩) := by
    rcases unmarked with isNull | ⟨ptr, foundPtr, positive⟩
    · simp [dataStep, isNull]
    · by_cases isNull : f.ptr = 0
      · simp [dataStep, isNull]
      · simp [dataStep, isNull, foundPtr, positive]
  have allocates : dataStep (mallocs.block nodes) nodes ⟨.newMarker .malloc, f⟩ =
      some (Store.set nodes g.marker (mallocs.block nodes).content, ⟨.newMarker .key, g⟩) := by
    simp [dataStep, given, g]
  refine .step begins (.step allocates (Reaches.trans
    (.build .newMarker .markerVal g.marker ⟨g.next, g.ptr, 0, 0, 0⟩ _ ?_) ?_))
  · intro memory stage started
    cases stage with
    | malloc => exact absurd rfl started
    | _ => simp [dataStep, Option.map_eq_bind]
  refine .step (show _ = some (Store.set nodes address ⟨f.next, after.next, address, 0, 0⟩,
      ⟨.markerCas, g⟩) from ?_)
    (.step (show _ = some (Store.set (Store.set nodes address ⟨f.next, after.next, address, 0, 0⟩) f.next
        { after with next := address }, ⟨.reloadNext, g⟩) from ?_)
      (.step (show _ = some (_, _) from ?_) (.refl _)))
  · simp [dataStep, g, Store.set_set, same]
  · simp [dataStep, g, Store.get_set_other _ apart, found, same]
  · simp [dataStep, g]

theorem Reaches.takeOut (found : Store.get nodes f.node = some node) (before : node.next = f.next)
    (sentinel : node.key = 0 → node.prev = 0) (nonzero : f.ptr ≠ 0)
    (foundMarker : Store.get nodes f.ptr = some marker) (isMarker : marker.key = 0) :
    Reaches mallocs (nodes, ⟨.removeTest, f⟩)
      (Store.set nodes f.node { node with next := marker.next }, ⟨.readVal, f⟩) := by
  have decides : Reaches mallocs (nodes, ⟨.prevKey, f⟩) (nodes, ⟨.ptrNext, f⟩) := by
    by_cases isZero : node.key = 0
    · refine .step (show _ = some (nodes, ⟨.prevPrev, f⟩) from ?_)
        (.step (show _ = some (nodes, _) from ?_) (.refl _))
      · simp [dataStep, found, isZero]
      · simp [dataStep, found, sentinel isZero]
    · refine .step (show _ = some (nodes, _) from ?_) (.refl _)
      simp [dataStep, found, isZero]
  refine .step (show _ = some (nodes, ⟨.prevNext, f⟩) from ?_)
    (.step (show _ = some (nodes, ⟨.prevKey, f⟩) from ?_) (decides.trans
      (.step (show _ = some (nodes, ⟨.removeCas marker.next, f⟩) from ?_)
        (.step (show _ = some (_, _) from ?_) (.refl _)))))
  · simp [dataStep, nonzero, foundMarker, isMarker]
  · simp [dataStep, found, before]
  · simp [dataStep, foundMarker]
  · simp [dataStep, found, before]

end Segments

structure AtRemoval (head : Nat) (nodes : Nodes) (f : Frame) (before : List DataCell) (cell : DataCell)
    (after : List DataCell) : Prop where
  list : RemovableList head nodes (before ++ ⟨f.node, none⟩ :: cell :: after)
  next : f.next = cell.node
  own : valAt nodes cell.node = cell.node
  ptr : nextOf nodes cell.node = some f.ptr

namespace AtRemoval

variable {head : Nat} {nodes : Nodes} {f : Frame} {before after : List DataCell}

theorem takesOut (mallocs : Mallocs) {address marker : Nat}
    (stands : AtRemoval head nodes f before ⟨address, some marker⟩ after) :
    ∃ nodes', Reaches mallocs (nodes, ⟨.removeTest, f⟩) (nodes', ⟨.readVal, f⟩) ∧ Kept nodes nodes' ∧
      RemovableList head nodes' (before ++ ⟨f.node, none⟩ :: after) := by
  have list := stands.list
  have inside : ⟨f.node, none⟩ ∈ before ++ ⟨f.node, none⟩ :: ⟨address, some marker⟩ :: after := by simp
  have markedInside : (⟨address, some marker⟩ : DataCell) ∈
      before ++ ⟨f.node, none⟩ :: ⟨address, some marker⟩ :: after := by simp
  obtain ⟨node, found⟩ := list.stored (node_mem_addresses inside)
  have nextIs : node.next = f.next := (list.next_stored found).trans stands.next.symm
  have sentinel : node.key = 0 → node.prev = 0 := by
    intro isZero
    have same := list.same_cell inside list.headListed (by rw [keyAt_found found, isZero, list.headKey])
    have isHead : f.node = head := congrArg DataCell.node same
    rw [← prevAt_found found, isHead, list.headPrev]
  have ptrIs : f.ptr = marker := by
    have chain := list.chain
    rw [show addresses (before ++ ⟨f.node, none⟩ :: ⟨address, some marker⟩ :: after) =
      (addresses before ++ [f.node]) ++ address :: marker :: addresses after by
        simp [DataCell.addresses]] at chain
    exact Option.some.inj (stands.ptr.symm.trans chain.next_eq)
  obtain ⟨_, isZero, _, _⟩ := list.markers _ markedInside marker rfl
  have inList := marker_mem_addresses markedInside rfl
  obtain ⟨markerNode, foundMarker⟩ := list.stored inList
  refine ⟨_, .takeOut found nextIs sentinel ?_ ?_ ?_, Kept.relink found markerNode.next,
    list.unlink found foundMarker⟩
  · rw [ptrIs]
    exact list.nonzero inList
  · rw [ptrIs]
    exact foundMarker
  · rw [← keyAt_found foundMarker, isZero]

theorem marks (mallocs : Mallocs) {address : Nat}
    (stands : AtRemoval head nodes f before ⟨address, none⟩ after) :
    ∃ nodes' marker, Reaches mallocs (nodes, ⟨.removeTest, f⟩)
        (nodes', ⟨.removeTest, { f with marker := marker, ptr := marker }⟩) ∧ Kept nodes nodes' ∧
      AtRemoval head nodes' { f with marker := marker, ptr := marker } before ⟨address, some marker⟩
        after := by
  have nextIs : f.next = address := stands.next
  have list := stands.list
  rw [List.append_cons] at list
  have inside : (⟨address, none⟩ : DataCell) ∈ before ++ [⟨f.node, none⟩] ++ ⟨address, none⟩ :: after := by
    simp
  obtain ⟨removed, found⟩ := list.stored (node_mem_addresses inside)
  have own : removed.val = address := (valAt_found found).symm.trans stands.own
  have ptrIs : removed.next = f.ptr := Option.some.inj ((nextOf_found found).symm.trans stands.ptr)
  have unmarked : f.ptr = 0 ∨ ∃ ptr, Store.get nodes f.ptr = some ptr ∧ ptr.key ≠ 0 := by
    rw [← ptrIs, list.next_stored found]
    cases after with
    | nil => exact .inl rfl
    | cons second later =>
        have sorted := list.sorted
        rw [List.map_append, List.pairwise_append, List.map_cons, List.pairwise_cons] at sorted
        have larger := sorted.2.1.1 second.node (by simp)
        obtain ⟨ptr, foundPtr⟩ := list.stored (node_mem_addresses (by simp : second ∈ _))
        rw [keyAt_found foundPtr] at larger
        exact .inr ⟨ptr, foundPtr, Nat.ne_zero_of_lt larger⟩
  obtain ⟨marker, given⟩ : ∃ marker, (mallocs.block nodes).address = marker := ⟨_, rfl⟩
  have nonzero := mallocs.nonzero nodes
  have free := mallocs.free nodes
  rw [given] at nonzero free
  obtain ⟨nodes', stored⟩ : ∃ nodes', Store.set (Store.set nodes marker
      ⟨f.next, removed.next, marker, 0, 0⟩) f.next { removed with next := marker } = nodes' := ⟨_, rfl⟩
  have puts : Reaches mallocs _ _ := Reaches.putMarker (nextIs.symm ▸ found) ptrIs unmarked given
  rw [stored] at puts
  rw [nextIs] at stored
  obtain ⟨kept, _, _⟩ := list.insertBehind ⟨address, removed.next, marker, 0, 0⟩ found nonzero free rfl
    stored
  have marked := list.mark found own nonzero free stored
  rw [← List.append_cons] at marked
  refine ⟨nodes', marker, puts, kept, marked, nextIs, (kept.valAt_eq found).trans stands.own, ?_⟩
  rw [← stored, nextOf_set_same]

end AtRemoval

structure StandsAt (head : Nat) (nodes : Nodes) (f : Frame) (before after : List DataCell) : Prop where
  list : RemovableList head nodes (before ++ ⟨f.node, none⟩ :: after)
  live : valAt nodes f.node ≠ f.node
  notPast : keyAt nodes f.node ≤ f.op.key
  val : f.nodeVal = valAt nodes f.node
  next : f.next = firstCell after
  ahead : ∀ cell ∈ after, f.op.key < keyAt nodes cell.node

namespace RemovableList

variable {head : Nat} {nodes : Nodes} {f : Frame} {before after : List DataCell} {cell : DataCell}

theorem removes (mallocs : Mallocs)
    (list : RemovableList head nodes (before ++ ⟨f.node, none⟩ :: cell :: after))
    (live : valAt nodes f.node ≠ f.node) (own : valAt nodes cell.node = cell.node) :
    ∃ nodes' f', Reaches mallocs (nodes, ⟨.readVal, f⟩) (nodes', ⟨.readVal, f'⟩) ∧ f'.op = f.op ∧
      f'.node = f.node ∧ Kept nodes nodes' ∧
      RemovableList head nodes' (before ++ ⟨f.node, none⟩ :: after) := by
  have inside : cell ∈ before ++ ⟨f.node, none⟩ :: cell :: after := by simp
  obtain ⟨node, found⟩ := list.stored (node_mem_addresses (by simp : (⟨f.node, none⟩ : DataCell) ∈ _))
  obtain ⟨removed, foundNext⟩ := list.stored (node_mem_addresses inside)
  have nextIs : node.next = cell.node := list.next_stored found
  have removedKey : removed.key ≠ 0 := by
    have sorted := list.sorted
    rw [List.map_append, List.pairwise_append, List.map_cons, List.pairwise_cons] at sorted
    have larger := sorted.2.1.1 cell.node (by simp)
    rw [keyAt_found foundNext] at larger
    exact Nat.ne_zero_of_lt larger
  let g : Frame := { f with nodeVal := node.val, next := cell.node, nextVal := removed.val,
                            ptr := removed.next }
  have enters : Reaches mallocs (nodes, ⟨.readVal, f⟩) (nodes, ⟨.removeTest, g⟩) := by
    have looks : Reaches mallocs _ _ := Reaches.look found (valAt_found found ▸ live)
    rw [nextIs, if_pos (list.nonzero (node_mem_addresses inside))] at looks
    exact looks.trans (.enterRemove foundNext (valAt_found foundNext ▸ own) removedKey)
  have stands : AtRemoval head nodes g before cell after := ⟨list, rfl, own, nextOf_found foundNext⟩
  obtain ⟨address, mark⟩ := cell
  cases mark with
  | some marker =>
      obtain ⟨nodes', ends, kept, shorter⟩ := stands.takesOut mallocs
      exact ⟨nodes', g, enters.trans ends, rfl, rfl, kept, shorter⟩
  | none =>
      obtain ⟨nodes₁, marker, marks, kept, marked⟩ := stands.marks mallocs
      obtain ⟨nodes', ends, kept', shorter⟩ := marked.takesOut mallocs
      exact ⟨nodes', _, enters.trans (marks.trans ends), rfl, rfl, kept.trans kept', shorter⟩

/-- The traversal goes past the node: it is removable or not beyond the key. -/
def passes (nodes : Nodes) (key : Nat) (cell : DataCell) : Bool :=
  valAt nodes cell.node = cell.node || keyAt nodes cell.node ≤ key

def lasting (nodes : Nodes) (cell : DataCell) : Bool := valAt nodes cell.node ≠ cell.node

def lastingPassed (nodes : Nodes) (key : Nat) (cells : List DataCell) : List DataCell :=
  (cells.takeWhile (passes nodes key)).filter (lasting nodes)

def past (nodes : Nodes) (key : Nat) (cells : List DataCell) : List DataCell :=
  cells.dropWhile (passes nodes key)

theorem travels (mallocs : Mallocs) (start : Nodes) (rest : List DataCell)
    (stored : ∀ cell ∈ rest, ∃ node, Store.get start cell.node = some node) : ∀ before nodes f,
    Kept start nodes → RemovableList head nodes (before ++ ⟨f.node, none⟩ :: rest) →
    valAt nodes f.node ≠ f.node → keyAt nodes f.node ≤ f.op.key →
    ∃ nodes' f' before', Reaches mallocs (nodes, ⟨.readVal, f⟩) (nodes', ⟨finishPc f.op.optype, f'⟩) ∧
      f'.op = f.op ∧ Kept nodes nodes' ∧
      ((∀ cell ∈ rest, valAt start cell.node ≠ cell.node) → nodes' = nodes) ∧
      before' ++ [⟨f'.node, none⟩] = before ++ ⟨f.node, none⟩ :: lastingPassed start f.op.key rest ∧
      StandsAt head nodes' f' before' (past start f.op.key rest) := by
  induction rest with
  | nil =>
      intro before nodes f _ list live notPast
      obtain ⟨node, found⟩ := list.stored (node_mem_addresses (List.mem_append_right _ List.mem_cons_self))
      have next : node.next = 0 := list.next_stored found
      have looks : Reaches mallocs _ _ := Reaches.look found (valAt_found found ▸ live)
      rw [next, if_neg (by simp)] at looks
      exact ⟨nodes, _, before, looks, rfl, Kept.refl nodes, fun _ => rfl, rfl, list, live, notPast,
        (valAt_found found).symm, rfl, fun _ member => absurd member List.not_mem_nil⟩
  | cons cell rest ih =>
      intro before nodes f kept list live notPast
      obtain ⟨first, foundFirst⟩ := stored cell List.mem_cons_self
      have sameVal := kept.valAt_eq foundFirst
      have sameKey := kept.keyAt_eq foundFirst
      have ih := ih fun cell member => stored cell (List.mem_cons_of_mem _ member)
      by_cases own : valAt start cell.node = cell.node
      · obtain ⟨nodes₁, f₁, removes, sameOp, sameNode, kept₁, list₁⟩ :=
          list.removes mallocs live (sameVal.trans own)
        obtain ⟨node, found⟩ :=
          list.stored (node_mem_addresses (List.mem_append_right _ List.mem_cons_self))
        rw [← sameNode] at list₁
        obtain ⟨nodes', f', before', travels, sameOp', kept', _, split, stands⟩ := ih before nodes₁ f₁
          (kept.trans kept₁) list₁
          (by rw [sameNode, kept₁.valAt_eq found]; exact live)
          (by rw [sameNode, sameOp, kept₁.keyAt_eq found]; exact notPast)
        have goesPast : passes start f.op.key cell = true := by simp [passes, own]
        have removable : lasting start cell = false := by simp [lasting, own]
        rw [sameOp] at travels split stands
        rw [sameNode] at split
        refine ⟨nodes', f', before', removes.trans travels, sameOp'.trans sameOp, kept₁.trans kept',
          fun allLive => absurd own (allLive cell List.mem_cons_self), ?_, ?_⟩
        · rw [split, lastingPassed, lastingPassed, List.takeWhile_cons_of_pos goesPast,
            List.filter_cons_of_neg (by simp [removable])]
        · rw [past, List.dropWhile_cons_of_pos goesPast]
          exact stands
      · have liveCell : valAt nodes cell.node ≠ cell.node := sameVal ▸ own
        have isCell := list.unmarked (by simp) liveCell
        obtain ⟨node, found⟩ :=
          list.stored (node_mem_addresses (List.mem_append_right _ List.mem_cons_self))
        have nextIs : node.next = cell.node := list.next_stored found
        have inside : cell ∈ before ++ ⟨f.node, none⟩ :: cell :: rest := by simp
        have nonzero : cell.node ≠ 0 := list.nonzero (node_mem_addresses inside)
        obtain ⟨next, foundNext⟩ := list.stored (node_mem_addresses inside)
        let g : Frame := { f with nodeVal := node.val, next := cell.node, nextVal := next.val }
        have looks : Reaches mallocs _ _ := Reaches.look found (valAt_found found ▸ live)
        rw [nextIs, if_pos nonzero] at looks
        have compares := looks.trans (.compare foundNext (valAt_found foundNext ▸ liveCell))
        have nextKey : next.key = keyAt start cell.node := by rw [← sameKey, keyAt_found foundNext]
        by_cases near : keyAt start cell.node ≤ f.op.key
        · have goesPast : passes start f.op.key cell = true := by simp [passes, near]
          have stays : lasting start cell = true := by simp [lasting, own]
          rw [if_neg (by simpa only [nextKey, Nat.not_lt] using near)] at compares
          rw [isCell, List.append_cons] at list
          obtain ⟨nodes', f', before', travels, sameOp', kept', untouched, split, stands⟩ := ih
            (before ++ [⟨f.node, none⟩]) nodes { g with node := cell.node } kept list liveCell
            (sameKey ▸ near)
          refine ⟨nodes', f', before', compares.trans travels, sameOp', kept',
            fun allLive => untouched fun cell member => allLive cell (List.mem_cons_of_mem _ member), ?_, ?_⟩
          · rw [split, lastingPassed, lastingPassed, List.takeWhile_cons_of_pos goesPast,
              List.filter_cons_of_pos stays, isCell, ← List.append_cons]
          · rw [past, List.dropWhile_cons_of_pos goesPast]
            exact stands
        · have stops : passes start f.op.key cell = false := by simp [passes, near, own]
          have stopsHere : ¬ passes start f.op.key cell = true := by simp [stops]
          rw [if_pos (by simpa only [nextKey, Nat.not_le] using near)] at compares
          refine ⟨nodes, g, before, compares, rfl, Kept.refl nodes, fun _ => rfl, ?_, ?_⟩
          · rw [lastingPassed, List.takeWhile_cons_of_neg stopsHere]
            rfl
          · rw [past, List.dropWhile_cons_of_neg stopsHere]
            refine ⟨list, live, notPast, (valAt_found found).symm, rfl, ?_⟩
            have sorted := list.sorted
            rw [List.map_append, List.pairwise_append, List.map_cons, List.pairwise_cons, List.map_cons,
              List.pairwise_cons] at sorted
            have beyondKey : f.op.key < keyAt nodes cell.node := sameKey ▸ Nat.lt_of_not_le near
            intro other member
            rcases List.mem_cons.mp member with rfl | later
            · exact beyondKey
            · exact Nat.lt_trans beyondKey (sorted.2.1.2.1 other.node (List.mem_map_of_mem later))

theorem walksBack (mallocs : Mallocs) {cells : List DataCell} {known : List Nat}
    (list : RemovableList head nodes cells) (backed : Backed head nodes cells known) (bound : Nat) :
    ∀ f, f.node ∈ known → keyAt nodes f.node ≤ bound →
    ∃ f', Reaches mallocs (nodes, ⟨.readVal, f⟩) (nodes, ⟨.readVal, f'⟩) ∧ f'.op = f.op ∧
      WalksBack nodes f.node f'.node ∧ valAt nodes f'.node ≠ f'.node ∧ ⟨f'.node, none⟩ ∈ cells ∧
      keyAt nodes f'.node ≤ keyAt nodes f.node := by
  induction bound with
  | zero =>
      intro f inKnown isZero
      have isHead : f.node = head := by
        by_contra other
        have smaller := (backed.prevs f.node inKnown other).2
        omega
      refine ⟨f, .refl _, rfl, Relation.ReflTransGen.refl, ?_, ?_, Nat.le_refl _⟩
      · exact isHead ▸ list.head_live
      · exact isHead ▸ list.headListed
  | succ bound ih =>
      intro f inKnown atMost
      by_cases own : valAt nodes f.node = f.node
      · have other : f.node ≠ head := fun isHead => list.head_live (isHead ▸ own)
        obtain ⟨prevKnown, smaller⟩ := backed.prevs f.node inKnown other
        obtain ⟨node, found⟩ := backed.stored f.node inKnown
        have prevIs := prevAt_found found
        rw [prevIs] at prevKnown smaller
        obtain ⟨f', walks, sameOp, back, isLive, listed, earlier⟩ := ih
          { f with nodeVal := node.val, node := node.prev } prevKnown
          (Nat.le_of_lt_succ (Nat.lt_of_lt_of_le smaller atMost))
        refine ⟨f', (Reaches.walkBack found (valAt_found found ▸ own)).trans walks, sameOp, ?_, isLive,
          listed, Nat.le_trans earlier (Nat.le_of_lt smaller)⟩
        exact Relation.ReflTransGen.head ⟨own, prevIs.symm⟩ back
      · exact ⟨f, .refl _, rfl, Relation.ReflTransGen.refl, own, backed.linked f.node inKnown own,
          Nat.le_refl _⟩

end RemovableList

end Hosk
