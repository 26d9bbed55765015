import Hosk.RemovingTraversal

/-! What the operation itself does to a list with removable nodes, once the traversal has stopped. -/

namespace Hosk

/-- By the key and the value of the node where the traversal stopped: the value that is left there, the
result, and the node that is linked behind it. -/
inductive Effect (op : Operation) (key val : Nat) : Nat → Nat → List DataCell → Prop where
  | found : op.optype = .contains → op.key = key ∧ val ≠ 0 → Effect op key val val 1 []
  | missing : op.optype = .contains → ¬ (op.key = key ∧ val ≠ 0) → Effect op key val val 0 []
  | deletes : op.optype = .delete → op.key = key ∧ val ≠ 0 → Effect op key val 0 1 []
  | absent : op.optype = .delete → ¬ (op.key = key ∧ val ≠ 0) → Effect op key val val 0 []
  | present : op.optype = .insert → op.key = key ∧ val ≠ 0 → Effect op key val val 0 []
  | restores : op.optype = .insert → op.key = key → val = 0 → Effect op key val op.val 1 []
  | links (new : Nat) : op.optype = .insert → op.key ≠ key → Effect op key val val 1 [⟨new, none⟩]

structure Finished (mallocs : Mallocs) (head : Nat) (nodes : Nodes) (f : Frame) (before after : List DataCell)
    (nodes' : Nodes) (f' : Frame) (result : Nat) (inserted : List DataCell) : Prop where
  list : RemovableList head nodes' (before ++ ⟨f.node, none⟩ :: (inserted ++ after))
  effect : Effect f.op (keyAt nodes f.node) (valAt nodes f.node) (valAt nodes' f.node) result inserted
  stays : ∀ address node, Store.get nodes address = some node →
    ∃ node', Store.get nodes' address = some node' ∧ node'.key = node.key ∧
      (address ≠ f.node → node'.val = node.val) ∧
      (node'.prev = node.prev ∨ ∃ cell ∈ inserted, node'.prev = cell.node ∧ f.op.key < node.key)
  fresh : ∀ cell ∈ inserted, cell.node = (mallocs.block nodes).address ∧ cell.marker = none ∧
    ∃ next, Store.get nodes' cell.node = some ⟨f.node, next, f.op.val, f.op.key, 0⟩
  published : f.op.optype = .insert → result = 1 →
    f'.pnode = (inserted.map DataCell.node).headD f.node

namespace StandsAt

variable {mallocs : Mallocs} {head : Nat} {nodes : Nodes} {f : Frame} {before after : List DataCell}

theorem found (stands : StandsAt head nodes f before after) :
    ∃ node, Store.get nodes f.node = some node :=
  stands.list.stored (node_mem_addresses (List.mem_append_right _ List.mem_cons_self))

theorem unchanged (stands : StandsAt head nodes f before after) {f' : Frame} {result : Nat}
    (effect : Effect f.op (keyAt nodes f.node) (valAt nodes f.node) (valAt nodes f.node) result [])
    (none : ¬ (f.op.optype = .insert ∧ result = 1)) :
    Finished mallocs head nodes f before after nodes f' result [] :=
  ⟨stands.list, effect, fun _ node stored => ⟨node, stored, rfl, fun _ => rfl, .inl rfl⟩,
    fun _ wrong => absurd wrong List.not_mem_nil, fun inserts one => absurd ⟨inserts, one⟩ none⟩

theorem revalued (stands : StandsAt head nodes f before after) {node : Node} {f' : Frame} {val : Nat}
    (stored : Store.get nodes f.node = some node) (sameKey : f.op.key = node.key)
    (positive : 1 ≤ f.op.key)
    (effect : Effect f.op (keyAt nodes f.node) (valAt nodes f.node) val 1 [])
    (published : f.op.optype = .insert → f'.pnode = f.node) :
    Finished mallocs head nodes f before after (Store.set nodes f.node { node with val := val }) f' 1 [] := by
  refine ⟨stands.list.rewritten stored (by omega) rfl rfl (.inr (by simp)), ?_, ?_,
    fun _ wrong => absurd wrong List.not_mem_nil, fun inserts _ => published inserts⟩
  · rw [ListOk.valAt_set, if_pos rfl]
    exact effect
  · intro address old foundOld
    by_cases same : f.node = address
    · subst same
      obtain rfl := Option.some.inj (stored.symm.trans foundOld)
      exact ⟨_, Store.get_set_same _ _ _, rfl, fun apart => absurd rfl apart, .inl rfl⟩
    · exact ⟨old, (Store.get_set_other _ same).trans foundOld, rfl, fun _ => rfl, .inl rfl⟩

theorem contains (stands : StandsAt head nodes f before after) (isContains : f.op.optype = .contains) :
    ∃ nodes' f' result inserted, Reaches mallocs (nodes, ⟨.containsKey, f⟩)
      (nodes', ⟨.returned result, f'⟩) ∧ f'.op = f.op ∧ f'.node = f.node ∧
      Finished mallocs head nodes f before after nodes' f' result inserted := by
  obtain ⟨node, stored⟩ := stands.found
  have val : f.nodeVal = node.val := stands.val.trans (valAt_found stored)
  have notInsert : ∀ result : Nat, ¬ (f.op.optype = .insert ∧ result = 1) := by simp [isContains]
  by_cases holds : f.op.key = node.key ∧ node.val ≠ 0
  · refine ⟨nodes, f, 1, [], .step (show _ = some (_, _) from ?_) (.refl _), rfl, rfl,
      stands.unchanged (.found isContains ?_) (notInsert _)⟩
    · simp [dataStep, stored, val, holds]
    · rw [keyAt_found stored, valAt_found stored]
      exact holds
  · refine ⟨nodes, f, 0, [], .step (show _ = some (_, _) from ?_) (.refl _), rfl, rfl,
      stands.unchanged (.missing isContains ?_) (notInsert _)⟩
    · simp only [dataStep, stored, val, Option.bind_eq_bind, Option.bind_some, if_neg holds]
    · rw [keyAt_found stored, valAt_found stored]
      exact holds

theorem delete (stands : StandsAt head nodes f before after) (isDelete : f.op.optype = .delete)
    (positive : 1 ≤ f.op.key) :
    ∃ nodes' f' result inserted, Reaches mallocs (nodes, ⟨.deleteKey, f⟩)
      (nodes', ⟨.returned result, f'⟩) ∧ f'.op = f.op ∧ f'.node = f.node ∧
      Finished mallocs head nodes f before after nodes' f' result inserted := by
  obtain ⟨node, stored⟩ := stands.found
  have val : f.nodeVal = node.val := stands.val.trans (valAt_found stored)
  have notOwn : node.val ≠ f.node := valAt_found stored ▸ stands.live
  have notInsert : ∀ result : Nat, ¬ (f.op.optype = .insert ∧ result = 1) := by simp [isDelete]
  by_cases holds : f.op.key = node.key ∧ node.val ≠ 0
  · refine ⟨_, { f with nodeVal := node.val }, 1, [],
      .step (show _ = some (nodes, ⟨.deleteVal, f⟩) from ?_)
      (.step (show _ = some (nodes, ⟨.deleteCas, { f with nodeVal := node.val }⟩) from ?_)
        (.step (show _ = some (Store.set nodes f.node { node with val := 0 }, _) from ?_) (.refl _))),
      rfl, rfl, stands.revalued stored holds.1 positive (.deletes isDelete ?_) (by simp [isDelete])⟩
    · simp [dataStep, stored, val, holds.1, holds.2]
    · simp [dataStep, stored, holds.2, notOwn.symm]
    · simp [dataStep, stored]
    · rw [keyAt_found stored, valAt_found stored]
      exact holds
  · refine ⟨nodes, f, 0, [], .step (show _ = some (_, _) from ?_) (.refl _), rfl, rfl,
      stands.unchanged (.absent isDelete ?_) (notInsert _)⟩
    · by_cases same : node.key = f.op.key
      · have isNull : node.val = 0 := by
          by_contra value
          exact holds ⟨same.symm, value⟩
        simp [dataStep, stored, val, isNull]
      · simp [dataStep, stored, same]
    · rw [keyAt_found stored, valAt_found stored]
      exact holds

theorem links (mallocs : Mallocs) (stands : StandsAt head nodes f before after)
    (isInsert : f.op.optype = .insert) (other : f.op.key ≠ keyAt nodes f.node) :
    ∃ nodes' f' result inserted, Reaches mallocs (nodes, ⟨.newNode .malloc, f⟩)
      (nodes', ⟨.returned result, f'⟩) ∧ f'.op = f.op ∧ f'.node = f.node ∧
      Finished mallocs head nodes f before after nodes' f' result inserted := by
  obtain ⟨node, stored⟩ := stands.found
  obtain ⟨new, given⟩ : ∃ new, (mallocs.block nodes).address = new := ⟨_, rfl⟩
  have nonzero := mallocs.nonzero nodes
  have free := mallocs.free nodes
  rw [given] at nonzero free
  have apart : ∀ {address : Nat} {old : Node}, Store.get nodes address = some old → new ≠ address := by
    rintro address old found rfl
    exact absurd (free.symm.trans found) (Option.some_ne_none old).symm
  let content : Node := ⟨f.node, f.next, f.op.val, f.op.key, 0⟩
  let g : Frame := { f with newNode := new }
  have nextIs : node.next = f.next := (stands.list.next_stored stored).trans stands.next.symm
  obtain ⟨linked, isLinked⟩ : ∃ linked, Store.set (Store.set nodes new content) f.node
      { node with next := new } = linked := ⟨_, rfl⟩
  have above : node.key < f.op.key := by
    have notPast := stands.notPast
    rw [keyAt_found stored] at notPast other
    omega
  have foundNew : Store.get linked new = some content := by
    rw [← isLinked, Store.get_set_other _ (apart stored).symm, Store.get_set_same]
  have list : RemovableList head linked (before ++ ⟨f.node, none⟩ :: ⟨new, none⟩ :: after) :=
    stands.list.link stored nonzero free nextIs.symm above stands.ahead isLinked
  have kept : Kept nodes linked := by
    have foundStill : Store.get (Store.set nodes new content) f.node = some node :=
      (Store.get_set_other _ (apart stored)).trans stored
    rw [← isLinked]
    exact (Kept.add free content).trans (Kept.relink foundStill new)
  have effect : Effect f.op (keyAt nodes f.node) (valAt nodes f.node) (valAt linked f.node) 1
      [⟨new, none⟩] := by
    rw [kept.valAt_eq stored]
    exact .links new isInsert other
  have allocates : dataStep (mallocs.block nodes) nodes ⟨.newNode .malloc, f⟩ =
      some (Store.set nodes g.newNode (mallocs.block nodes).content, ⟨.newNode .key, g⟩) := by
    simp [dataStep, given, g]
  have builds : Reaches mallocs (nodes, ⟨.newNode .malloc, f⟩)
      (Store.set nodes new content, ⟨.insertCasNext, g⟩) := by
    refine .step allocates (.build .newNode .insertCasNext g.newNode content _ ?_)
    intro memory stage started
    cases stage with
    | malloc => exact absurd rfl started
    | _ => simp [dataStep, Option.map_eq_bind, g, content]
  have found : Store.get (Store.set nodes new content) f.node = some node :=
    (Store.get_set_other _ (apart stored)).trans stored
  by_cases last : f.next = 0
  · refine ⟨linked, { g with pnode := new }, 1, [⟨new, none⟩], builds.trans (.step
      (show _ = some (linked, _) from ?_) (.refl _)), rfl, rfl, list, effect, ?_, ?_, fun _ _ => rfl⟩
    · simp [dataStep, g, found, nextIs, last, ← isLinked]
    · intro address old foundOld
      obtain ⟨next, foundNow⟩ := kept address old foundOld
      exact ⟨_, foundNow, rfl, fun _ => rfl, .inl rfl⟩
    · intro cell member
      obtain rfl := List.mem_singleton.mp member
      exact ⟨given.symm, rfl, f.next, foundNew⟩
  · obtain ⟨second, later, rfl⟩ : ∃ second later, after = second :: later := by
      cases after with
      | nil => exact absurd stands.next last
      | cons second later => exact ⟨second, later, rfl⟩
    have isSecond : f.next = second.node := stands.next
    have inside : second ∈ before ++ ⟨f.node, none⟩ :: second :: later := by simp
    obtain ⟨behind, foundBehind⟩ := stands.list.stored (node_mem_addresses inside)
    have beyondKey := stands.ahead second List.mem_cons_self
    rw [keyAt_found foundBehind] at beyondKey
    obtain ⟨next, foundLinked⟩ := kept second.node behind foundBehind
    let changed : Node := { behind with next := next, prev := new }
    have apartStop : second.node ≠ f.node := by
      intro same
      rw [same] at foundBehind
      obtain rfl := Option.some.inj (stored.symm.trans foundBehind)
      omega
    refine ⟨Store.set linked second.node changed, { g with pnode := new }, 1, [⟨new, none⟩],
      builds.trans (.step (show _ = some (linked, ⟨.storePrev, g⟩) from ?_)
        (.step (show _ = some (_, _) from ?_) (.refl _))), rfl, rfl, ?_, ?_, ?_, ?_, fun _ _ => rfl⟩
    · simp [dataStep, g, found, nextIs, last, ← isLinked]
    · simp [dataStep, g, isSecond, foundLinked, changed]
    · exact list.rewritten foundLinked (Nat.ne_zero_of_lt beyondKey) rfl rfl (.inl rfl)
    · rw [ListOk.valAt_set, if_neg apartStop]
      exact effect
    · intro address old foundOld
      obtain ⟨onward, foundNow⟩ := kept address old foundOld
      by_cases same : second.node = address
      · subst same
        obtain rfl := Option.some.inj (foundBehind.symm.trans foundOld)
        exact ⟨changed, Store.get_set_same _ _ _, rfl, fun _ => rfl,
          .inr ⟨⟨new, none⟩, List.mem_singleton_self _, rfl, beyondKey⟩⟩
      · exact ⟨_, (Store.get_set_other _ same).trans foundNow, rfl, fun _ => rfl, .inl rfl⟩
    · intro cell member
      obtain rfl := List.mem_singleton.mp member
      exact ⟨given.symm, rfl, f.next, (Store.get_set_other _ (apart foundBehind).symm).trans foundNew⟩

theorem insert (stands : StandsAt head nodes f before after) (isInsert : f.op.optype = .insert)
    (positive : 1 ≤ f.op.key) :
    ∃ nodes' f' result inserted, Reaches mallocs (nodes, ⟨.insertKey, f⟩)
      (nodes', ⟨.returned result, f'⟩) ∧ f'.op = f.op ∧ f'.node = f.node ∧
      Finished mallocs head nodes f before after nodes' f' result inserted := by
  obtain ⟨node, stored⟩ := stands.found
  have val : f.nodeVal = node.val := stands.val.trans (valAt_found stored)
  by_cases same : f.op.key = node.key
  · by_cases isNull : node.val = 0
    · refine ⟨_, { f with pnode := f.node }, 1, [],
        .step (show _ = some (nodes, ⟨.insertCasVal, f⟩) from ?_)
        (.step (show _ = some (Store.set nodes f.node { node with val := f.op.val }, _) from ?_) (.refl _)),
        rfl, rfl, stands.revalued stored same positive (.restores isInsert ?_ ?_) fun _ => rfl⟩
      · simp [dataStep, stored, same, val, isNull]
      · simp [dataStep, stored, val]
      · rw [keyAt_found stored, same]
      · rw [valAt_found stored, isNull]
    · refine ⟨nodes, f, 0, [], .step (show _ = some (_, _) from ?_) (.refl _), rfl, rfl,
        stands.unchanged (.present isInsert ?_) (by simp)⟩
      · simp [dataStep, stored, same, val, isNull]
      · rw [keyAt_found stored, valAt_found stored]
        exact ⟨same, isNull⟩
  · obtain ⟨nodes', f', result, inserted, ends, finished⟩ :=
      stands.links mallocs isInsert (by rw [keyAt_found stored]; exact same)
    refine ⟨nodes', f', result, inserted, .step (show _ = some (nodes, _) from ?_) ends, finished⟩
    simp [dataStep, stored, Ne.symm same]

theorem finishes (mallocs : Mallocs) (stands : StandsAt head nodes f before after)
    (positive : 1 ≤ f.op.key) :
    ∃ nodes' f' result inserted, Reaches mallocs (nodes, ⟨finishPc f.op.optype, f⟩)
      (nodes', ⟨.returned result, f'⟩) ∧ f'.op = f.op ∧ f'.node = f.node ∧
      Finished mallocs head nodes f before after nodes' f' result inserted := by
  cases kind : f.op.optype with
  | contains => exact stands.contains kind
  | delete => exact stands.delete kind positive
  | insert => exact stands.insert kind positive

end StandsAt

end Hosk
