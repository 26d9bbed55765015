import Hosk.IndexLower

/-! `reset_index`, `update_index_layer`, and the first state of an enclave. -/

namespace Hosk

def Entry.atGround (entry : Entry) : Entry := { entry with level := 0 }

def groundAll (list : List (Nat × Entry)) : List (Nat × Entry) :=
  list.map fun p => (p.1, p.2.atGround)

theorem Enclave.setNodeLevel_returns (e : Enclave) {address : Nat} (level : Nat) {node : Node}
    (found : Store.get e.nodes address = some node) : ∃ nodes,
      e.setNodeLevel address level = some { e with nodes := nodes } ∧ LevelsOnly e.nodes nodes := by
  refine ⟨_, ?_, LevelsOnly.set found level⟩
  rw [Enclave.setNodeLevel, found]
  rfl

theorem clearLevelsLoop_returns {base height : Nat} (rest : List (Nat × Entry)) :
    ∀ fuel (e : Enclave) node done,
      Intermed e.mnodes e.nodes base height ((base, ⟨0, node, height, false⟩) :: done ++ rest) →
      rest.length < fuel → ∃ mnodes nodes,
        Enclave.clearLevelsLoop fuel e (firstOf rest) =
          some { e with mnodes := mnodes, nodes := nodes } ∧
        LevelsOnly e.nodes nodes ∧
        Intermed mnodes nodes base height
          ((base, ⟨0, node, height, false⟩) :: done ++ groundAll rest) ∧
        ∀ address mnode, Store.get mnodes address = some mnode →
          (∃ entry, (address, entry) ∈ rest) ∨ e.mnode address = some mnode := by
  induction rest with
  | nil =>
      intro fuel e node done intermed bound
      obtain ⟨fuel, rfl⟩ := Nat.exists_eq_succ_of_ne_zero (Nat.ne_of_gt bound)
      refine ⟨e.mnodes, e.nodes, ?_, LevelsOnly.refl _, intermed, fun _ _ => .inr⟩
      rw [firstOf_nil, Enclave.clearLevelsLoop, if_pos rfl]
  | cons p rest ih =>
      intro fuel e node done intermed bound
      obtain ⟨fuel, rfl⟩ := Nat.exists_eq_succ_of_ne_zero (Nat.ne_of_gt (Nat.zero_lt_of_lt bound))
      have listed : p ∈ (base, ⟨0, node, height, false⟩) :: done ++ p :: rest := by simp
      have stored : e.mnode p.1 = some (p.2.at (firstOf rest)) := intermed.at_split rfl
      obtain ⟨dataNode, nodeFound, _⟩ := intermed.nodes p listed
      obtain ⟨nodes, nodeLevel, levels⟩ := e.setNodeLevel_returns 0 nodeFound
      let cleared : Enclave :=
        ({ e with nodes := nodes } : Enclave).setMnode p.1 (p.2.atGround.at (firstOf rest))
      have sameKey : p.2.atGround.key = p.2.key := rfl
      have sameNode : p.2.atGround.node = p.2.node := rfl
      have rewritten : Intermed cleared.mnodes cleared.nodes base height
          ((base, ⟨0, node, height, false⟩) :: done ++ (p.1, p.2.atGround) :: rest) :=
        (intermed.rewrite rfl sameKey sameNode ⟨node, _, rfl⟩).congr (fun _ _ => rfl) levels.keys
      obtain ⟨mnodes, nodes', loop, levels', final, unlisted⟩ := ih fuel cleared node
        (done ++ [(p.1, p.2.atGround)]) (by simpa using rewritten) (by simpa using bound)
      refine ⟨mnodes, nodes', ?_, levels.trans levels', by simpa [groundAll] using final, ?_⟩
      case refine_2 =>
        intro address mnode isStored
        rcases unlisted address mnode isStored with ⟨entry, inRest⟩ | earlier
        · exact .inl ⟨entry, List.mem_cons_of_mem _ inRest⟩
        · by_cases here : p.1 = address
          · exact .inl ⟨p.2, here ▸ List.mem_cons_self⟩
          · exact .inr ((Store.get_set_other _ here).symm.trans earlier)
      have again : ({ e with nodes := nodes } : Enclave).mnode p.1 = some (p.2.at (firstOf rest)) :=
        stored
      rw [firstOf_cons, Enclave.clearLevelsLoop, if_neg (intermed.nonzero listed), stored]
      simp only [Option.bind_eq_bind, Option.bind_some, Entry.at, nodeLevel]
      rw [Enclave.setLevel, again]
      exact loop

def singleRow (base : Nat) (mnodes : List (Nat × Entry)) (sentinel : Nat) : Layout where
  base := base
  mnodes := mnodes
  rows := [[(sentinel, 0)]]
  lowest := 0
  good := fun address => address = sentinel
  rank := fun _ => 0

theorem singleRow_grid {inodes : Store Inode} {base sentinel : Nat} {mnodes : List (Nat × Entry)}
    (stored : Store.get inodes sentinel = some ⟨0, 0, base, 0⟩) (nonzero : sentinel ≠ 0)
    (isOver : Over mnodes base 0 1) : Grid inodes sentinel (singleRow base mnodes sentinel) := by
  have only : ∀ (i : Nat) row, (singleRow base mnodes sentinel).rows[i]? = some row →
      i = 0 ∧ row = [(sentinel, 0)] := by
    intro i row located
    cases i with
    | zero => exact ⟨rfl, (Option.some.inj located).symm⟩
    | succ i => exact absurd located (by simp [singleRow])
  refine ⟨?_, ?_, ?_, ?_, ?_, ?_, ⟨[(sentinel, 0)], rfl, rfl⟩, ?_⟩
  · intro i row located
    obtain ⟨_, rfl⟩ := only i row located
    exact ⟨rfl, nonzero, 0, rightAt_found stored, rfl⟩
  · intro row member
    rw [List.mem_singleton.mp member]
    exact ⟨sentinel, [], rfl⟩
  · intro row member
    rw [List.mem_singleton.mp member]
    exact List.pairwise_singleton _ _
  · intro i row p located member
    obtain ⟨rfl, rfl⟩ := only i row located
    obtain rfl := List.mem_singleton.mp member
    exact ⟨rfl, rfl, _, stored, rfl, isOver⟩
  · intro row p located member
    obtain ⟨_, rfl⟩ := only 0 row located
    obtain rfl := List.mem_singleton.mp member
    exact downAt_found stored
  · intro i low high p q _ locatedHigh
    exact absurd (only (i + 1) high locatedHigh).1 (Nat.succ_ne_zero i)
  · rintro address rfl
    exact ⟨_, stored, isOver, fun wrong => absurd rfl wrong, fun wrong => absurd rfl wrong⟩

namespace Repr

variable {e : Enclave} {l : Layout} {platform : Platform}

theorem resetIndex_refines (honest : platform.Honest) (repr : Repr e l) : ∃ e' l',
    e.resetIndex platform = some e' ∧ LevelsOnly e.nodes e'.nodes ∧ Repr e' l' ∧
      Keeps (fun _ => False) l.mnodes e l e' l' ∧ abs e' l' = (abs e l).reset := by
  obtain ⟨_, inode, _, _, _, found, _, isBase⟩ := repr.sentinel
  obtain ⟨node, rest, split, stored⟩ := repr.base_stored
  have listed : (l.base, (⟨0, node, l.rows.length, false⟩ : Entry)) ∈ l.mnodes := by simp [split]
  obtain ⟨dataNode, nodeFound, _⟩ := repr.intermed.nodes _ listed
  obtain ⟨nodes, nodeLevel, levels⟩ := e.setNodeLevel_returns 1 nodeFound
  let lowered : Enclave :=
    ({ e with nodes := nodes } : Enclave).setMnode l.base ⟨firstOf rest, node, 0, 1, false⟩
  have rewritten : Intermed lowered.mnodes lowered.nodes l.base 1
      ((l.base, ⟨0, node, 1, false⟩) :: [] ++ rest) := by
    let entry : Entry := ⟨0, node, 1, false⟩
    have sameKey : entry.key = 0 := rfl
    have sameNode : entry.node = node := rfl
    exact (repr.intermed.rewrite
      (show l.mnodes = [] ++ (l.base, ⟨0, node, l.rows.length, false⟩) :: rest from split)
      sameKey sameNode ⟨node, rest, rfl⟩).congr (fun _ _ => rfl) levels.keys
  have size := rewritten.length_le
  obtain ⟨mnodes, nodes', cleared, levels', grounded, unlisted⟩ :=
    clearLevelsLoop_returns rest (lowered.mnodes.length + 1) lowered node [] rewritten
      (by simpa using Nat.lt_succ_of_lt size)
  let flat : Enclave := { lowered with mnodes := mnodes, nodes := nodes' }
  obtain ⟨freshNonzero, freshNotLive⟩ := honest.places flat
  let list : List (Nat × Entry) := (l.base, ⟨0, node, 1, false⟩) :: groundAll rest
  have inList : ∀ p ∈ list, ∃ q ∈ l.mnodes, p.1 = q.1 := by
    intro p member
    rcases List.mem_cons.mp member with rfl | inRest
    · exact ⟨_, listed, rfl⟩
    · obtain ⟨q, inOld, rfl⟩ := List.mem_map.mp inRest
      exact ⟨q, by simp [split, inOld], rfl⟩
  have notListed : ∀ p ∈ list, platform.place flat ≠ p.1 := by
    intro p member same
    obtain ⟨q, inOld, equal⟩ := inList p member
    exact freshNotLive (same.trans equal ▸ repr.liveMnodes q inOld)
  have baseStored : flat.mnode l.base = some ⟨firstOf (groundAll rest), node, 0, 1, false⟩ :=
    grounded.at_split
      (show _ = [] ++ (l.base, (⟨0, node, 1, false⟩ : Entry)) :: groundAll rest from rfl)
  let final : Enclave := { flat with
    inodes := Store.set flat.inodes (platform.place flat) ⟨0, 0, l.base, 0⟩
    mnodes := Store.erase flat.mnodes (platform.place flat)
    trace := .inodeNew (platform.place flat) false :: flat.trace
    sentinel := platform.place flat }
  have levelsOnly : LevelsOnly e.nodes final.nodes := levels.trans levels'
  have stillListed : ∀ p ∈ l.mnodes, ∃ entry, (p.1, entry) ∈ list ∧ entry.key = p.2.key ∧
      entry.node = p.2.node := by
    intro p member
    rw [split] at member
    rcases List.mem_cons.mp member with rfl | inRest
    · exact ⟨_, List.mem_cons_self, rfl, rfl⟩
    · exact ⟨p.2.atGround, List.mem_cons_of_mem _ (List.mem_map.mpr ⟨p, inRest, rfl⟩), rfl, rfl⟩
  refine ⟨final, singleRow l.base list (platform.place flat), ?_, levelsOnly,
    ⟨?_, ?_, ?_, ?_, ?_, ?_⟩, ⟨rfl, fun _ => False.elim, fun _ _ => False.elim, ?_⟩, ?_⟩
  · have levelSet : ({ e with nodes := nodes } : Enclave).setLevel l.base 1 = some lowered := by
      rw [Enclave.setLevel, show ({ e with nodes := nodes } : Enclave).mnode l.base = _ from stored]
      rfl
    rw [Enclave.resetIndex, found]
    simp only [Option.bind_eq_bind, Option.bind_some, isBase, stored, nodeLevel, levelSet, cleared]
    rw [Enclave.inodeNew, show Enclave.mnode { lowered with mnodes := mnodes, nodes := nodes' } l.base = _
      from baseStored]
    rfl
  · exact grounded.congr (fun p member => Store.get_erase_other (notListed p member))
      fun address node found => ⟨node, found, rfl⟩
  · exact singleRow_grid (Store.get_set_same _ _ _) freshNonzero
      ⟨_, List.mem_cons_self, rfl, Nat.le_refl 1⟩
  · intro p member
    obtain ⟨q, inOld, same⟩ := inList p member
    exact List.mem_cons_of_mem _ (same ▸ repr.liveMnodes q inOld)
  · rintro address rfl
    exact List.mem_cons_self
  · intro p member
    obtain ⟨q, inOld, same⟩ := inList p member
    refine (Store.get_set_other _ (notListed p member)).trans ?_
    rw [same]
    exact repr.noInode q inOld
  · refine repr.strays_kept (fun p member => ?_) fun address mnode isStored => ?_
    · obtain ⟨entry, inNew, _⟩ := stillListed p member
      exact ⟨entry, inNew⟩
    · by_cases isFresh : platform.place flat = address
      · have gone : final.mnode address = none := isFresh ▸ Store.get_erase_same _ _
        exact absurd (gone.symm.trans isStored) (Option.some_ne_none mnode).symm
      · have inFlat := (Store.get_erase_other isFresh).symm.trans isStored
        rcases unlisted address mnode inFlat with ⟨entry, inRest⟩ | earlier
        · exact .inl ⟨entry.atGround,
            List.mem_cons_of_mem _ (List.mem_map.mpr ⟨(address, entry), inRest, rfl⟩)⟩
        by_cases here : l.base = address
        · exact .inl ⟨⟨0, node, 1, false⟩, here ▸ List.mem_cons_self⟩
        · exact .inr ⟨(Store.get_set_other _ here).symm.trans earlier,
            fun gone => List.mem_filter.mpr ⟨gone, decide_eq_true (Ne.symm isFresh)⟩,
            fun clear => (List.mem_filter.mp clear).1⟩
  · exact stillListed
  · rw [abs, Index.reset, abs, split]
    simp only [singleRow, list, List.tail_cons, groundAll, List.map_map]
    rfl

theorem lowers_eq (platform : Platform) (e : Enclave) (l : Layout) {inodes : List Nat}
    (heads : ∀ i, i < 2 → inodes[i]? = l.heads[i]?) :
    (Enclave.lowers platform inodes e = none ∧ (abs e l).lowers platform.int = false) ∨
      ∃ newLow, Enclave.lowers platform inodes e = some newLow ∧ l.heads[1]? = some newLow ∧
        (abs e l).lowers platform.int = true := by
  rw [Enclave.lowers, Index.lowers, rows_length, heads 1 (by omega), ← heads_length]
  by_cases tall : platform.int (e.nonDel * 10) < e.tallDel
  · rw [if_pos tall]
    cases second : l.heads[1]? with
    | none =>
        have narrow := List.getElem?_eq_none_iff.mp second
        exact .inl ⟨rfl, by simp; omega⟩
    | some newLow =>
        have wide := (List.getElem?_eq_some_iff.mp second).1
        exact .inr ⟨newLow, rfl, rfl, by simp [abs, tall]; omega⟩
  · rw [if_neg tall]
    exact .inl ⟨rfl, by simp [abs, Int.not_lt.mp tall]⟩

end Repr

/-- If this call of `update_index_layer` lowers the index, it drops the lowest row cleanly. -/
def Enclave.CleanPass (platform : Platform) (e : Enclave) : Prop :=
  ∀ inodes middle newLow, e.raiseIndexLayer platform = some (inodes, middle) →
    Enclave.lowers platform inodes middle = some newLow → middle.DropsCleanly newLow

/-- If it lowers the index, the row is away from these inodes. -/
def Enclave.PassesBy (platform : Platform) (held : List Nat) (e : Enclave) : Prop :=
  ∀ inodes middle newLow, e.raiseIndexLayer platform = some (inodes, middle) →
    Enclave.lowers platform inodes middle = some newLow → ∀ root ∈ held, middle.DropsAway newLow root

theorem Enclave.passesBy_nil (platform : Platform) (e : Enclave) : e.PassesBy platform [] :=
  fun _ _ _ _ _ _ isHeld => absurd isHeld List.not_mem_nil

namespace Repr

variable {e : Enclave} {l : Layout} {platform : Platform}

theorem updateIndexLayer_refines (honest : platform.Honest) (repr : Repr e l)
    (clean : e.CleanPass platform) {held : List Nat} (goods : ∀ root ∈ held, l.good root)
    (away : e.PassesBy platform held) : ∃ e' l',
      e.updateIndexLayer platform = some e' ∧ LevelsOnly e.nodes e'.nodes ∧ Repr e' l' ∧
      Keeps (· ∈ held) (l.mnodes.filter (·.2.stays)) e l e' l' ∧
      abs e' l' = (abs e l).updateIndexLayer platform.int := by
  obtain ⟨middle, l₁, inodes, raised, levels, repr₁, keeps₁, heads, abs₁⟩ :=
    repr.raiseIndexLayer_refines honest
  have kept := keeps₁.mono goods (List.Subset.refl _)
  rw [Enclave.updateIndexLayer, raised, Index.updateIndexLayer, ← abs₁]
  simp only [Option.bind_eq_bind, Option.bind_some]
  rcases lowers_eq platform middle l₁ heads with ⟨stays, notLower⟩ | ⟨newLow, drops, isHead, lower⟩
  · rw [stays, notLower]
    exact ⟨middle, l₁, rfl, levels, repr₁, kept, rfl⟩
  · have dropsAway : ∀ root ∈ middle.sentinel :: held, middle.DropsAway newLow root := by
      intro root isRoot
      rcases List.mem_cons.mp isRoot with rfl | isHeld
      · exact clean inodes middle newLow raised drops
      · exact away inodes middle newLow raised drops root isHeld
    obtain ⟨e', l', dropped, levels', repr', keeps', absEq⟩ := repr₁.bgLowerIlevel_refines honest
      isHead (fun root isHeld => (keeps₁.goods root (goods root isHeld)).1) dropsAway
    rw [drops, lower]
    exact ⟨e', l', dropped, levels.trans levels', repr', kept.trans keeps' fun _ => id, absEq⟩

end Repr

/-- What `thread_init` makes for an enclave: an mnode over the data sentinel, an inode over that. -/
def Enclave.threadInit (platform : Platform) (nodes : Nodes) (sentinel : Nat) : Option Enclave := do
  let bare : Enclave := ⟨[], [], nodes, 0, 0, 0, []⟩
  let (mnode, e) ← mnodeNew platform bare 0 sentinel 1
  let (inode, e) ← inodeNew platform e 0 0 mnode
  some { e with sentinel := inode }

def Index.initial : Index := ⟨[], [[]], 0, 0, 0⟩

theorem threadInit_refines {platform : Platform} (honest : platform.Honest) {nodes : Nodes}
    {sentinel : Nat} {node : Node} (found : Store.get nodes sentinel = some node) (key : node.key = 0) :
    ∃ e l, Enclave.threadInit platform nodes sentinel = some e ∧ e.nodes = nodes ∧ Repr e l ∧
      abs e l = Index.initial ∧ ∀ p ∈ l.mnodes, p.2.node = sentinel := by
  let bare : Enclave := ⟨[], [], nodes, 0, 0, 0, []⟩
  obtain ⟨mnodeNonzero, _⟩ := honest.places bare
  let under : Enclave := { bare with
    mnodes := [(platform.place bare, ⟨0, sentinel, node.key, 1, false⟩)]
    trace := [.mnodeNew (platform.place bare)] }
  obtain ⟨inodeNonzero, notLive⟩ := honest.places under
  have apart : platform.place under ≠ platform.place bare := by
    simpa [under, live] using notLive
  have underStored : under.mnode (platform.place bare) = some ⟨0, sentinel, 0, 1, false⟩ := by
    simp [under, Enclave.mnode, Store.get, key]
  let list : List (Nat × Entry) := [(platform.place bare, ⟨0, sentinel, 1, false⟩)]
  refine ⟨{ under with
    inodes := [(platform.place under, ⟨0, 0, platform.place bare, 0⟩)]
    mnodes := Store.erase under.mnodes (platform.place under)
    trace := [.inodeNew (platform.place under) false, .mnodeNew (platform.place bare)]
    sentinel := platform.place under },
    singleRow (platform.place bare) list (platform.place under), ?_, rfl, ⟨?_, ?_, ?_, ?_, ?_, ?_⟩, rfl,
    fun p member => by rw [List.mem_singleton.mp member]⟩
  · rw [Enclave.threadInit, Enclave.mnodeNew, found]
    simp only [Option.bind_eq_bind, Option.bind_some]
    rw [Enclave.inodeNew]
    change ((under.mnode (platform.place bare)).bind _).bind _ = _
    rw [underStored]
    rfl
  · have kept : Store.get (Store.erase under.mnodes (platform.place under)) (platform.place bare) =
        some ⟨0, sentinel, 0, 1, false⟩ := (Store.get_erase_other apart).trans underStored
    refine ⟨⟨rfl, mnodeNonzero, 0, nextAt_found kept, rfl⟩, ?_, ?_, List.pairwise_singleton _ _,
      sentinel, [], rfl⟩
    · intro p member
      rw [List.mem_singleton.mp member]
      exact ⟨0, kept⟩
    · intro p member
      rw [List.mem_singleton.mp member]
      exact ⟨node, found, key⟩
  · exact singleRow_grid (Store.get_set_same [] _ _) inodeNonzero
      ⟨_, List.mem_cons_self, rfl, Nat.le_refl 1⟩
  · intro p member
    rw [List.mem_singleton.mp member]
    simp [live]
  · rintro address rfl
    simp [live]
  · intro p member
    rw [List.mem_singleton.mp member]
    exact (Store.get_set_other _ apart).trans (Store.get_nil _)
  · intro address mnode isStored
    by_cases isSecond : platform.place under = address
    · have gone : Store.get (Store.erase under.mnodes (platform.place under)) address = none :=
        isSecond ▸ Store.get_erase_same _ _
      exact absurd (gone.symm.trans isStored) (Option.some_ne_none mnode).symm
    · have inUnder : Store.get under.mnodes address = some mnode :=
        (Store.get_erase_other isSecond).symm.trans isStored
      by_cases isFirst : platform.place bare = address
      · exact .inl ⟨⟨0, sentinel, 1, false⟩, isFirst ▸ List.mem_cons_self⟩
      · simp [under, Store.get, isFirst] at inUnder

end Hosk
