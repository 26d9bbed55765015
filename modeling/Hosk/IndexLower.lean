import Hosk.IndexPass

/-! `bg_lower_ilevel`: the second-lowest row detached from the lowest, which is then deleted. -/

namespace Hosk

def lowerKeys (keys : List Nat) (list : List (Nat × Entry)) : List (Nat × Entry) :=
  list.map fun p => if p.2.key ∈ keys then (p.1, { p.2 with level := p.2.level - 1 }) else p

theorem lowerKeys_nil (list : List (Nat × Entry)) : lowerKeys [] list = list := by
  simp [lowerKeys]

theorem mem_lowerKeys {keys : List Nat} {list : List (Nat × Entry)} {p : Nat × Entry}
    (member : p ∈ lowerKeys keys list) : ∃ q ∈ list, p.1 = q.1 ∧ p.2.key = q.2.key := by
  obtain ⟨q, inList, rfl⟩ := List.mem_map.mp member
  refine ⟨q, inList, ?_⟩
  split <;> exact ⟨rfl, rfl⟩

theorem Over.lowerKeys {list : List (Nat × Entry)} {mnode key level : Nat} (keys : List Nat)
    (isOver : Over list mnode key (level + 1)) : Over (lowerKeys keys list) mnode key level := by
  obtain ⟨entry, member, sameKey, enough⟩ := isOver
  by_cases listed : entry.key ∈ keys
  · refine ⟨{ entry with level := entry.level - 1 }, ?_, sameKey, Nat.le_sub_one_of_lt enough⟩
    exact List.mem_map.mpr ⟨(mnode, entry), member, if_pos listed⟩
  · refine ⟨entry, ?_, sameKey, Nat.le_of_succ_le enough⟩
    exact List.mem_map.mpr ⟨(mnode, entry), member, if_neg listed⟩

theorem Over.lowerKeys_other {list : List (Nat × Entry)} {mnode key level : Nat} {keys : List Nat}
    (isOver : Over list mnode key level) (other : key ∉ keys) :
    Over (Hosk.lowerKeys keys list) mnode key level := by
  obtain ⟨entry, member, rfl, enough⟩ := isOver
  exact ⟨entry, List.mem_map.mpr ⟨(mnode, entry), member, if_neg other⟩, rfl, enough⟩

theorem Intermed.withHeight {mnodes : Store Mnode} {nodes : Nodes} {base height height' node : Nat}
    {list rest : List (Nat × Entry)} (ok : Intermed mnodes nodes base height list)
    (first : list = (base, ⟨0, node, height', false⟩) :: rest) :
    Intermed mnodes nodes base height' list :=
  ⟨ok.chain, ok.holds, ok.nodes, ok.sorted, node, rest, first⟩

theorem Intermed.lowerKeys_cons {mnodes : Store Mnode} {nodes : Nodes} {base height : Nat}
    {list before after : List (Nat × Entry)} {p : Nat × Entry} {keys : List Nat}
    (ok : Intermed mnodes nodes base height list) (split : list = before ++ p :: after)
    (notAgain : p.2.key ∉ keys) :
    lowerKeys keys (before ++ (p.1, { p.2 with level := p.2.level - 1 }) :: after) =
      lowerKeys (p.2.key :: keys) list := by
  have sorted := ok.sorted
  rw [split, List.pairwise_append, List.pairwise_cons] at sorted
  have others : ∀ part : List (Nat × Entry), (∀ q ∈ part, q.2.key ≠ p.2.key) →
      lowerKeys keys part = lowerKeys (p.2.key :: keys) part := by
    intro part different
    apply List.map_congr_left
    intro q member
    simp [different q member]
  have first := others before fun q member =>
    Nat.ne_of_lt (sorted.2.2 q member p List.mem_cons_self)
  have last := others after fun q member => Nat.ne_of_gt (sorted.2.1.1 q member)
  rw [lowerKeys] at first last
  rw [split, lowerKeys, List.map_append, List.map_cons, first, last]
  simp [lowerKeys, notAgain]

namespace Enclave

theorem lowerNodeLevel_returns (e : Enclave) {address : Nat} {node : Node}
    (found : Store.get e.nodes address = some node) : ∃ nodes,
      (if 0 < node.level then e.setNodeLevel address (node.level - 1) else some e) =
        some { e with nodes := nodes } ∧ LevelsOnly e.nodes nodes := by
  by_cases positive : 0 < node.level
  · refine ⟨_, ?_, LevelsOnly.set found (node.level - 1)⟩
    rw [if_pos positive, Enclave.setNodeLevel, found]
    rfl
  · exact ⟨e.nodes, if_neg positive, LevelsOnly.refl _⟩

theorem detachLoop_returns {base : Nat} (cells : List (Nat × Nat)) : ∀ fuel (e : Enclave) list height,
    Intermed e.mnodes e.nodes base height list →
    Chain (rightAt e.inodes) (firstOf cells) (cells.map Prod.fst) → (cells.map Prod.snd).Nodup →
    (∀ p ∈ cells, ∃ inode, e.inode p.1 = some inode ∧ Over list inode.intermed p.2 1) →
    cells.length < fuel → ∃ inodes mnodes nodes height',
      detachLoop fuel e (firstOf cells) =
        some { e with inodes := inodes, mnodes := mnodes, nodes := nodes } ∧
      LevelsOnly e.nodes nodes ∧
      Intermed mnodes nodes base height' (lowerKeys (cells.map Prod.snd) list) ∧
      (∀ address mnode, Store.get mnodes address = some mnode →
        (∃ entry, (address, entry) ∈ list) ∨ e.mnode address = some mnode) ∧
      ∀ address, Store.get inodes address = (e.inode address).map fun inode =>
        if address ∈ cells.map Prod.fst then { inode with down := 0 } else inode := by
  induction cells with
  | nil =>
      intro fuel e list height intermed _ _ _ bound
      obtain ⟨fuel, rfl⟩ := Nat.exists_eq_succ_of_ne_zero (Nat.ne_of_gt bound)
      refine ⟨e.inodes, e.mnodes, e.nodes, height, ?_, LevelsOnly.refl _, ?_, fun _ _ => .inr, ?_⟩
      · rw [firstOf_nil, detachLoop, if_pos rfl]
      · rw [List.map_nil, lowerKeys_nil]
        exact intermed
      · intro address
        simp [Enclave.inode]
  | cons p rest ih =>
      intro fuel e list height intermed chain distinct isOver bound
      obtain ⟨fuel, rfl⟩ := Nat.exists_eq_succ_of_ne_zero (Nat.ne_of_gt (Nat.zero_lt_of_lt bound))
      have nodup := chain.nodup
      rw [List.map_cons, List.nodup_cons] at nodup distinct
      have nonzero : p.1 ≠ 0 := chain.ne_zero p.1 List.mem_cons_self
      obtain ⟨inode, found, entry, inList, sameKey, positive⟩ := isOver p List.mem_cons_self
      obtain ⟨before, after, split⟩ := List.append_of_mem inList
      have stored : e.mnode inode.intermed = some (entry.at (firstOf after)) :=
        intermed.at_split split
      obtain ⟨node, nodeFound, _⟩ := intermed.nodes _ inList
      obtain ⟨onward, later⟩ := onward_chain chain found
      let lowered : Entry := { entry with level := entry.level - 1 }
      have loweredKey : lowered.key = entry.key := rfl
      have loweredNode : lowered.node = entry.node := rfl
      let changed : Enclave := (e.setInode p.1 { inode with down := 0 }).setMnode inode.intermed
        (lowered.at (firstOf after))
      obtain ⟨nodes, nodeLevel, levels⟩ := changed.lowerNodeLevel_returns nodeFound
      have first : ∃ height' node others,
          before ++ (inode.intermed, lowered) :: after = (base, ⟨0, node, height', false⟩) :: others := by
        obtain ⟨sentinelNode, others, first⟩ := intermed.first
        rw [split] at first
        cases before with
        | nil =>
            obtain ⟨same, _⟩ := List.cons.inj first
            obtain ⟨sameBase, sameEntry⟩ := Prod.mk.inj same
            refine ⟨height - 1, sentinelNode, after, ?_⟩
            rw [sameBase, List.nil_append, show lowered = ⟨0, sentinelNode, height - 1, false⟩ by
              simp [lowered, sameEntry]]
        | cons head tail =>
            obtain ⟨same, _⟩ := List.cons.inj first
            exact ⟨height, sentinelNode, tail ++ (inode.intermed, lowered) :: after, by rw [same]; rfl⟩
      obtain ⟨height', first⟩ := first
      have rewritten : Intermed changed.mnodes nodes base height'
          (before ++ (inode.intermed, lowered) :: after) :=
        (intermed.rewrite split loweredKey loweredNode first).congr (fun _ _ => rfl) levels.keys
      have others : ∀ q ∈ rest, Store.get changed.inodes q.1 = e.inode q.1 := by
        intro q member
        apply Store.get_set_other
        intro same
        exact nodup.1 (same ▸ List.mem_map_of_mem member)
      obtain ⟨inodes, mnodes, nodes', height'', loop, levels', final, unlisted, downs⟩ :=
        ih fuel { changed with nodes := nodes } _ height' rewritten
          (by
            rw [← onward]
            refine later.congr fun address member => ?_
            obtain ⟨q, inRest, rfl⟩ := List.mem_map.mp member
            rw [rightAt, rightAt, others q inRest]
            rfl)
          distinct.2
          (by
            intro q member
            obtain ⟨below, belowFound, other, otherIn, otherKey, enough⟩ :=
              isOver q (List.mem_cons_of_mem _ member)
            refine ⟨below, (others q member).trans belowFound, other, ?_, otherKey, enough⟩
            rw [split, List.mem_append, List.mem_cons] at otherIn
            rcases otherIn with inBefore | same | inAfter
            · exact List.mem_append_left _ inBefore
            · obtain ⟨_, rfl⟩ := Prod.mk.inj same
              have again : p.2 ∈ rest.map Prod.snd := by
                rw [← sameKey, otherKey]
                exact List.mem_map_of_mem member
              exact absurd again distinct.1
            · exact List.mem_append_right _ (List.mem_cons_of_mem _ inAfter))
          (by simpa using bound)
      refine ⟨inodes, mnodes, nodes', height'', ?_, levels.trans levels', ?_, ?_, ?_⟩
      · have cleared : (e.setInode p.1 { inode with down := 0 }).inode p.1 =
            some { inode with down := 0 } := Store.get_set_same _ _ _
        have again : (e.setInode p.1 { inode with down := 0 }).mnode inode.intermed =
            some (entry.at (firstOf after)) := stored
        have levelSet : (e.setInode p.1 { inode with down := 0 }).setLevel inode.intermed
            (entry.level - 1) = some changed := by
          rw [setLevel, again]
          rfl
        have nodeAgain : Store.get changed.nodes entry.node = some node := nodeFound
        rw [firstOf_cons, detachLoop, if_neg nonzero, setDown, found]
        simp only [Option.bind_eq_bind, Option.bind_some, cleared, again, Entry.at,
          if_neg (Nat.ne_of_gt positive), levelSet, nodeAgain]
        rw [onward]
        by_cases lowers : 0 < node.level
        · rw [if_pos lowers] at nodeLevel ⊢
          rw [nodeLevel, Option.bind_some]
          exact loop
        · rw [if_neg lowers] at nodeLevel ⊢
          rw [Option.some.inj nodeLevel]
          exact loop
      · rw [List.map_cons, ← sameKey, ← intermed.lowerKeys_cons split (by rw [sameKey]; exact distinct.1)]
        exact final
      · intro address mnode isStored
        rcases unlisted address mnode isStored with ⟨other, member⟩ | earlier
        · rw [List.mem_append, List.mem_cons] at member
          rcases member with inBefore | same | inAfter
          · exact .inl ⟨other, by simp [split, inBefore]⟩
          · exact .inl ⟨entry, by simp [split, (Prod.mk.inj same).1]⟩
          · exact .inl ⟨other, by simp [split, inAfter]⟩
        · by_cases here : inode.intermed = address
          · exact .inl ⟨entry, here ▸ inList⟩
          · exact .inr ((Store.get_set_other _ here).symm.trans earlier)
      · intro address
        rw [downs]
        by_cases same : p.1 = address
        · subst same
          have here : changed.inode p.1 = some { inode with down := 0 } := Store.get_set_same _ _ _
          rw [show ({ changed with nodes := nodes } : Enclave).inode p.1 = _ from here, found]
          simp
        · have other : changed.inode address = e.inode address := Store.get_set_other _ same
          rw [show ({ changed with nodes := nodes } : Enclave).inode address = _ from other]
          have elsewhere : address ∈ (p :: rest).map Prod.fst ↔ address ∈ rest.map Prod.fst := by
            rw [List.map_cons, List.mem_cons, or_iff_right (Ne.symm same)]
          simp only [elsewhere]

theorem collectLoop_returns {platform : Platform} (honest : platform.Honest) (addresses : List Nat) :
    ∀ fuel (e : Enclave) start,
    Chain (rightAt e.inodes) start addresses → addresses.length < fuel → ∃ inodes trace,
      collectLoop platform fuel e start = some { e with inodes := inodes, trace := trace } ∧
      (∀ address, address ∉ addresses → Store.get inodes address = e.inode address) ∧
      (∀ address, address ∈ live trace ↔ address ∈ live e.trace ∧ address ∉ addresses) ∧
      (∀ address, address ∈ dead trace ↔ address ∈ addresses ∨ address ∈ dead e.trace) ∧
      (∀ address, address ∉ addresses → address ∈ cleared trace → address ∈ cleared e.trace) ∧
      trace.countP isUnlink = e.trace.countP isUnlink := by
  induction addresses with
  | nil =>
      intro fuel e start chain bound
      obtain ⟨fuel, rfl⟩ := Nat.exists_eq_succ_of_ne_zero (Nat.ne_of_gt bound)
      refine ⟨e.inodes, e.trace, ?_, fun _ _ => rfl, by simp, by simp, fun _ _ => id, rfl⟩
      rw [collectLoop, if_pos (show start = 0 from chain)]
  | cons head rest ih =>
      intro fuel e start chain bound
      obtain ⟨fuel, rfl⟩ := Nat.exists_eq_succ_of_ne_zero (Nat.ne_of_gt (Nat.zero_lt_of_lt bound))
      have nodup := chain.nodup
      rw [List.nodup_cons] at nodup
      obtain ⟨rfl, nonzero, successor, linked, later⟩ := chain
      obtain ⟨inode, found, rfl⟩ := Option.map_eq_some_iff.mp linked
      obtain ⟨inodes, zeroed, deletes, others⟩ := honest.inodeDelete_eq e start
      obtain ⟨inodes', trace, loop, kept, alive, gone, clear, unlinks⟩ :=
        ih fuel { e with inodes := inodes, trace := .inodeDelete start zeroed :: e.trace } inode.right
          (later.congr fun address member => by
            rw [rightAt, rightAt, others address fun same => nodup.1 (same ▸ member)]
            rfl)
          (by simpa using bound)
      refine ⟨inodes', trace, ?_, ?_, ?_, ?_, ?_, ?_⟩
      · rw [collectLoop, if_neg nonzero, show e.inode start = some inode from found]
        simp only [Option.bind_eq_bind, Option.bind_some, deletes]
        exact loop
      · intro address notIn
        rw [List.mem_cons, not_or] at notIn
        rw [kept address notIn.2]
        exact others address (Ne.symm notIn.1)
      · intro address
        rw [alive, List.mem_cons, not_or]
        simp only [live, List.mem_filter, decide_eq_true_eq]
        tauto
      · intro address
        rw [gone, List.mem_cons]
        simp only [dead, List.mem_cons]
        tauto
      · intro address notIn isClear
        rw [List.mem_cons, not_or] at notIn
        have earlier := clear address notIn.2 isClear
        rw [cleared] at earlier
        split at earlier
        · exact (List.mem_cons.mp earlier).resolve_left notIn.1
        · exact (List.mem_filter.mp earlier).1
      · rw [unlinks]
        rfl

end Enclave

/-- The memory after the lowest row `low` is gone and the next one, `second`, has taken its place. -/
structure Lowered (e : Enclave) (l : Layout) (low second : List (Nat × Nat)) (e' : Enclave) :
    Prop where
  levels : LevelsOnly e.nodes e'.nodes
  intermed : ∃ height, Intermed e'.mnodes e'.nodes l.base height
    (lowerKeys (second.map Prod.snd) l.mnodes)
  kept : ∀ address, address ∉ low.map Prod.fst → e'.inode address =
    (e.inode address).map fun inode =>
      if address ∈ second.map Prod.fst then { inode with down := 0 } else inode
  sentinel : e'.sentinel = e.sentinel
  nonDel : e'.nonDel = e.nonDel
  tallDel : e'.tallDel = e.tallDel
  alive : ∀ address, address ∈ live e'.trace ↔ address ∈ live e.trace ∧ address ∉ low.map Prod.fst
  gone : ∀ address, address ∈ dead e'.trace ↔ address ∈ low.map Prod.fst ∨ address ∈ dead e.trace
  clear : ∀ address, address ∉ low.map Prod.fst → address ∈ cleared e'.trace → address ∈ cleared e.trace
  unlisted : ∀ address mnode, e'.mnode address = some mnode →
    (∃ entry, (address, entry) ∈ l.mnodes) ∨ e.mnode address = some mnode
  unlinks : e'.trace.countP isUnlink = e.trace.countP isUnlink

structure Detached (e : Enclave) (l : Layout) (second : List (Nat × Nat)) (middle : Enclave) : Prop where
  levels : LevelsOnly e.nodes middle.nodes
  intermed : ∃ height, Intermed middle.mnodes middle.nodes l.base height
    (lowerKeys (second.map Prod.snd) l.mnodes)
  downs : ∀ address, middle.inode address = (e.inode address).map fun inode =>
    if address ∈ second.map Prod.fst then { inode with down := 0 } else inode
  sentinel : middle.sentinel = e.sentinel
  nonDel : middle.nonDel = e.nonDel
  tallDel : middle.tallDel = e.tallDel
  trace : middle.trace = .lower :: e.trace
  unlisted : ∀ address mnode, middle.mnode address = some mnode →
    (∃ entry, (address, entry) ∈ l.mnodes) ∨ e.mnode address = some mnode

namespace Enclave

theorem bgLowerIlevel_detaches (e : Enclave) {l : Layout} {height : Nat}
    {low second : List (Nat × Nat)} {inode : Inode}
    (intermed : Intermed e.mnodes e.nodes l.base height l.mnodes)
    (lowRow : Chain (rightAt e.inodes) (firstOf low) (low.map Prod.fst))
    (secondRow : Chain (rightAt e.inodes) (firstOf second) (second.map Prod.fst))
    (distinct : (second.map Prod.snd).Nodup)
    (cells : ∀ p ∈ second, ∃ cell, e.inode p.1 = some cell ∧ Over l.mnodes cell.intermed p.2 1)
    (apart : ∀ p ∈ low, ∀ q ∈ second, p.1 ≠ q.1)
    (found : e.inode (firstOf second) = some inode) (down : inode.down = firstOf low) :
    ∃ middle fuel, (∀ platform, e.bgLowerIlevel platform (firstOf second) =
        collectLoop platform fuel middle (firstOf low)) ∧ Detached e l second middle ∧
      Chain (rightAt middle.inodes) (firstOf low) (low.map Prod.fst) ∧ low.length < fuel := by
  have size := chain_length_le e.inodes Inode.right secondRow
  rw [List.length_map] at size
  obtain ⟨inodes, mnodes, nodes, height', detached, levels, intermed', unlisted, downs⟩ :=
    detachLoop_returns second (e.inodes.length + 1) (e.record .lower) l.mnodes height intermed
      secondRow distinct cells (Nat.lt_succ_of_le size)
  let middle : Enclave :=
    { e.record .lower with inodes := inodes, mnodes := mnodes, nodes := nodes }
  have lowChain : Chain (rightAt middle.inodes) (firstOf low) (low.map Prod.fst) := by
    refine lowRow.congr ?_
    intro address member
    obtain ⟨p, inLow, rfl⟩ := List.mem_map.mp member
    have notSecond : p.1 ∉ second.map Prod.fst := by
      intro again
      obtain ⟨q, inSecond, same⟩ := List.mem_map.mp again
      exact apart p inLow q inSecond same.symm
    rw [rightAt, show Store.get middle.inodes p.1 = _ from downs p.1]
    simp only [if_neg notSecond, Option.map_id']
    rfl
  have lowSize := chain_length_le middle.inodes Inode.right lowChain
  rw [List.length_map] at lowSize
  refine ⟨middle, middle.inodes.length + 1, fun platform => ?_,
    ⟨levels, ⟨height', intermed'⟩, downs, rfl, rfl, rfl, rfl, unlisted⟩, lowChain,
    Nat.lt_succ_of_le lowSize⟩
  rw [Enclave.bgLowerIlevel, found]
  simp only [Option.bind_eq_bind, Option.bind_some]
  rw [show Enclave.detachLoop (e.inodes.length + 1) (e.record .lower) (firstOf second) = _
    from detached, Option.bind_some, down]

end Enclave

theorem Detached.collect {e middle : Enclave} {platform : Platform} (honest : platform.Honest)
    {l : Layout} {low second : List (Nat × Nat)} {fuel : Nat} (detached : Detached e l second middle)
    (lowChain : Chain (rightAt middle.inodes) (firstOf low) (low.map Prod.fst))
    (bound : low.length < fuel) : ∃ e',
      Enclave.collectLoop platform fuel middle (firstOf low) = some e' ∧ Lowered e l low second e' ∧
      e'.mnodes = middle.mnodes ∧ e'.nodes = middle.nodes := by
  obtain ⟨inodes, trace, collected, kept, alive, gone, clear, unlinks⟩ :=
    Enclave.collectLoop_returns honest (low.map Prod.fst) fuel middle (firstOf low) lowChain
      (by rwa [List.length_map])
  rw [detached.trace] at alive gone clear unlinks
  refine ⟨{ middle with inodes := inodes, trace := trace }, collected, ⟨detached.levels,
    detached.intermed, ?_, detached.sentinel, detached.nonDel, detached.tallDel, alive, gone, clear,
    detached.unlisted, unlinks⟩, rfl, rfl⟩
  intro address notLow
  rw [show Enclave.inode { middle with inodes := inodes, trace := trace } address = _ from
    kept address notLow]
  exact detached.downs address

theorem Enclave.bgLowerIlevel_returns (e : Enclave) {platform : Platform} (honest : platform.Honest)
    {l : Layout} {height : Nat}
    {low second : List (Nat × Nat)} {inode : Inode}
    (intermed : Intermed e.mnodes e.nodes l.base height l.mnodes)
    (lowRow : Chain (rightAt e.inodes) (firstOf low) (low.map Prod.fst))
    (secondRow : Chain (rightAt e.inodes) (firstOf second) (second.map Prod.fst))
    (distinct : (second.map Prod.snd).Nodup)
    (cells : ∀ p ∈ second, ∃ cell, e.inode p.1 = some cell ∧ Over l.mnodes cell.intermed p.2 1)
    (apart : ∀ p ∈ low, ∀ q ∈ second, p.1 ≠ q.1)
    (found : e.inode (firstOf second) = some inode) (down : inode.down = firstOf low) : ∃ e',
      e.bgLowerIlevel platform (firstOf second) = some e' ∧ Lowered e l low second e' := by
  obtain ⟨middle, fuel, lowers, detached, lowChain, bound⟩ :=
    e.bgLowerIlevel_detaches intermed lowRow secondRow distinct cells apart found down
  obtain ⟨e', collected, lowered, _⟩ := detached.collect honest lowChain bound
  exact ⟨e', (lowers platform).trans collected, lowered⟩

/-- A step of a search that is still open once the row of `newLow` is the lowest. -/
def Enclave.OpenStep (e : Enclave) (newLow source target : Nat) : Prop :=
  target ≠ 0 ∧ (rightAt e.inodes source = some target ∨
    downAt e.inodes source = some target ∧ ¬ Chain.Follows (rightAt e.inodes) newLow source)

/-- No inode linked in the row below `newLow` can be come to from `root` by steps that stay open. -/
def Enclave.DropsAway (e : Enclave) (newLow root : Nat) : Prop :=
  ∀ oldLow address, downAt e.inodes newLow = some oldLow →
    Chain.Follows (rightAt e.inodes) oldLow address →
      ¬ Relation.ReflTransGen (e.OpenStep newLow) root address

def Enclave.DropsCleanly (e : Enclave) (newLow : Nat) : Prop := e.DropsAway newLow e.sentinel

def Enclave.Open (e : Enclave) (newLow : Nat) (held : List Nat) (address : Nat) : Prop :=
  ∃ root ∈ e.sentinel :: held, Relation.ReflTransGen (e.OpenStep newLow) root address

theorem Enclave.Open.tail {e : Enclave} {newLow source target : Nat} {held : List Nat}
    (opened : e.Open newLow held source) (step : e.OpenStep newLow source target) :
    e.Open newLow held target := by
  obtain ⟨root, isRoot, path⟩ := opened
  exact ⟨root, isRoot, path.tail step⟩

namespace Repr

variable {e : Enclave} {l : Layout} {platform : Platform} {low second : List (Nat × Nat)}
  {newLow : Nat}

theorem row_keys_nodup (repr : Repr e l) {i : Nat} {row : List (Nat × Nat)}
    (located : l.rows[i]? = some row) : (row.map Prod.snd).Nodup :=
  List.pairwise_map.mpr ((repr.grid.sorted row (List.mem_of_getElem? located)).imp Nat.ne_of_lt)

theorem start_of_head {i : Nat} {row : List (Nat × Nat)} {head : Nat}
    (located : l.rows[i]? = some row) (isHead : l.heads[i]? = some head) : firstOf row = head := by
  rw [Layout.heads, List.getElem?_map, located] at isHead
  exact Option.some.inj isHead

theorem bgLowerIlevel_returns (honest : platform.Honest) (repr : Repr e l)
    (isLow : l.rows[0]? = some low) (isSecond : l.rows[1]? = some second)
    (isHead : l.heads[1]? = some newLow) : ∃ e',
      e.bgLowerIlevel platform newLow = some e' ∧ Lowered e l low second e' := by
  obtain ⟨inode, found, bottom | ⟨j, same, down⟩⟩ := repr.head_down isHead
  · exact absurd bottom.1 Nat.one_ne_zero
  obtain rfl : j = 0 := (Nat.succ.inj same).symm
  obtain rfl : firstOf second = newLow := Repr.start_of_head isSecond isHead
  refine e.bgLowerIlevel_returns honest repr.intermed (repr.grid.chains 0 low isLow)
    (repr.grid.chains 1 second isSecond) (repr.row_keys_nodup isSecond) ?_ ?_ found
    (Repr.start_of_head isLow down).symm
  · intro p member
    obtain ⟨_, _, cell, stored, _, isOver⟩ := repr.grid.cells 1 second p isSecond member
    exact ⟨cell, stored, isOver.lower (Nat.le_add_left 1 1)⟩
  · intro p inLow q inSecond same
    exact absurd (repr.grid.row_unique isLow isSecond inLow inSecond same) Nat.zero_ne_one

theorem follows_second (repr : Repr e l) {i : Nat} {row : List (Nat × Nat)} {head address : Nat}
    (located : l.rows[i]? = some row) (isHead : l.heads[i]? = some head) :
    Chain.Follows (rightAt e.inodes) head address ↔ address ∈ row.map Prod.fst := by
  have start := Repr.start_of_head located isHead
  have chain := repr.grid.chains i row located
  rw [start] at chain
  exact chain.follows_iff (repr.head_nonzero isHead)

theorem sentinel_good (repr : Repr e l) : l.good e.sentinel := by
  obtain ⟨_, _, _, _, good, _⟩ := repr.sentinel
  exact good

theorem path_good (repr : Repr e l) {root address : Nat} (isGood : l.good root)
    (path : Relation.ReflTransGen (e.OpenStep newLow) root address) : l.good address := by
  induction path with
  | refl => exact isGood
  | tail _ step good =>
      obtain ⟨inode, found, ok⟩ := repr.grid.goods _ good
      obtain ⟨nonzero, right | ⟨down, _⟩⟩ := step
      · rw [rightAt_found found] at right
        obtain rfl := Option.some.inj right
        exact (ok.right nonzero).1
      · rw [downAt_found found] at down
        obtain rfl := Option.some.inj down
        exact (ok.down nonzero).1

theorem open_good (repr : Repr e l) {held : List Nat} (goods : ∀ root ∈ held, l.good root)
    {address : Nat} (opened : e.Open newLow held address) : l.good address := by
  obtain ⟨root, isRoot, path⟩ := opened
  refine repr.path_good ?_ path
  rcases List.mem_cons.mp isRoot with rfl | isHeld
  · exact repr.sentinel_good
  · exact goods root isHeld

theorem heads_open (repr : Repr e l) (isSecond : l.rows[1]? = some second)
    (isHead : l.heads[1]? = some newLow) (above : Nat) : ∀ i head, i + above + 1 = l.rows.length →
      1 ≤ i → l.heads[i]? = some head →
        Relation.ReflTransGen (e.OpenStep newLow) e.sentinel head := by
  induction above with
  | zero =>
      intro i head last _ isNext
      obtain ⟨row, _, isSentinel⟩ := repr.last_row
      rw [← last, Nat.add_zero, Nat.add_sub_cancel, isNext] at isSentinel
      rw [Option.some.inj isSentinel]
  | succ above ih =>
      intro i head size positive isNext
      have bound : i + 1 < l.heads.length := by
        rw [heads_length]
        omega
      obtain ⟨next, upper⟩ : ∃ next, l.heads[i + 1]? = some next :=
        ⟨_, List.getElem?_eq_getElem bound⟩
      have opened := ih (i + 1) next (by omega) (by omega) upper
      obtain ⟨inode, found, bottom | ⟨j, same, down⟩⟩ := repr.head_down upper
      · exact absurd bottom.1 (Nat.succ_ne_zero i)
      obtain rfl : i = j := Nat.succ.inj same
      have isDown : inode.down = head := Option.some.inj (down.symm.trans isNext)
      have locatedUp := List.getElem?_eq_getElem (show i + 1 < l.rows.length by omega)
      refine opened.tail ⟨repr.head_nonzero isNext, .inr ⟨?_, ?_⟩⟩
      · rw [downAt_found found, isDown]
      · intro follows
        obtain ⟨q, inSecond, same⟩ := List.mem_map.mp ((repr.follows_second isSecond isHead).mp follows)
        obtain ⟨first, rest, isFirst⟩ := repr.grid.heads _ (List.mem_of_getElem? locatedUp)
        have start := Repr.start_of_head locatedUp upper
        rw [isFirst, firstOf_cons] at start
        have rows := repr.grid.row_unique locatedUp isSecond
          (show (first, 0) ∈ l.rows[i + 1] by simp [isFirst]) inSecond (start.trans same.symm)
        omega

theorem cells_open (repr : Repr e l) (isSecond : l.rows[1]? = some second)
    (isHead : l.heads[1]? = some newLow) {i : Nat} {row : List (Nat × Nat)} {p : Nat × Nat}
    (positive : 1 ≤ i) (located : l.rows[i]? = some row) (member : p ∈ row) :
    Relation.ReflTransGen (e.OpenStep newLow) e.sentinel p.1 := by
  have bound := (List.getElem?_eq_some_iff.mp located).1
  obtain ⟨head, upper⟩ : ∃ head, l.heads[i]? = some head :=
    ⟨_, List.getElem?_eq_getElem (by rw [heads_length]; exact bound)⟩
  have opened := repr.heads_open isSecond isHead (l.rows.length - 1 - i) i head (by omega) positive
    upper
  have follows := (repr.follows_second located upper).mpr (List.mem_map_of_mem member)
  exact opened.trans (follows.lift id fun source target step => ⟨step.1, .inl step.2⟩)

theorem open_not_low (repr : Repr e l) (isLow : l.rows[0]? = some low)
    (isHead : l.heads[1]? = some newLow) {held : List Nat}
    (clean : ∀ root ∈ e.sentinel :: held, e.DropsAway newLow root) {address : Nat}
    (opened : e.Open newLow held address) : address ∉ low.map Prod.fst := by
  obtain ⟨root, isRoot, path⟩ := opened
  obtain ⟨head, found, bottom | ⟨j, same, down⟩⟩ := repr.head_down isHead
  · exact absurd bottom.1 Nat.one_ne_zero
  · obtain rfl : j = 0 := (Nat.succ.inj same).symm
    intro member
    exact clean root isRoot head.down address (downAt_found found)
      ((repr.follows_second isLow down).mpr member) path

def lowerLayout (e : Enclave) (l : Layout) (newLow : Nat) (second : List (Nat × Nat))
    (held : List Nat) : Layout where
  base := l.base
  mnodes := lowerKeys (second.map Prod.snd) l.mnodes
  rows := l.rows.tail
  lowest := l.lowest + 1
  good := e.Open newLow held
  rank := l.rank

theorem kept_open (repr : Repr e l) {e' : Enclave} (isLow : l.rows[0]? = some low)
    (isHead : l.heads[1]? = some newLow) {held : List Nat}
    (clean : ∀ root ∈ e.sentinel :: held, e.DropsAway newLow root)
    (lowered : Lowered e l low second e') {address : Nat} {inode : Inode}
    (opened : e.Open newLow held address) (stored : Store.get e.inodes address = some inode) :
    ∃ inode', Store.get e'.inodes address = some inode' ∧
      inode'.right = inode.right ∧ inode'.intermed = inode.intermed ∧ inode'.key = inode.key ∧
      (inode'.down = if address ∈ second.map Prod.fst then 0 else inode.down) := by
  have after := lowered.kept address (repr.open_not_low isLow isHead clean opened)
  rw [show e.inode address = some inode from stored, Option.map_some] at after
  refine ⟨_, after, ?_⟩
  by_cases inSecond : address ∈ second.map Prod.fst <;> simp [inSecond]

theorem lower_grid (repr : Repr e l) {e' : Enclave} (isLow : l.rows[0]? = some low)
    (isSecond : l.rows[1]? = some second) (isHead : l.heads[1]? = some newLow) {held : List Nat}
    (goods : ∀ root ∈ held, l.good root)
    (clean : ∀ root ∈ e.sentinel :: held, e.DropsAway newLow root)
    (lowered : Lowered e l low second e') :
    Grid e'.inodes e'.sentinel (lowerLayout e l newLow second held) := by
  have kept : ∀ address inode, e.Open newLow held address →
      Store.get e.inodes address = some inode → ∃ inode', Store.get e'.inodes address = some inode' ∧
        inode'.right = inode.right ∧ inode'.intermed = inode.intermed ∧ inode'.key = inode.key ∧
        (inode'.down = if address ∈ second.map Prod.fst then 0 else inode.down) :=
    fun address inode => repr.kept_open isLow isHead clean lowered
  have rows : ∀ (i : Nat) row, l.rows.tail[i]? = some row → l.rows[i + 1]? = some row := by
    intro i row located
    rwa [List.getElem?_tail] at located
  have opened : ∀ {i : Nat} {row : List (Nat × Nat)} {p : Nat × Nat}, l.rows[i + 1]? = some row →
      p ∈ row → e.Open newLow held p.1 :=
    fun located member => ⟨e.sentinel, List.mem_cons_self,
      repr.cells_open isSecond isHead (Nat.le_add_left 1 _) located member⟩
  refine ⟨?_, ?_, ?_, ?_, ?_, ?_, ?_, ?_⟩
  · intro i row located
    refine (repr.grid.chains (i + 1) row (rows i row located)).congr ?_
    intro address member
    obtain ⟨p, inRow, rfl⟩ := List.mem_map.mp member
    obtain ⟨inode, stored, _⟩ := repr.grid.found (rows i row located) inRow
    obtain ⟨inode', stored', right, _⟩ := kept p.1 inode (opened (rows i row located) inRow) stored
    rw [rightAt_found stored, rightAt_found stored', right]
  · exact fun row member => repr.grid.heads row (List.mem_of_mem_tail member)
  · exact fun row member => repr.grid.sorted row (List.mem_of_mem_tail member)
  · intro i row p located member
    obtain ⟨_, rank, inode, stored, key, isOver⟩ :=
      repr.grid.cells (i + 1) row p (rows i row located) member
    have isOpen := opened (rows i row located) member
    obtain ⟨inode', stored', _, intermed, sameKey, _⟩ := kept p.1 inode isOpen stored
    refine ⟨isOpen, ?_, inode', stored', sameKey.trans key, ?_⟩
    · dsimp only [lowerLayout]
      omega
    · rw [intermed]
      exact isOver.lowerKeys _
  · intro row p located member
    obtain rfl : row = second := Option.some.inj ((rows 0 row located).symm.trans isSecond)
    obtain ⟨inode, stored, _⟩ := repr.grid.found isSecond member
    obtain ⟨inode', stored', _, _, _, down'⟩ := kept p.1 inode (opened isSecond member) stored
    rw [downAt_found stored', down', if_pos (List.mem_map_of_mem member)]
  · intro i lower upper p q locatedLow locatedHigh inHigh inLow same
    have located := rows (i + 1) upper locatedHigh
    obtain ⟨inode, stored, _⟩ := repr.grid.found located inHigh
    obtain ⟨inode', stored', _, _, _, down'⟩ := kept p.1 inode (opened located inHigh) stored
    have leads := repr.grid.towers (i + 1) lower upper p q (rows i lower locatedLow) located inHigh
      inLow same
    have notSecond : p.1 ∉ second.map Prod.fst := by
      intro again
      obtain ⟨r, inSecond, sameAddress⟩ := List.mem_map.mp again
      have := repr.grid.row_unique located isSecond inHigh inSecond sameAddress.symm
      omega
    rw [downAt_found stored', down', if_neg notSecond]
    rw [downAt_found stored] at leads
    exact leads
  · obtain ⟨row, isLast, first⟩ := repr.grid.top
    rw [lowered.sentinel]
    refine ⟨row, ?_, first⟩
    have wide := (List.getElem?_eq_some_iff.mp isSecond).1
    dsimp only [lowerLayout]
    rw [List.getLast?_eq_getElem?] at isLast ⊢
    rw [List.getElem?_tail, List.length_tail, ← isLast]
    congr 1
    omega
  · intro address isOpen
    obtain ⟨inode, stored, ok⟩ := repr.grid.goods address (repr.open_good goods isOpen)
    obtain ⟨inode', stored', right, intermed, key, down'⟩ := kept address inode isOpen stored
    refine ⟨inode', stored', ?_, ?_, ?_⟩
    · rw [intermed, key]
      by_cases inSecond : inode.key ∈ second.map Prod.snd
      · obtain ⟨q, member, sameKey⟩ := List.mem_map.mp inSecond
        obtain ⟨_, _, _, _, _, tall, tallIn, tallKey, enough⟩ :=
          repr.grid.cells 1 second q isSecond member
        obtain ⟨entry, entryIn, entryKey, _⟩ := ok.isOver
        obtain ⟨_, rfl⟩ := Prod.mk.inj
          (repr.intermed.eq_of_key tallIn entryIn (tallKey.trans (sameKey.trans entryKey.symm)))
        exact Over.lowerKeys _ ⟨tall, entryIn, entryKey, enough⟩
      · exact ok.isOver.lowerKeys_other inSecond
    · rw [right, key]
      intro nonzero
      obtain ⟨_, rank, next, nextStored, greater⟩ := ok.right nonzero
      have nextOpen := isOpen.tail ⟨nonzero, .inl (rightAt_found stored)⟩
      obtain ⟨next', nextStored', _, _, nextKey, _⟩ := kept inode.right next nextOpen nextStored
      exact ⟨nextOpen, rank, next', nextStored', nextKey ▸ greater⟩
    · rw [down', key]
      by_cases inSecond : address ∈ second.map Prod.fst
      · rw [if_pos inSecond]
        exact fun wrong => absurd rfl wrong
      · rw [if_neg inSecond]
        intro nonzero
        obtain ⟨_, rank, below, belowStored, belowKey⟩ := ok.down nonzero
        have belowOpen := isOpen.tail ⟨nonzero, .inr ⟨downAt_found stored, fun follows =>
          inSecond ((repr.follows_second isSecond isHead).mp follows)⟩⟩
        obtain ⟨below', belowStored', _, _, sameKey, _⟩ := kept inode.down below belowOpen belowStored
        exact ⟨belowOpen, rank, below', belowStored', sameKey.trans belowKey⟩

theorem abs_lower (repr : Repr e l) {e' : Enclave} (isSecond : l.rows[1]? = some second)
    (lowered : Lowered e l low second e') (held : List Nat) :
    abs e' (lowerLayout e l newLow second held) = (abs e l).lower := by
  obtain ⟨head, rest, isFirst⟩ := repr.grid.heads second (List.mem_of_getElem? isSecond)
  have entries : (lowerKeys (second.map Prod.snd) l.mnodes).tail.map Prod.snd =
      (l.mnodes.tail.map Prod.snd).map fun entry =>
        if entry.key ∈ second.tail.map Prod.snd then { entry with level := entry.level - 1 }
        else entry := by
    rw [lowerKeys, ← List.map_tail, List.map_map, List.map_map]
    apply List.map_congr_left
    intro p member
    have positive := repr.entry_positive member
    by_cases listed : p.2.key ∈ rest.map Prod.snd
    · simp [isFirst, listed]
    · simp [isFirst, positive, listed]
  have row : (abs e l).rows.getD 1 [] = second.tail.map Prod.snd := Repr.abs_getD isSecond
  rw [Index.lower, row, abs, abs]
  simp only [lowered.nonDel, lowered.tallDel, lowered.unlinks, lowerLayout, entries, List.map_tail]

/-- A row is dropped cleanly: the rows above it are what they were, one level lower. -/
theorem bgLowerIlevel_refines (honest : platform.Honest) (repr : Repr e l)
    (isHead : l.heads[1]? = some newLow) {held : List Nat} (goods : ∀ root ∈ held, l.good root)
    (clean : ∀ root ∈ e.sentinel :: held, e.DropsAway newLow root) : ∃ e' l',
      e.bgLowerIlevel platform newLow = some e' ∧ LevelsOnly e.nodes e'.nodes ∧ Repr e' l' ∧
      Keeps (· ∈ held) l.mnodes e l e' l' ∧ abs e' l' = (abs e l).lower := by
  have wide := wide_of_second isHead
  have isLow := List.getElem?_eq_getElem (show 0 < l.rows.length by omega)
  have isSecond := List.getElem?_eq_getElem wide
  obtain ⟨e', done, lowered⟩ := repr.bgLowerIlevel_returns honest isLow isSecond isHead
  have grid := repr.lower_grid isLow isSecond isHead goods clean lowered
  have heldOpen : ∀ address ∈ held, e.Open newLow held address := fun address isHeld =>
    ⟨address, List.mem_cons_of_mem _ isHeld, Relation.ReflTransGen.refl⟩
  have stillListed : ∀ p ∈ l.mnodes, ∃ entry,
      (p.1, entry) ∈ lowerKeys (l.rows[1].map Prod.snd) l.mnodes ∧ entry.key = p.2.key ∧
        entry.node = p.2.node := by
    intro p member
    by_cases inSecond : p.2.key ∈ l.rows[1].map Prod.snd
    · exact ⟨{ p.2 with level := p.2.level - 1 },
        List.mem_map.mpr ⟨p, member, if_pos inSecond⟩, rfl, rfl⟩
    · exact ⟨p.2, List.mem_map.mpr ⟨p, member, if_neg inSecond⟩, rfl, rfl⟩
  have goodLow : ∀ address ∈ l.rows[0].map Prod.fst, l.good address := by
    intro address inLow
    obtain ⟨r, inRow, rfl⟩ := List.mem_map.mp inLow
    exact (repr.grid.cells 0 _ r isLow inRow).1
  refine ⟨e', lowerLayout e l newLow l.rows[1] held, done, lowered.levels, ⟨?_, grid, ?_, ?_, ?_, ?_⟩,
    ⟨rfl, fun address isHeld => ⟨heldOpen address isHeld, rfl⟩, ?_, ?_⟩,
    repr.abs_lower isSecond lowered held⟩
  · obtain ⟨height, intermed⟩ := lowered.intermed
    obtain ⟨node, others, split, _⟩ := repr.base_stored
    obtain ⟨head, rest, isFirst⟩ := repr.grid.heads l.rows[1] (List.mem_of_getElem? isSecond)
    have first : lowerKeys (l.rows[1].map Prod.snd) l.mnodes =
        (l.base, ⟨0, node, l.rows.tail.length, false⟩) ::
          lowerKeys (l.rows[1].map Prod.snd) others := by
      rw [split, lowerKeys, List.map_cons, if_pos (by simp [isFirst])]
      simp [lowerKeys]
    exact intermed.withHeight first
  · intro p member
    obtain ⟨q, inList, same, _⟩ := mem_lowerKeys member
    rw [lowered.alive, same]
    exact ⟨repr.liveMnodes q inList, fun inLow => repr.apart q inList (goodLow q.1 inLow)⟩
  · intro address opened
    rw [lowered.alive]
    exact ⟨repr.liveInodes address (repr.open_good goods opened),
      repr.open_not_low isLow isHead clean opened⟩
  · intro p member
    obtain ⟨q, inList, same, _⟩ := mem_lowerKeys member
    rw [same, lowered.kept q.1 fun inLow => repr.apart q inList (goodLow q.1 inLow),
      repr.noInode q inList]
    rfl
  · refine repr.strays_kept (fun p member => ?_) fun address mnode stored => ?_
    · obtain ⟨entry, inNew, _⟩ := stillListed p member
      exact ⟨entry, inNew⟩
    · rcases lowered.unlisted address mnode stored with ⟨entry, listed⟩ | earlier
      · obtain ⟨entry', inNew, _⟩ := stillListed _ listed
        exact .inl ⟨entry', inNew⟩
      · refine .inr ⟨earlier, fun gone => (lowered.gone address).mpr (.inr gone),
          lowered.clear address fun inLow => ?_⟩
        exact absurd (repr.noMnode (goodLow address inLow)) (earlier ▸ Option.some_ne_none mnode)
  · intro address inode isHeld stored
    obtain ⟨inode', stored', _, _, key, _⟩ :=
      repr.kept_open isLow isHead clean lowered (heldOpen address isHeld) stored
    exact ⟨inode', stored', key⟩
  · exact stillListed

end Repr

end Hosk
