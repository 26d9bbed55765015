import Hosk.SpinePass
import Hosk.DeletedNodes

/-!
Deleted nodes are never raised, in whatever state jobs, passes and resets have left the enclave,
also where a lowering has left the index with inodes that lead nowhere.
-/

namespace Hosk

/-- The state in which `update_index_layer` calls `bg_raise_mlevel`, and its two arguments. -/
def Enclave.raiseMlevelCall (platform : Platform) (e : Enclave) : Option (Enclave × Nat × Nat) := do
  let e ← bgTravMnodes platform e
  let level ← e.sentinelLevel
  let inodes ← firstInodes e level e.sentinel []
  let lowest ← inodes.head?
  let bottom ← e.inode lowest
  some (e, bottom.intermed, lowest)

namespace Enclave

variable {platform : Platform} {e e' : Enclave}

theorem skipMarked_unmarked {iprev : Nat} (fuel : Nat) : ∀ {e : Enclave} {index inext index' inext'},
    skipMarked iprev fuel e index inext = some (e', index', inext') → RaisedUnmarked e e' ∧
      (inext' ≠ 0 → ∀ inode mnode, e'.inode index' = some inode →
        e'.mnode inode.intermed = some mnode → mnode.marked = false) := by
  induction fuel with
  | zero =>
      intro e index inext index' inext' returned
      cases returned
  | succ fuel ih =>
      intro e index inext index' inext' returned
      rw [skipMarked] at returned
      obtain ⟨inode, found, returned⟩ := Option.bind_eq_some_iff.mp returned
      obtain ⟨mnode, stored, returned⟩ := Option.bind_eq_some_iff.mp returned
      split at returned
      · obtain ⟨unlinked, sets, returned⟩ := Option.bind_eq_some_iff.mp returned
        obtain ⟨iprevNode, _, changed⟩ := Option.bind_eq_some_iff.mp sets
        have recorded : RaisedUnmarked e unlinked := by
          rw [← Option.some.inj changed]
          exact .one rfl fun address same => by cases same
        split at returned
        · rename_i isEnd
          obtain ⟨rfl, _, rfl⟩ : unlinked = e' ∧ index = index' ∧ inext = inext' := by
            simpa using returned
          exact ⟨recorded, fun onward => absurd isEnd onward⟩
        · obtain ⟨next, _, returned⟩ := Option.bind_eq_some_iff.mp returned
          obtain ⟨later, unmarked⟩ := ih returned
          exact ⟨recorded.trans later, unmarked⟩
      · rename_i unmarked
        obtain ⟨rfl, rfl, rfl⟩ : e = e' ∧ index = index' ∧ inext = inext' := by
          simpa using returned
        refine ⟨.refl e, fun _ inode' mnode' found' stored' => ?_⟩
        obtain rfl : inode = inode' := Option.some.inj (found.symm.trans found')
        obtain rfl : mnode = mnode' := Option.some.inj (stored.symm.trans stored')
        exact Bool.eq_false_iff.mpr unmarked

theorem setRight_trace {address right : Nat} (sets : e.setRight address right = some e') :
    e'.trace = e.trace := by
  obtain ⟨_, _, changed⟩ := Option.bind_eq_some_iff.mp sets
  rw [← Option.some.inj changed]
  rfl

theorem setLevel_trace {address level : Nat} (sets : e.setLevel address level = some e') :
    e'.trace = e.trace := by
  obtain ⟨_, _, changed⟩ := Option.bind_eq_some_iff.mp sets
  rw [← Option.some.inj changed]
  rfl

theorem raiseNodeLevel_trace {address level : Nat}
    (sets : e.raiseNodeLevel address level = some e') : e'.trace = e.trace := by
  obtain ⟨_, _, changed⟩ := Option.bind_eq_some_iff.mp sets
  split at changed
  · obtain ⟨_, _, changed⟩ := Option.bind_eq_some_iff.mp changed
    rw [← Option.some.inj changed]
  · rw [← Option.some.inj changed]

theorem raiseAt_unmarked {abovePrev down intermed level fresh : Nat} {mnode : Mnode}
    (stored : e.mnode intermed = some mnode) (unmarked : mnode.marked = false)
    (returned : e.raiseAt platform abovePrev down intermed level = some (fresh, e')) :
    RaisedUnmarked e e' := by
  rw [raiseAt] at returned
  obtain ⟨_, _, returned⟩ := Option.bind_eq_some_iff.mp returned
  obtain ⟨⟨_, made⟩, allocated, returned⟩ := Option.bind_eq_some_iff.mp returned
  obtain ⟨_, linked, returned⟩ := Option.bind_eq_some_iff.mp returned
  obtain ⟨_, levelled, returned⟩ := Option.bind_eq_some_iff.mp returned
  obtain ⟨_, _, returned⟩ := Option.bind_eq_some_iff.mp returned
  obtain ⟨_, nodeLevelled, returned⟩ := Option.bind_eq_some_iff.mp returned
  obtain ⟨_, rfl⟩ := Prod.mk.inj (Option.some.inj returned)
  rw [inodeNew, stored] at allocated
  obtain ⟨_, rfl⟩ := Prod.mk.inj (Option.some.inj allocated)
  refine .one (((raiseNodeLevel_trace nodeLevelled).trans (setLevel_trace levelled)).trans
    (setRight_trace linked)) fun address same => ?_
  rw [unmarked] at same
  cases same

theorem raiseIlevelLoop_unmarked {height : Nat} (fuel : Nat) :
    ∀ {e : Enclave} {iprev iprevTall above abovePrev index : Nat} {raised raised' : Bool},
      raiseIlevelLoop platform height fuel e iprev iprevTall above abovePrev index raised =
        some (raised', e') → RaisedUnmarked e e' := by
  induction fuel with
  | zero =>
      intro e iprev iprevTall above abovePrev index raised raised' returned
      cases returned
  | succ fuel ih =>
      intro e iprev iprevTall above abovePrev index raised raised' returned
      rw [raiseIlevelLoop] at returned
      split at returned
      · obtain ⟨_, rfl⟩ := Prod.mk.inj (Option.some.inj returned)
        exact .refl e
      obtain ⟨first, _, returned⟩ := Option.bind_eq_some_iff.mp returned
      split at returned
      · obtain ⟨_, rfl⟩ := Prod.mk.inj (Option.some.inj returned)
        exact .refl e
      obtain ⟨⟨skipped, index', inext⟩, skips, returned⟩ := Option.bind_eq_some_iff.mp returned
      obtain ⟨skipping, unmarked⟩ := skipMarked_unmarked _ skips
      refine skipping.trans ?_
      dsimp only at returned
      split at returned
      · obtain ⟨_, rfl⟩ := Prod.mk.inj (Option.some.inj returned)
        exact .refl _
      rename_i onward
      obtain ⟨_, _, returned⟩ := Option.bind_eq_some_iff.mp returned
      obtain ⟨_, _, returned⟩ := Option.bind_eq_some_iff.mp returned
      obtain ⟨_, _, returned⟩ := Option.bind_eq_some_iff.mp returned
      split at returned
      · obtain ⟨inode, found, returned⟩ := Option.bind_eq_some_iff.mp returned
        obtain ⟨mnode, stored, returned⟩ := Option.bind_eq_some_iff.mp returned
        obtain ⟨⟨_, abovePrev'⟩, _, returned⟩ := Option.bind_eq_some_iff.mp returned
        obtain ⟨⟨fresh, raisedTo⟩, raises, returned⟩ := Option.bind_eq_some_iff.mp returned
        exact (raiseAt_unmarked stored (unmarked onward inode mnode found stored) raises).trans
          (ih returned)
      · exact ih returned

theorem bgRaiseIlevel_unmarked {iprev iprevTall height : Nat} {raised : Bool}
    (returned : e.bgRaiseIlevel platform iprev iprevTall height = some (raised, e')) :
    RaisedUnmarked e e' := by
  obtain ⟨_, _, returned⟩ := Option.bind_eq_some_iff.mp returned
  exact raiseIlevelLoop_unmarked _ returned

end Enclave

namespace Spine

variable {e e' : Enclave} {base : Nat} {list : List Nat} {rows : List (List (Nat × Nat))}
  {platform : Platform}

theorem raiseMlevelCall_links (honest : platform.Honest) (spine : Spine e base list rows) :
    ∃ before list' lowest raised after rows', e.raiseMlevelCall platform = some (before, base, lowest) ∧
      e.bgTravMnodes platform = some before ∧ before.sentinelLevel = some rows.length ∧
      before.firstInodes rows.length before.sentinel [] = some (rows.map firstOf) ∧
      (rows.map firstOf).head? = some lowest ∧ (∃ bottom, before.inode lowest = some bottom ∧
        bottom.intermed = base) ∧
      before.bgRaiseMlevel platform base lowest = some (raised, after) ∧
      Spine after base list' rows' ∧ rows'.map firstOf = rows.map firstOf ∧
      RaisedUnmarked before after := by
  obtain ⟨before, list', traversed, spine₁, clear⟩ := spine.bgTravMnodes_clears honest
  obtain ⟨row, rest, split⟩ := List.exists_cons_of_ne_nil spine.ladder.nonempty
  have located : rows[0]? = some row := by rw [split]; rfl
  obtain ⟨head, cells, inode, isRow, found, intermed, _⟩ := spine₁.head located
  obtain ⟨raised, after, rows', raises, spine₂, heads, unmarked⟩ :=
    spine₁.bgRaiseMlevel_links honest clear located
  have first : (rows.map firstOf).head? = some (firstOf row) := by rw [split]; rfl
  have isHead : firstOf row = head := by rw [isRow]; rfl
  have level := spine₁.sentinelLevel_links
  have collected := spine₁.firstInodes_links
  rw [isHead] at first raises
  refine ⟨before, list', head, raised, after, rows', ?_, traversed, level, collected, first,
    ⟨inode, found, intermed⟩, raises, spine₂, heads, unmarked⟩
  rw [Enclave.raiseMlevelCall, traversed]
  simp only [Option.bind_eq_bind, Option.bind_some, level, collected, first, found, intermed]

theorem growFirst_links (honest : platform.Honest) (spine : Spine e base list rows) (wanted : Prop)
    [Decidable wanted] : ∃ e' rows',
      (if wanted then do
          let e ← e.growSentinel platform
          some (rows.map firstOf ++ [e.sentinel], e)
        else some (rows.map firstOf, e)) = some (rows'.map firstOf, e') ∧
      Spine e' base list rows' := by
  by_cases grows : wanted
  · obtain ⟨e', grown, spine'⟩ := spine.growSentinel_links honest
    refine ⟨e', _, ?_, spine'⟩
    rw [if_pos grows, grown, List.map_append]
    rfl
  · exact ⟨e, rows, if_neg grows, spine⟩

theorem raiseIndexLayer_links (honest : platform.Honest) (spine : Spine e base list rows) :
    ∃ inodes e' list' rows', e.raiseIndexLayer platform = some (inodes, e') ∧
      Spine e' base list' rows' ∧ inodes <+: rows'.map firstOf := by
  obtain ⟨e₁, list', lowest, raised, e₂, rows₂, _, traversed, level₁, collected, first,
    ⟨bottom, found, intermed⟩, raises, spine₂, heads₂, _⟩ := spine.raiseMlevelCall_links honest
  obtain ⟨e₃, rows₃, grown, spine₃⟩ := spine₂.growFirst_links honest (raised = true ∧ rows₂.length = 1)
  rw [heads₂] at grown
  rw [← intermed] at raises
  have begins : e.beginRows platform = some (rows₃.map firstOf, raised, e₃) :=
    Enclave.beginRows_returns traversed level₁ collected first found raises spine₂.sentinelLevel_links grown
  have bound := spine₃.ladder.rows_length_le
  have nonempty := List.length_pos_of_ne_nil spine₃.ladder.nonempty
  obtain ⟨raised', e₄, rows₄, looped, spine₄, heads₄⟩ := raiseRows_links honest (rows₃.length - 1)
    (e₃.inodes.length + 1) e₃ rows₃ 0 raised spine₃ (by omega) (by omega)
  cases again : raised' with
  | false =>
      refine ⟨rows₃.map firstOf, e₄, list', rows₄, ?_, spine₄, heads₄ ▸ List.prefix_rfl⟩
      rw [Enclave.raiseIndexLayer_begins, begins]
      simp [looped, again]
  | true =>
      obtain ⟨e₅, grownLast, spine₅⟩ := spine₄.growSentinel_links honest
      refine ⟨rows₃.map firstOf, e₅, list', _, ?_, spine₅, ?_⟩
      · rw [Enclave.raiseIndexLayer_begins, begins]
        simp [looped, again, grownLast]
      · rw [List.map_append, heads₄]
        exact List.prefix_append _ _

end Spine

namespace Enclave

theorem detachLoop_links (cells : List (Nat × Nat)) : ∀ fuel (e : Enclave),
    Chain (rightAt e.inodes) (firstOf cells) (cells.map Prod.fst) →
    (∀ p ∈ cells, intermedAt e.inodes p.1 = some p.2) → (cells.map Prod.snd).Nodup →
    (∀ p ∈ cells, ∃ mnode node, e.mnode p.2 = some mnode ∧ mnode.level ≠ 0 ∧
      Store.get e.nodes mnode.node = some node) →
    cells.length < fuel → ∃ inodes mnodes nodes,
      detachLoop fuel e (firstOf cells) =
        some { e with inodes := inodes, mnodes := mnodes, nodes := nodes } ∧
      LevelsOnly e.nodes nodes ∧
      (∀ address, Store.get inodes address = (e.inode address).map fun inode =>
        if address ∈ cells.map Prod.fst then { inode with down := 0 } else inode) ∧
      ∀ address, Store.get mnodes address = (e.mnode address).map fun mnode =>
        if address ∈ cells.map Prod.snd then { mnode with level := mnode.level - 1 } else mnode := by
  induction cells with
  | nil =>
      intro fuel e _ _ _ _ bound
      obtain ⟨fuel, rfl⟩ := Nat.exists_eq_succ_of_ne_zero (Nat.ne_of_gt bound)
      refine ⟨e.inodes, e.mnodes, e.nodes, ?_, LevelsOnly.refl _, ?_, ?_⟩
      · rw [firstOf_nil, detachLoop, if_pos rfl]
      · intro address
        simp [Enclave.inode]
      · intro address
        simp [Enclave.mnode]
  | cons p rest ih =>
      intro fuel e chain isOver distinct tall bound
      obtain ⟨fuel, rfl⟩ := Nat.exists_eq_succ_of_ne_zero (Nat.ne_of_gt (Nat.zero_lt_of_lt bound))
      obtain ⟨address, under⟩ := p
      have nodup := chain.nodup
      have nonzero : address ≠ 0 := chain.ne_zero address List.mem_cons_self
      rw [List.map_cons, List.nodup_cons] at nodup distinct
      obtain ⟨inode, found, rfl⟩ := Option.map_eq_some_iff.mp (isOver (address, under) List.mem_cons_self)
      obtain ⟨mnode, node, stored, positive, nodeFound⟩ := tall (address, inode.intermed) List.mem_cons_self
      obtain ⟨onward, later⟩ := onward_chain chain found
      let changed : Enclave := (e.setInode address { inode with down := 0 }).setMnode inode.intermed
        { mnode with level := mnode.level - 1 }
      obtain ⟨nodes, nodeLevel, levels⟩ := changed.lowerNodeLevel_returns nodeFound
      have others : ∀ q ∈ rest, Store.get changed.inodes q.1 = e.inode q.1 := by
        intro q member
        apply Store.get_set_other
        intro same
        exact nodup.1 (same ▸ List.mem_map.mpr ⟨q, member, rfl⟩)
      have otherMnodes : ∀ q ∈ rest, Store.get changed.mnodes q.2 = e.mnode q.2 := by
        intro q member
        apply Store.get_set_other
        intro same
        exact distinct.1 (same ▸ List.mem_map.mpr ⟨q, member, rfl⟩)
      obtain ⟨inodes, mnodes, nodes', loop, levels', downs, lowers⟩ :=
        ih fuel { changed with nodes := nodes }
          (by
            rw [← onward]
            refine later.congr fun other member => ?_
            obtain ⟨q, inRest, rfl⟩ := List.mem_map.mp member
            rw [rightAt, rightAt, others q inRest]
            rfl)
          (fun q member => (congrArg (Option.map Inode.intermed) (others q member)).trans
            (isOver q (List.mem_cons_of_mem _ member)))
          distinct.2
          (by
            intro q member
            obtain ⟨other, node', stored', positive', nodeFound'⟩ := tall q (List.mem_cons_of_mem _ member)
            obtain ⟨node'', nodeFound'', _⟩ := levels.keys _ node' nodeFound'
            exact ⟨other, node'', (otherMnodes q member).trans stored', positive', nodeFound''⟩)
          (by simpa using bound)
      refine ⟨inodes, mnodes, nodes', ?_, levels.trans levels', ?_, ?_⟩
      · have foundInode : e.inode address = some inode := found
        have cleared : (e.setInode address { inode with down := 0 }).inode address =
            some { inode with down := 0 } := Store.get_set_same _ _ _
        have again : (e.setInode address { inode with down := 0 }).mnode inode.intermed = some mnode :=
          stored
        have levelSet : (e.setInode address { inode with down := 0 }).setLevel inode.intermed
            (mnode.level - 1) = some changed := by
          rw [setLevel, again]
          rfl
        have nodeAgain : Store.get changed.nodes mnode.node = some node := nodeFound
        rw [firstOf_cons, detachLoop, if_neg nonzero, setDown, foundInode]
        simp only [Option.bind_eq_bind, Option.bind_some, cleared, again, if_neg positive,
          levelSet, nodeAgain]
        rw [onward]
        by_cases nodeLowers : 0 < node.level
        · rw [if_pos nodeLowers] at nodeLevel ⊢
          rw [nodeLevel, Option.bind_some]
          exact loop
        · rw [if_neg nodeLowers] at nodeLevel ⊢
          rw [Option.some.inj nodeLevel]
          exact loop
      · intro wanted
        rw [downs]
        by_cases same : address = wanted
        · subst same
          have here : changed.inode address = some { inode with down := 0 } := Store.get_set_same _ _ _
          rw [show ({ changed with nodes := nodes } : Enclave).inode address = _ from here,
            show e.inode address = some inode from found]
          simp
        · have other : changed.inode wanted = e.inode wanted := Store.get_set_other _ same
          rw [show ({ changed with nodes := nodes } : Enclave).inode wanted = _ from other]
          have elsewhere : wanted ∈ ((address, inode.intermed) :: rest).map Prod.fst ↔
              wanted ∈ rest.map Prod.fst := by
            rw [List.map_cons, List.mem_cons, or_iff_right (Ne.symm same)]
          simp only [elsewhere]
      · intro wanted
        rw [lowers]
        by_cases same : inode.intermed = wanted
        · subst same
          have here : changed.mnode inode.intermed = some { mnode with level := mnode.level - 1 } :=
            Store.get_set_same _ _ _
          rw [show ({ changed with nodes := nodes } : Enclave).mnode inode.intermed = _ from here, stored]
          simp [distinct.1]
        · have other : changed.mnode wanted = e.mnode wanted := Store.get_set_other _ same
          rw [show ({ changed with nodes := nodes } : Enclave).mnode wanted = _ from other]
          have elsewhere : wanted ∈ ((address, inode.intermed) :: rest).map Prod.snd ↔
              wanted ∈ rest.map Prod.snd := by
            rw [List.map_cons, List.mem_cons, or_iff_right (Ne.symm same)]
          simp only [elsewhere]

end Enclave

namespace Spine

variable {e e' : Enclave} {base : Nat} {list : List Nat} {rows : List (List (Nat × Nat))}
  {platform : Platform}

theorem mem_tail_of_ne {row : List (Nat × Nat)} {p : Nat × Nat}
    (ladder : Ladder e.inodes e.sentinel base rows) (inRows : row ∈ rows) (member : p ∈ row)
    (apart : p.2 ≠ base) : p ∈ row.tail := by
  obtain ⟨head, rest, rfl⟩ := ladder.first row inRows
  rcases List.mem_cons.mp member with rfl | inRest
  · exact absurd rfl apart
  · exact inRest

theorem row_level (spine : Spine e base list rows) {i : Nat} {row : List (Nat × Nat)}
    (located : rows[i]? = some row) {p : Nat × Nat} (member : p ∈ row) :
    p.2 ∈ list ∧ ∃ level, levelAt e.mnodes p.2 = some level ∧ i < level := by
  by_cases isBase : p.2 = base
  · rw [isBase]
    exact ⟨spine.listed.base_mem, _, spine.height, (List.getElem?_eq_some_iff.mp located).1⟩
  · have tall := spine.tall i row located p
      (mem_tail_of_ne spine.ladder (List.mem_of_getElem? located) member isBase)
    exact ⟨List.mem_of_mem_tail tall.1, tall.2⟩

theorem bgLowerIlevel_links (honest : platform.Honest) (spine : Spine e base list rows)
    {low second : List (Nat × Nat)} {rest : List (List (Nat × Nat))}
    (split : rows = low :: second :: rest) : ∃ e',
      e.bgLowerIlevel platform (firstOf second) = some e' ∧ Spine e' base list (second :: rest) := by
  have inLow : low ∈ rows := by simp [split]
  have inSecond : second ∈ rows := by simp [split]
  have isSecond : rows[1]? = some second := by rw [split]; rfl
  have isLow : rows[0]? = some low := by rw [split]; rfl
  obtain ⟨head, cells, inode, same, found, _⟩ := spine.head isSecond
  have down : inode.down = firstOf low := by
    have heads := spine.ladder.heads
    rw [split, List.map_cons, List.map_cons, List.reverse_cons, List.reverse_cons,
      List.append_assoc, List.singleton_append, same, firstOf_cons] at heads
    have next := heads.next_eq
    rw [downAt_found found] at next
    exact Option.some.inj next
  have size := spine.ladder.row_length_le inSecond
  obtain ⟨inodes, mnodes, nodes, detached, levels, downs, lowers⟩ :=
    Enclave.detachLoop_links second (e.inodes.length + 1) (e.record .lower)
      (spine.ladder.linked second inSecond) (spine.ladder.isOver second inSecond)
      (spine.ladder.once second inSecond)
      (by
        intro p member
        obtain ⟨inList, level, isLevel, above⟩ := spine.row_level isSecond member
        obtain ⟨mnode, node, stored, nodeFound⟩ := spine.listed.data p.2 inList
        rw [levelAt_found stored] at isLevel
        obtain rfl := Option.some.inj isLevel
        exact ⟨mnode, node, stored, Nat.ne_of_gt (Nat.zero_lt_of_lt above), nodeFound⟩)
      (Nat.lt_succ_of_le size)
  let middle : Enclave :=
    { e.record .lower with inodes := inodes, mnodes := mnodes, nodes := nodes }
  have lowApart : ∀ p ∈ low, p.1 ∉ second.map Prod.fst := by
    intro p member again
    obtain ⟨q, inOther, same⟩ := List.mem_map.mp again
    exact absurd (spine.ladder.apart 0 1 low second isLow isSecond p member q inOther same.symm)
      (by decide)
  have lowChain : Chain (rightAt middle.inodes) (firstOf low) (low.map Prod.fst) := by
    refine (spine.ladder.linked low inLow).congr fun address member => ?_
    obtain ⟨p, inRow, rfl⟩ := List.mem_map.mp member
    rw [rightAt, show Store.get middle.inodes p.1 = _ from downs p.1]
    simp only [if_neg (lowApart p inRow), Option.map_id']
    rfl
  have lowSize := chain_length_le middle.inodes Inode.right lowChain
  obtain ⟨inodes', trace, collected, kept, alive, _⟩ := Enclave.collectLoop_returns honest
    (low.map Prod.fst) (middle.inodes.length + 1) middle (firstOf low) lowChain
    (Nat.lt_succ_of_le lowSize)
  have lowered : e.bgLowerIlevel platform (firstOf second) =
      some { middle with inodes := inodes', trace := trace } := by
    have startFound : e.inode (firstOf second) = some inode := by
      rw [same]
      exact found
    rw [Enclave.bgLowerIlevel, startFound]
    simp only [Option.bind_eq_bind, Option.bind_some]
    rw [show Enclave.detachLoop (e.inodes.length + 1) (e.record .lower) (firstOf second) = _
      from detached, Option.bind_some, down]
    exact collected
  -- the rows that stay keep everything but the way down from the second-lowest one
  have outside : ∀ (j : Nat) row, (second :: rest)[j]? = some row → ∀ p ∈ row,
      Store.get inodes' p.1 = (e.inode p.1).map fun inode =>
        if p.1 ∈ second.map Prod.fst then { inode with down := 0 } else inode := by
    intro j row located p member
    have located' : rows[j + 1]? = some row := by
      rw [split]
      exact located
    have notLow : p.1 ∉ low.map Prod.fst := by
      intro again
      obtain ⟨q, inRow, same⟩ := List.mem_map.mp again
      exact absurd (spine.ladder.apart 0 (j + 1) low row isLow located' q inRow p member same)
        (Nat.succ_ne_zero j).symm
    rw [kept p.1 notLow]
    exact downs p.1
  have rights : ∀ row ∈ second :: rest, ∀ p ∈ row, rightAt inodes' p.1 = rightAt e.inodes p.1 ∧
      intermedAt inodes' p.1 = intermedAt e.inodes p.1 := by
    intro row inRows p member
    obtain ⟨j, located⟩ := List.getElem?_of_mem inRows
    rw [rightAt, rightAt, intermedAt, intermedAt, outside j row located p member]
    constructor <;>
    · rw [Option.map_map]
      refine congrArg (Option.map · _) (funext fun inode => ?_)
      simp only [Function.comp_apply]
      split <;> rfl
  have levelled : ∀ address ∈ list, ∀ level, levelAt e.mnodes address = some level →
      levelAt mnodes address =
        some (if address ∈ second.map Prod.snd then level - 1 else level) := by
    intro address member level isLevel
    obtain ⟨mnode, stored, rfl⟩ := Option.map_eq_some_iff.mp isLevel
    rw [levelAt, lowers address, show (e.record .lower).mnode address = some mnode from stored]
    simp only [Option.map_some]
    split <;> rfl
  have others : ∀ row ∈ second :: rest, row ∈ rows := by
    intro row member
    rw [split]
    exact List.mem_cons_of_mem _ member
  refine ⟨_, lowered, ⟨?_, ⟨List.cons_ne_nil _ _, ?_, ?_, ?_, ?_, ?_, ?_⟩, ?_, ?_, ?_, ?_, ?_⟩⟩
  · refine spine.listed.congr ?_ levels
    intro address member mnode stored
    have after : Store.get mnodes address = _ := lowers address
    rw [show (e.record .lower).mnode address = some mnode from stored, Option.map_some] at after
    refine ⟨_, after, ?_, ?_⟩ <;> split <;> rfl
  · intro row inRows
    refine (spine.ladder.linked row (others row inRows)).congr fun address member => ?_
    obtain ⟨p, inRow, rfl⟩ := List.mem_map.mp member
    exact (rights row inRows p inRow).1
  · intro row inRows p member
    exact (rights row inRows p member).2.trans (spine.ladder.isOver row (others row inRows) p member)
  · exact fun row inRows => spine.ladder.first row (others row inRows)
  · exact fun row inRows => spine.ladder.once row (others row inRows)
  · have heads := spine.ladder.heads
    rw [split, List.map_cons, List.map_cons, List.reverse_cons, List.reverse_cons,
      List.append_assoc, List.singleton_append] at heads
    have nodup := heads.nodup
    rw [List.nodup_append] at nodup
    rw [List.map_cons, List.reverse_cons]
    refine heads.replace (fun address member => ?_) ?_ (show (0 : Nat) = 0 from rfl)
    · obtain ⟨row, inRest, rfl⟩ := List.mem_map.mp (List.mem_reverse.mp member)
      obtain ⟨j, located⟩ := List.getElem?_of_mem inRest
      obtain ⟨top, others, isRow⟩ := spine.ladder.first row
        (others row (List.mem_cons_of_mem _ inRest))
      have inRow : (top, base) ∈ row := by rw [isRow]; exact List.mem_cons_self
      have notSecond : (top, base).1 ∉ second.map Prod.fst := by
        intro again
        obtain ⟨q, inSecond', same⟩ := List.mem_map.mp again
        have shifted := spine.ladder.apart 1 (j + 2) second row isSecond
          (by rw [split]; exact located) q inSecond' (top, base) inRow same
        omega
      have cell := outside (j + 1) row located (top, base) inRow
      simp only [if_neg notSecond, Option.map_id'] at cell
      rw [downAt, downAt, isRow]
      exact congrArg (Option.map Inode.down) cell
    · have inRow : (head, base) ∈ second := by rw [same]; exact List.mem_cons_self
      have cell := outside 0 second rfl (head, base) inRow
      rw [show e.inode (head, base).1 = some inode from found, Option.map_some,
        if_pos (List.mem_map_of_mem inRow)] at cell
      rw [downAt, same]
      exact congrArg (Option.map Inode.down) cell
  · intro i j lower higher foundLower foundHigher p inLower q inHigher same
    have shifted := spine.ladder.apart (i + 1) (j + 1) lower higher (by rw [split]; exact foundLower)
      (by rw [split]; exact foundHigher) p inLower q inHigher same
    exact Nat.succ.inj shifted
  · have inRow : base ∈ second.map Prod.snd := by rw [same]; exact List.mem_cons_self
    rw [show levelAt mnodes base = _ from levelled base spine.listed.base_mem _ spine.height,
      if_pos inRow, split]
    rfl
  · intro i row located p member
    obtain ⟨inTail, level, isLevel, above⟩ := spine.tall (i + 1) row (by rw [split]; exact located) p member
    refine ⟨inTail, _, levelled p.2 (List.mem_of_mem_tail inTail) level isLevel, ?_⟩
    split <;> omega
  · intro address member
    refine (alive address).mpr ⟨spine.liveMnodes address member, fun again => ?_⟩
    obtain ⟨p, inRow, rfl⟩ := List.mem_map.mp again
    exact spine.distinct low inLow p inRow member
  · intro row inRows p member
    refine (alive p.1).mpr ⟨spine.liveInodes row (others row inRows) p member, fun again => ?_⟩
    obtain ⟨q, inRow, same⟩ := List.mem_map.mp again
    obtain ⟨j, located⟩ := List.getElem?_of_mem inRows
    exact absurd (spine.ladder.apart 0 (j + 1) low row isLow (by rw [split]; exact located) q inRow p
      member same) (Nat.succ_ne_zero j).symm
  · exact fun row inRows => spine.distinct row (others row inRows)

/-- A pass returns from every state, and leaves the links as they should be. -/
theorem updateIndexLayer_links (honest : platform.Honest) (spine : Spine e base list rows) :
    ∃ e' list' rows', e.updateIndexLayer platform = some e' ∧ Spine e' base list' rows' := by
  obtain ⟨inodes, middle, list', rows₁, raised, spine₁, isPrefix⟩ := spine.raiseIndexLayer_links honest
  rw [Enclave.updateIndexLayer, raised]
  simp only [Option.bind_eq_bind, Option.bind_some]
  cases drops : Enclave.lowers platform inodes middle with
  | none => exact ⟨middle, list', rows₁, rfl, spine₁⟩
  | some newLow =>
      have isHead : (rows₁.map firstOf)[1]? = some newLow := by
        rw [Enclave.lowers] at drops
        split at drops
        · obtain ⟨others, same⟩ := isPrefix
          rw [← same, List.getElem?_append_left (List.getElem?_eq_some_iff.mp drops).1]
          exact drops
        · cases drops
      rcases rows₁ with _ | ⟨low, _ | ⟨second, rest⟩⟩
      · exact absurd isHead (by simp)
      · exact absurd isHead (by simp)
      · obtain rfl : firstOf second = newLow := Option.some.inj isHead
        obtain ⟨e', lowered, spine'⟩ := spine₁.bgLowerIlevel_links honest rfl
        exact ⟨e', list', _, lowered, spine'⟩

theorem clearLevelsLoop_links (todo : List Nat) : ∀ fuel (e : Enclave),
    Chain (nextAt e.mnodes) (todo.headD 0) todo →
    (∀ address ∈ todo, ∃ mnode node, e.mnode address = some mnode ∧
      Store.get e.nodes mnode.node = some node) → todo.length < fuel → ∃ mnodes nodes,
      Enclave.clearLevelsLoop fuel e (todo.headD 0) = some { e with mnodes := mnodes, nodes := nodes } ∧
      LevelsOnly e.nodes nodes ∧ ∀ address mnode, e.mnode address = some mnode →
        ∃ level, Store.get mnodes address = some { mnode with level := level } ∧
          (address ∉ todo → level = mnode.level) := by
  induction todo with
  | nil =>
      intro fuel e _ _ bound
      obtain ⟨fuel, rfl⟩ := Nat.exists_eq_succ_of_ne_zero (Nat.ne_of_gt bound)
      exact ⟨e.mnodes, e.nodes, by rw [Enclave.clearLevelsLoop]; rfl, LevelsOnly.refl _,
        fun _ mnode found => ⟨mnode.level, found, fun _ => rfl⟩⟩
  | cons address rest ih =>
      intro fuel e chain data bound
      obtain ⟨fuel, rfl⟩ := Nat.exists_eq_succ_of_ne_zero (Nat.ne_of_gt (Nat.zero_lt_of_lt bound))
      have nonzero : address ≠ 0 := chain.ne_zero address List.mem_cons_self
      have nodup := chain.nodup
      have onward := (show Chain (nextAt e.mnodes) _ ([] ++ address :: rest) from chain).next_eq
      obtain ⟨_, _, successor, linked, later⟩ := chain
      rw [linked] at onward
      obtain rfl := Option.some.inj onward
      obtain ⟨mnode, node, found, stored⟩ := data address List.mem_cons_self
      rw [nextAt_found found] at linked
      have next : mnode.next = rest.headD 0 := Option.some.inj linked
      obtain ⟨nodes, nodeLevel, levels⟩ := e.setNodeLevel_returns 0 stored
      let cleared : Enclave :=
        ({ e with nodes := nodes } : Enclave).setMnode address { mnode with level := 0 }
      have others : ∀ other ∈ rest, cleared.mnode other = e.mnode other := fun other member =>
        Store.get_set_other _ fun same => (List.nodup_cons.mp nodup).1 (same ▸ member)
      obtain ⟨mnodes, nodes', loop, levels', kept⟩ := ih fuel cleared
        (later.congr fun other member => congrArg (Option.map Mnode.next) (others other member))
        (by
          intro other member
          obtain ⟨mnode', node', found', stored'⟩ := data other (List.mem_cons_of_mem _ member)
          obtain ⟨node'', stored'', _⟩ := levels.keys _ node' stored'
          exact ⟨mnode', node'', (others other member).trans found', stored''⟩)
        (by simpa using bound)
      refine ⟨mnodes, nodes', ?_, levels.trans levels', ?_⟩
      · have again : ({ e with nodes := nodes } : Enclave).mnode address = some mnode := found
        rw [List.headD_cons, Enclave.clearLevelsLoop, if_neg nonzero, found]
        simp only [Option.bind_eq_bind, Option.bind_some, nodeLevel]
        rw [Enclave.setLevel, again, next]
        exact loop
      · intro other mnode' found'
        by_cases same : address = other
        · subst same
          obtain rfl : mnode = mnode' := Option.some.inj (found.symm.trans found')
          obtain ⟨level, after, _⟩ := kept address { mnode with level := 0 } (Store.get_set_same _ _ _)
          exact ⟨level, after, fun notIn => absurd List.mem_cons_self notIn⟩
        · obtain ⟨level, after, unchanged⟩ :=
            kept other mnode' ((Store.get_set_other _ same).trans found')
          exact ⟨level, after, fun notIn => unchanged fun inRest =>
            notIn (List.mem_cons_of_mem _ inRest)⟩

theorem single (listed : Listed e.mnodes e.nodes base list) {key : Nat}
    (height : levelAt e.mnodes base = some 1) (nonzero : e.sentinel ≠ 0)
    (found : e.inode e.sentinel = some ⟨0, 0, base, key⟩)
    (liveMnodes : ∀ address ∈ list, address ∈ live e.trace) (liveSentinel : e.sentinel ∈ live e.trace)
    (apart : e.sentinel ∉ list) : Spine e base list [[(e.sentinel, base)]] := by
  have only : ∀ row ∈ [[(e.sentinel, base)]], row = [(e.sentinel, base)] :=
    fun row member => List.mem_singleton.mp member
  refine ⟨listed, ⟨List.cons_ne_nil _ _, ?_, ?_, ?_, ?_, ?_, ?_⟩, height, ?_, liveMnodes, ?_, ?_⟩
  · intro row member
    rw [only row member]
    exact ⟨rfl, nonzero, 0, rightAt_found found, rfl⟩
  · intro row member p inRow
    rw [only row member, List.mem_singleton] at inRow
    rw [inRow, intermedAt, show Store.get e.inodes e.sentinel = _ from found]
    rfl
  · intro row member
    exact ⟨e.sentinel, [], only row member⟩
  · intro row member
    rw [only row member]
    exact List.nodup_singleton _
  · exact ⟨rfl, nonzero, 0, downAt_found found, rfl⟩
  · intro i j low high foundLow foundHigh p _ q _ _
    have first := (List.getElem?_eq_some_iff.mp foundLow).1
    have second := (List.getElem?_eq_some_iff.mp foundHigh).1
    rw [List.length_singleton] at first second
    omega
  · intro i row located p member
    rw [only row (List.mem_of_getElem? located)] at member
    exact absurd member List.not_mem_nil
  · intro row member p inRow
    rw [only row member, List.mem_singleton] at inRow
    rw [inRow]
    exact liveSentinel
  · intro row member p inRow
    rw [only row member, List.mem_singleton] at inRow
    rw [inRow]
    exact apart

theorem resetIndex_links (honest : platform.Honest) (spine : Spine e base list rows) : ∃ e' rows',
    e.resetIndex platform = some e' ∧ Spine e' base list rows' := by
  obtain ⟨_, _, inode, _, _, found, intermed⟩ := spine.sentinel_head
  obtain ⟨rest, same⟩ := spine.listed.first
  obtain ⟨mnode, node, stored, onward, nodeFound⟩ :=
    spine.listed.found (show list = [] ++ base :: rest from same)
  have chain := spine.listed.chain
  have nodup := chain.nodup
  rw [same, List.nodup_cons] at nodup
  rw [same] at chain
  obtain ⟨nodes, nodeLevel, levels⟩ := e.setNodeLevel_returns 1 nodeFound
  let topped : Enclave := ({ e with nodes := nodes } : Enclave).setMnode base { mnode with level := 1 }
  have others : ∀ other ∈ rest, topped.mnode other = e.mnode other := fun other member =>
    Store.get_set_other _ fun isBase => nodup.1 (isBase ▸ member)
  have later : Chain (nextAt topped.mnodes) (rest.headD 0) rest := by
    obtain ⟨_, _, successor, linked, later⟩ := chain
    rw [nextAt_found stored] at linked
    obtain rfl := Option.some.inj linked
    rw [onward] at later
    exact later.congr fun other member => congrArg (Option.map Mnode.next) (others other member)
  obtain ⟨mnodes, nodes', cleared, levels', kept⟩ := clearLevelsLoop_links rest
    (topped.mnodes.length + 1) topped later
    (by
      intro other member
      obtain ⟨mnode', node', found', stored'⟩ := spine.listed.data other (by
        rw [same]
        exact List.mem_cons_of_mem _ member)
      obtain ⟨node'', stored'', _⟩ := levels.keys _ node' stored'
      exact ⟨mnode', node'', (others other member).trans found', stored''⟩)
    (Nat.lt_succ_of_le (chain_length_le topped.mnodes Mnode.next later))
  let bare : Enclave := { topped with mnodes := mnodes, nodes := nodes' }
  obtain ⟨nonzero, notLive⟩ := honest.places bare
  have notListed : platform.place bare ∉ list := fun member => notLive (spine.liveMnodes _ member)
  obtain ⟨level, atBase, unchanged⟩ := kept base { mnode with level := 1 } (Store.get_set_same _ _ _)
  obtain rfl : level = 1 := unchanged nodup.1
  have keptAll : ∀ address ∈ list,
      Store.get (Store.erase mnodes (platform.place bare)) address = Store.get mnodes address :=
    fun address member => Store.get_erase_other fun isFresh => notListed (isFresh ▸ member)
  have baseKept := (keptAll base spine.listed.base_mem).trans atBase
  refine ⟨{ bare with
      inodes := Store.set e.inodes (platform.place bare) ⟨0, 0, base, mnode.key⟩
      mnodes := Store.erase mnodes (platform.place bare)
      trace := .inodeNew (platform.place bare) mnode.marked :: e.trace
      sentinel := platform.place bare }, _, ?_, single ?_ (levelAt_found baseKept) nonzero
      (Store.get_set_same _ _ _)
      (fun address member => List.mem_cons_of_mem _ (spine.liveMnodes address member))
      List.mem_cons_self notListed⟩
  · have allocated : bare.inodeNew platform 0 0 base = some (platform.place bare, { bare with
        inodes := Store.set e.inodes (platform.place bare) ⟨0, 0, base, mnode.key⟩
        mnodes := Store.erase mnodes (platform.place bare)
        trace := .inodeNew (platform.place bare) mnode.marked :: e.trace }) := by
      rw [Enclave.inodeNew, show bare.mnode base = _ from atBase]
      rfl
    have again : ({ e with nodes := nodes } : Enclave).mnode base = some mnode := stored
    have levelSet : ({ e with nodes := nodes } : Enclave).setLevel base 1 = some topped := by
      rw [Enclave.setLevel, again]
      rfl
    rw [Enclave.resetIndex, found]
    simp only [Option.bind_eq_bind, Option.bind_some, intermed, show e.mnode base = _ from stored,
      nodeLevel, levelSet]
    rw [onward, cleared, Option.bind_some, show Enclave.inodeNew platform _ 0 0 base = _ from allocated]
    rfl
  · refine spine.listed.congr ?_ (levels.trans levels')
    intro address member mnode' stored'
    by_cases isBase : base = address
    · subst isBase
      obtain rfl : mnode = mnode' := Option.some.inj (stored.symm.trans stored')
      exact ⟨_, baseKept, rfl, rfl⟩
    · obtain ⟨level, after, _⟩ := kept address mnode' ((Store.get_set_other _ isBase).trans stored')
      exact ⟨_, (keptAll address member).trans after, rfl, rfl⟩

end Spine

namespace Setting

variable (setting : Setting)

theorem start_links : ∃ e base list rows, setting.start = some e ∧ Spine e base list rows := by
  obtain ⟨node, nodeFound, key⟩ := Option.map_eq_some_iff.mp setting.isSentinel
  let empty : Enclave := ⟨[], [], setting.nodes, 0, 0, 0, []⟩
  obtain ⟨mnodeNonzero, _⟩ := setting.honest.places empty
  let mnode : Mnode := ⟨0, setting.sentinel, node.key, 1, false⟩
  let under : Enclave := { empty with
    mnodes := Store.set [] (setting.platform.place empty) mnode
    trace := [.mnodeNew (setting.platform.place empty)] }
  obtain ⟨nonzero, notLive⟩ := setting.honest.places under
  have apart : setting.platform.place under ≠ setting.platform.place empty :=
    fun same => notLive (by rw [same]; exact List.mem_cons_self)
  have kept : Store.get (Store.erase under.mnodes (setting.platform.place under))
      (setting.platform.place empty) = some mnode :=
    (Store.get_erase_other apart).trans (Store.get_set_same _ _ _)
  let first : Enclave := { under with
    inodes := Store.set [] (setting.platform.place under) ⟨0, 0, setting.platform.place empty, node.key⟩
    mnodes := Store.erase under.mnodes (setting.platform.place under)
    trace := .inodeNew (setting.platform.place under) false :: under.trace
    sentinel := setting.platform.place under }
  refine ⟨first, setting.platform.place empty, [setting.platform.place empty], _, ?_, Spine.single ?_
    (levelAt_found kept) nonzero (Store.get_set_same _ _ _) ?_ List.mem_cons_self
    (fun member => apart (List.mem_singleton.mp member))⟩
  · have made : empty.mnodeNew setting.platform 0 setting.sentinel 1 =
        some (setting.platform.place empty, under) := by
      rw [Enclave.mnodeNew, show Store.get empty.nodes setting.sentinel = _ from nodeFound]
      rfl
    have linked : under.inodeNew setting.platform 0 0 (setting.platform.place empty) =
        some (setting.platform.place under, { first with sentinel := 0 }) := by
      rw [Enclave.inodeNew, show under.mnode _ = some mnode from Store.get_set_same _ _ _]
      rfl
    rw [Setting.start, Enclave.threadInit]
    exact (congrArg (Option.bind · _) made).trans (congrArg (Option.bind · _) linked)
  · refine ⟨⟨rfl, mnodeNonzero, 0, nextAt_found kept, rfl⟩, ⟨[], rfl⟩, ?_⟩
    intro address member
    rw [List.mem_singleton.mp member]
    exact ⟨mnode, node, kept, nodeFound⟩
  · intro address member
    rw [List.mem_singleton.mp member]
    exact List.mem_cons_of_mem _ List.mem_cons_self

theorem run_links (calls : List Call) : ∀ e, setting.run calls = some e →
    ∃ base list rows, Spine e base list rows := by
  obtain ⟨first, base, list, rows, begins, spine⟩ := setting.start_links
  refine Runs.run_invariant
    (fun state => ∀ e, state = some e → ∃ base list rows, Spine e base list rows) ?_ ?_ calls
  · intro e started
    rw [begins] at started
    exact ⟨base, list, rows, Option.some.inj started ▸ spine⟩
  · intro state call holds e' turned
    obtain ⟨e, rfl, called⟩ := Option.bind_eq_some_iff.mp turned
    obtain ⟨base, list, rows, spine⟩ := holds e rfl
    cases call with
    | job job =>
        obtain ⟨list', spine'⟩ := spine.job setting.honest called
        exact ⟨base, list', rows, spine'⟩
    | pass =>
        obtain ⟨e'', list', rows', passed, spine'⟩ := spine.updateIndexLayer_links setting.honest
        obtain rfl : e'' = e' := Option.some.inj (passed.symm.trans called)
        exact ⟨base, list', rows', spine'⟩
    | reset =>
        obtain ⟨e'', rows', done, spine'⟩ := spine.resetIndex_links setting.honest
        obtain rfl : e'' = e' := Option.some.inj (done.symm.trans called)
        exact ⟨base, list, rows', spine'⟩

end Setting

/-- A pass from any state that a run has come to creates no inode over a marked mnode:
`bg_raise_mlevel` because of the traversal before it, `bg_raise_ilevel` in whatever state it is
called. The pass returns, so that neither call is cut short. -/
theorem deleted_never_raised (setting : Setting) (calls : List Call) {e : Enclave}
    (reached : setting.run calls = some e) :
    (e.updateIndexLayer setting.platform).isSome = true ∧
    (∃ before mnode inode raised after,
      e.raiseMlevelCall setting.platform = some (before, mnode, inode) ∧
      before.bgRaiseMlevel setting.platform mnode inode = some (raised, after) ∧
      RaisedUnmarked before after) ∧
    ∀ (before : Enclave) iprev iprevTall height raised after,
      before.bgRaiseIlevel setting.platform iprev iprevTall height = some (raised, after) →
        RaisedUnmarked before after := by
  obtain ⟨base, list, rows, spine⟩ := setting.run_links calls e reached
  refine ⟨?_, ?_, fun before _ _ _ _ after => Enclave.bgRaiseIlevel_unmarked⟩
  · obtain ⟨e', _, _, passed, _⟩ := spine.updateIndexLayer_links setting.honest
    rw [passed]
    rfl
  · obtain ⟨before, _, lowest, raised, after, _, called, _, _, _, _, _, raises, _, _, unmarked⟩ :=
      spine.raiseMlevelCall_links setting.honest
    exact ⟨before, base, lowest, raised, after, called, raises, unmarked⟩

/-- The last pass of this run has deleted an inode that its index still leads to. -/
theorem staggered_raises_unmarked : ∃ e, (numaSetting (List.range' 1 15)).run staggered = some e ∧
    (e.updateIndexLayer numa.guarded).isSome = true ∧
    ∃ before mnode inode raised after, e.raiseMlevelCall numa.guarded = some (before, mnode, inode) ∧
      before.bgRaiseMlevel numa.guarded mnode inode = some (raised, after) ∧ RaisedUnmarked before after := by
  obtain ⟨e, ran, _⟩ := staggered_ends
  obtain ⟨returns, raised, _⟩ := deleted_never_raised (numaSetting (List.range' 1 15)) staggered ran
  exact ⟨e, ran, returns, raised⟩

end Hosk
