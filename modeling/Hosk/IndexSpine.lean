import Hosk.IndexLower

/-!
What holds of an enclave even where its index has led a search astray: the mnodes form one chain,
whatever the order of their keys, and the rows of inodes are linked as the helper left them.
-/

namespace Hosk

def levelAt (mnodes : Store Mnode) (address : Nat) : Option Nat :=
  (Store.get mnodes address).map Mnode.level

theorem levelAt_found {mnodes : Store Mnode} {address : Nat} {mnode : Mnode}
    (found : Store.get mnodes address = some mnode) : levelAt mnodes address = some mnode.level := by
  rw [levelAt, found]
  rfl

def intermedAt (inodes : Store Inode) (address : Nat) : Option Nat :=
  (Store.get inodes address).map Inode.intermed

structure Listed (mnodes : Store Mnode) (nodes : Nodes) (base : Nat) (list : List Nat) : Prop where
  chain : Chain (nextAt mnodes) base list
  first : ∃ rest, list = base :: rest
  data : ∀ address ∈ list, ∃ mnode node, Store.get mnodes address = some mnode ∧
    Store.get nodes mnode.node = some node

structure Ladder (inodes : Store Inode) (sentinel base : Nat) (rows : List (List (Nat × Nat))) :
    Prop where
  nonempty : rows ≠ []
  linked : ∀ row ∈ rows, Chain (rightAt inodes) (firstOf row) (row.map Prod.fst)
  isOver : ∀ row ∈ rows, ∀ p ∈ row, intermedAt inodes p.1 = some p.2
  first : ∀ row ∈ rows, ∃ head rest, row = (head, base) :: rest
  once : ∀ row ∈ rows, (row.map Prod.snd).Nodup
  heads : Chain (downAt inodes) sentinel (rows.map firstOf).reverse
  apart : ∀ (i j : Nat) low high, rows[i]? = some low → rows[j]? = some high →
    ∀ p ∈ low, ∀ q ∈ high, p.1 = q.1 → i = j

/-- Every inode linked in row `i` lies over a listed mnode with a level above `i`, so that no
traversal deletes it. -/
structure Spine (e : Enclave) (base : Nat) (list : List Nat) (rows : List (List (Nat × Nat))) :
    Prop where
  listed : Listed e.mnodes e.nodes base list
  ladder : Ladder e.inodes e.sentinel base rows
  height : levelAt e.mnodes base = some rows.length
  tall : ∀ i row, rows[i]? = some row → ∀ p ∈ row.tail, p.2 ∈ list.tail ∧
    ∃ level, levelAt e.mnodes p.2 = some level ∧ i < level
  liveMnodes : ∀ address ∈ list, address ∈ live e.trace
  liveInodes : ∀ row ∈ rows, ∀ p ∈ row, p.1 ∈ live e.trace
  distinct : ∀ row ∈ rows, ∀ p ∈ row, p.1 ∉ list

namespace Listed

variable {mnodes mnodes' : Store Mnode} {nodes nodes' : Nodes} {base : Nat} {list : List Nat}

theorem congr (listed : Listed mnodes nodes base list)
    (links : ∀ address ∈ list, ∀ mnode, Store.get mnodes address = some mnode →
      ∃ mnode', Store.get mnodes' address = some mnode' ∧ mnode'.next = mnode.next ∧
        mnode'.node = mnode.node)
    (levels : LevelsOnly nodes nodes') : Listed mnodes' nodes' base list := by
  refine ⟨listed.chain.congr ?_, listed.first, ?_⟩
  · intro address member
    obtain ⟨mnode, _, found, _⟩ := listed.data address member
    obtain ⟨mnode', found', next, _⟩ := links address member mnode found
    rw [nextAt_found found, nextAt_found found', next]
  · intro address member
    obtain ⟨mnode, node, found, stored⟩ := listed.data address member
    obtain ⟨mnode', found', _, same⟩ := links address member mnode found
    obtain ⟨node', stored', _⟩ := levels.keys _ node stored
    exact ⟨mnode', node', found', by rw [same]; exact stored'⟩

theorem base_mem (listed : Listed mnodes nodes base list) : base ∈ list := by
  obtain ⟨rest, rfl⟩ := listed.first
  exact List.mem_cons_self

theorem found (listed : Listed mnodes nodes base list) {before after : List Nat} {address : Nat}
    (split : list = before ++ address :: after) : ∃ mnode node,
      Store.get mnodes address = some mnode ∧ mnode.next = after.headD 0 ∧
        Store.get nodes mnode.node = some node := by
  obtain ⟨mnode, node, found, stored⟩ := listed.data address (by simp [split])
  have onward := listed.chain
  rw [split] at onward
  have next := onward.next_eq
  rw [nextAt_found found] at next
  exact ⟨mnode, node, found, Option.some.inj next, stored⟩

theorem length_le (listed : Listed mnodes nodes base list) : list.length ≤ mnodes.length :=
  chain_length_le mnodes Mnode.next listed.chain

theorem tail_ne_base (listed : Listed mnodes nodes base list) : base ∉ list.tail := by
  obtain ⟨rest, rfl⟩ := listed.first
  exact (List.nodup_cons.mp listed.chain.nodup).1

theorem begins_same {before after after' : List Nat} {address : Nat}
    (begins : ∃ rest, before ++ address :: after = base :: rest) :
    ∃ rest, before ++ address :: after' = base :: rest := by
  obtain ⟨rest, same⟩ := begins
  cases before with
  | nil => exact ⟨after', by rw [(List.cons.inj same).1]; rfl⟩
  | cons head tail => exact ⟨tail ++ address :: after', by rw [(List.cons.inj same).1]; rfl⟩

theorem insert (listed : Listed mnodes nodes base list) {before after : List Nat}
    {address fresh : Nat} {mnode new : Mnode} {node : Node}
    (split : list = before ++ address :: after) (found : Store.get mnodes address = some mnode)
    (nonzero : fresh ≠ 0) (notListed : fresh ∉ list) (next : new.next = mnode.next)
    (stored : Store.get nodes new.node = some node) :
    Listed (Store.set (Store.set mnodes fresh new) address { mnode with next := fresh }) nodes base
      (before ++ address :: fresh :: after) := by
  have chain := listed.chain
  have nodup := chain.nodup
  rw [split] at chain nodup
  rw [List.nodup_append, List.nodup_cons] at nodup
  have inList : address ∈ list := by simp [split]
  have apart : address ≠ fresh := fun same => notListed (same ▸ inList)
  have elsewhere : ∀ other, other ≠ address → other ≠ fresh →
      Store.get (Store.set (Store.set mnodes fresh new) address { mnode with next := fresh }) other =
        Store.get mnodes other := by
    intro other notAddress notFresh
    rw [Store.get_set_other _ (Ne.symm notAddress), Store.get_set_other _ (Ne.symm notFresh)]
  have atFresh : Store.get
      (Store.set (Store.set mnodes fresh new) address { mnode with next := fresh }) fresh =
        some new := by
    rw [Store.get_set_other _ apart, Store.get_set_same]
  have atAddress : Store.get
      (Store.set (Store.set mnodes fresh new) address { mnode with next := fresh }) address =
        some { mnode with next := fresh } := Store.get_set_same _ _ _
  refine ⟨chain.insertAfter nonzero ?_ ?_ (nextAt_found atAddress) ?_, ?_, ?_⟩
  · intro other inBefore
    rw [nextAt, nextAt, elsewhere other (nodup.2.2 other inBefore address List.mem_cons_self)
      (fun same => notListed (by simp [split, ← same, inBefore]))]
  · intro other inAfter
    rw [nextAt, nextAt, elsewhere other (fun same => nodup.2.1.1 (same ▸ inAfter))
      (fun same => notListed (by simp [split, ← same, inAfter]))]
  · rw [nextAt_found atFresh, nextAt_found found, next]
  · exact begins_same (split ▸ listed.first)
  · intro other member
    by_cases isFresh : other = fresh
    · exact ⟨new, node, by rw [isFresh, atFresh], stored⟩
    by_cases isAddress : other = address
    · obtain ⟨mnode', node', found', stored'⟩ := listed.data address inList
      obtain rfl : mnode = mnode' := Option.some.inj (found.symm.trans found')
      refine ⟨{ mnode with next := fresh }, node', ?_, stored'⟩
      rw [isAddress]
      exact atAddress
    · obtain ⟨mnode', node', found', stored'⟩ := listed.data other (by
        simp only [split, List.mem_append, List.mem_cons] at member ⊢
        tauto)
      exact ⟨mnode', node', by rw [elsewhere other isAddress isFresh, found'], stored'⟩

theorem remove (listed : Listed mnodes nodes base list) {before after : List Nat}
    {address removed : Nat} {mnode gone : Mnode}
    (split : list = before ++ address :: removed :: after)
    (found : Store.get mnodes address = some mnode) (foundGone : Store.get mnodes removed = some gone) :
    Listed (Store.set mnodes address { mnode with next := gone.next }) nodes base
      (before ++ address :: after) := by
  have chain := listed.chain
  have nodup := chain.nodup
  rw [split] at chain nodup
  rw [List.nodup_append, List.nodup_cons] at nodup
  have elsewhere : ∀ other, other ≠ address →
      Store.get (Store.set mnodes address { mnode with next := gone.next }) other =
        Store.get mnodes other := fun other apart => Store.get_set_other _ (Ne.symm apart)
  have atAddress : Store.get (Store.set mnodes address { mnode with next := gone.next }) address =
      some { mnode with next := gone.next } := Store.get_set_same _ _ _
  refine ⟨chain.removeAfter ?_ ?_ ?_, ?_, ?_⟩
  · intro other inBefore
    rw [nextAt, nextAt, elsewhere other (nodup.2.2 other inBefore address List.mem_cons_self)]
  · intro other inAfter
    rw [nextAt, nextAt, elsewhere other
      (fun same => nodup.2.1.1 (same ▸ List.mem_cons_of_mem _ inAfter))]
  · rw [nextAt_found atAddress, nextAt_found foundGone]
  · exact begins_same (split ▸ listed.first)
  · intro other member
    by_cases isAddress : other = address
    · obtain ⟨mnode', node', found', stored'⟩ := listed.data address (by simp [split])
      obtain rfl : mnode = mnode' := Option.some.inj (found.symm.trans found')
      refine ⟨{ mnode with next := gone.next }, node', ?_, stored'⟩
      rw [isAddress]
      exact atAddress
    · obtain ⟨mnode', node', found', stored'⟩ := listed.data other (by
        simp only [split, List.mem_append, List.mem_cons] at member ⊢
        tauto)
      exact ⟨mnode', node', by rw [elsewhere other isAddress, found'], stored'⟩

end Listed

namespace Ladder

variable {inodes inodes' : Store Inode} {sentinel base i : Nat} {rows : List (List (Nat × Nat))}
  {row row' : List (Nat × Nat)}

theorem congr (ladder : Ladder inodes sentinel base rows)
    (agree : ∀ row ∈ rows, ∀ p ∈ row, Store.get inodes' p.1 = Store.get inodes p.1) :
    Ladder inodes' sentinel base rows := by
  refine ⟨ladder.nonempty, ?_, ?_, ladder.first, ladder.once, ladder.heads.congr ?_, ladder.apart⟩
  · intro row inRows
    refine (ladder.linked row inRows).congr fun address member => ?_
    obtain ⟨p, inRow, rfl⟩ := List.mem_map.mp member
    rw [rightAt, rightAt, agree row inRows p inRow]
  · intro row inRows p inRow
    rw [intermedAt, agree row inRows p inRow]
    exact ladder.isOver row inRows p inRow
  · intro address member
    obtain ⟨row, inRows, rfl⟩ := List.mem_map.mp (List.mem_reverse.mp member)
    obtain ⟨head, rest, same⟩ := ladder.first row inRows
    have agrees := agree row inRows (head, base) (by rw [same]; exact List.mem_cons_self)
    rw [downAt, downAt, same]
    exact congrArg (Option.map Inode.down) agrees

theorem nonzero (ladder : Ladder inodes sentinel base rows) (inRows : row ∈ rows) {p : Nat × Nat}
    (inRow : p ∈ row) : p.1 ≠ 0 :=
  (ladder.linked row inRows).ne_zero p.1 (List.mem_map_of_mem inRow)

theorem found (ladder : Ladder inodes sentinel base rows) (inRows : row ∈ rows)
    {before after : List (Nat × Nat)} {p : Nat × Nat} (split : row = before ++ p :: after) :
    ∃ inode, Store.get inodes p.1 = some inode ∧ inode.intermed = p.2 ∧
      inode.right = firstOf after := by
  obtain ⟨inode, found, intermed⟩ := Option.map_eq_some_iff.mp
    (ladder.isOver row inRows p (by simp [split]))
  have chain := ladder.linked row inRows
  rw [split, List.map_append, List.map_cons] at chain
  have onward := chain.next_eq
  rw [rightAt_found found] at onward
  exact ⟨inode, found, intermed, Option.some.inj onward⟩

theorem row_length_le (ladder : Ladder inodes sentinel base rows) (inRows : row ∈ rows) :
    row.length ≤ inodes.length := by
  have bound := chain_length_le inodes Inode.right (ladder.linked row inRows)
  rwa [List.length_map] at bound

theorem rows_length_le (ladder : Ladder inodes sentinel base rows) :
    rows.length ≤ inodes.length := by
  have bound := chain_length_le inodes Inode.down ladder.heads
  rwa [List.length_reverse, List.length_map] at bound

theorem setRow (ladder : Ladder inodes sentinel base rows) (located : rows[i]? = some row)
    (sameHead : row'.head? = row.head?)
    (linked : Chain (rightAt inodes') (firstOf row') (row'.map Prod.fst))
    (isOver : ∀ p ∈ row', intermedAt inodes' p.1 = some p.2) (once : (row'.map Prod.snd).Nodup)
    (members : ∀ p ∈ row', p ∈ row ∨ ∀ other ∈ rows, ∀ q ∈ other, q.1 ≠ p.1)
    (elsewhere : ∀ other ∈ rows, ∀ q ∈ other, q ∉ row → Store.get inodes' q.1 = Store.get inodes q.1)
    (downs : ∀ p ∈ row, downAt inodes' p.1 = downAt inodes p.1) :
    Ladder inodes' sentinel base (rows.set i row') := by
  have inRows : row ∈ rows := List.mem_of_getElem? located
  have bound : i < rows.length := (List.getElem?_eq_some_iff.mp located).1
  have inSet : ∀ other ∈ rows.set i row', other = row' ∨
      other ∈ rows ∧ ∃ j, j ≠ i ∧ rows[j]? = some other := by
    intro other member
    obtain ⟨j, found⟩ := List.getElem?_of_mem member
    rw [List.getElem?_set] at found
    by_cases same : i = j
    · rw [if_pos same, if_pos (same ▸ bound)] at found
      exact .inl (Option.some.inj found).symm
    · rw [if_neg same] at found
      exact .inr ⟨List.mem_of_getElem? found, j, Ne.symm same, found⟩
  have outside : ∀ (j : Nat) other, j ≠ i → rows[j]? = some other → ∀ q ∈ other,
      Store.get inodes' q.1 = Store.get inodes q.1 := by
    intro j other different found q inOther
    refine elsewhere other (List.mem_of_getElem? found) q inOther fun inRow => ?_
    exact different (ladder.apart j i other row found located q inOther q inRow rfl)
  have firstSame : firstOf row' = firstOf row := by
    cases row' <;> cases row <;> simp_all [firstOf]
  refine ⟨fun none => ladder.nonempty ((List.set_eq_nil_iff i row').mp none), ?_, ?_, ?_, ?_, ?_, ?_⟩
  · intro other member
    rcases inSet other member with rfl | ⟨inOld, j, different, found⟩
    · exact linked
    · refine (ladder.linked other inOld).congr fun address inside => ?_
      obtain ⟨q, inOther, rfl⟩ := List.mem_map.mp inside
      rw [rightAt, rightAt, outside j other different found q inOther]
  · intro other member q inOther
    rcases inSet other member with rfl | ⟨inOld, j, different, found⟩
    · exact isOver q inOther
    · rw [intermedAt, outside j other different found q inOther]
      exact ladder.isOver other inOld q inOther
  · intro other member
    rcases inSet other member with rfl | ⟨inOld, _⟩
    · obtain ⟨head, rest, same⟩ := ladder.first row inRows
      rw [same, List.head?_cons] at sameHead
      exact ⟨head, other.tail, (List.cons_head?_tail sameHead).symm⟩
    · exact ladder.first other inOld
  · intro other member
    rcases inSet other member with rfl | ⟨inOld, _⟩
    · exact once
    · exact ladder.once other inOld
  · rw [Repr.heads_set located firstSame]
    refine ladder.heads.congr fun address member => ?_
    obtain ⟨other, inOld, rfl⟩ := List.mem_map.mp (List.mem_reverse.mp member)
    obtain ⟨head, rest, same⟩ := ladder.first other inOld
    have inOther : (head, base) ∈ other := by rw [same]; exact List.mem_cons_self
    rw [show firstOf other = (head, base).1 by rw [same]; rfl]
    by_cases inRow : (head, base) ∈ row
    · exact downs _ inRow
    · rw [downAt, downAt, elsewhere other inOld _ inOther inRow]
  · intro j k low high foundLow foundHigh p inLow q inHigh same
    have origin : ∀ (j : Nat) other, (rows.set i row')[j]? = some other → ∀ p ∈ other,
        (∃ old, rows[j]? = some old ∧ p ∈ old) ∨
          j = i ∧ ∀ other ∈ rows, ∀ q ∈ other, q.1 ≠ p.1 := by
      intro j other found p inOther
      rw [List.getElem?_set] at found
      by_cases isRow : i = j
      · rw [if_pos isRow, if_pos (isRow ▸ bound)] at found
        obtain rfl := Option.some.inj found
        exact (members p inOther).imp (fun inRow => ⟨row, isRow ▸ located, inRow⟩)
          fun apart => ⟨isRow.symm, apart⟩
      · rw [if_neg isRow] at found
        exact .inl ⟨other, found, inOther⟩
    rcases origin j low foundLow p inLow with ⟨old, foundOld, inOld⟩ | ⟨rfl, freshP⟩
    · rcases origin k high foundHigh q inHigh with ⟨old', foundOld', inOld'⟩ | ⟨rfl, freshQ⟩
      · exact ladder.apart j k old old' foundOld foundOld' p inOld q inOld' same
      · exact absurd same (freshQ old (List.mem_of_getElem? foundOld) p inOld)
    · rcases origin k high foundHigh q inHigh with ⟨old', foundOld', inOld'⟩ | ⟨rfl, _⟩
      · exact absurd same.symm (freshP old' (List.mem_of_getElem? foundOld') q inOld')
      · rfl

theorem push (ladder : Ladder inodes sentinel base rows) {fresh key : Nat} (nonzero : fresh ≠ 0)
    (notLinked : ∀ row ∈ rows, ∀ p ∈ row, fresh ≠ p.1)
    (found : Store.get inodes fresh = some ⟨0, sentinel, base, key⟩) :
    Ladder inodes fresh base (rows ++ [[(fresh, base)]]) := by
  have inPushed : ∀ row ∈ rows ++ [[(fresh, base)]], row ∈ rows ∨ row = [(fresh, base)] := by
    intro row member
    exact (List.mem_append.mp member).imp_right List.mem_singleton.mp
  refine ⟨List.append_ne_nil_of_right_ne_nil rows (List.cons_ne_nil _ _), ?_, ?_, ?_, ?_, ?_, ?_⟩
  · intro row member
    rcases inPushed row member with old | rfl
    · exact ladder.linked row old
    · exact ⟨rfl, nonzero, 0, rightAt_found found, rfl⟩
  · intro row member p inRow
    rcases inPushed row member with old | rfl
    · exact ladder.isOver row old p inRow
    · rw [List.mem_singleton.mp inRow, intermedAt, found]
      rfl
  · intro row member
    rcases inPushed row member with old | rfl
    · exact ladder.first row old
    · exact ⟨fresh, [], rfl⟩
  · intro row member
    rcases inPushed row member with old | rfl
    · exact ladder.once row old
    · exact List.nodup_singleton _
  · rw [List.map_append, List.map_singleton, List.reverse_append]
    exact ⟨rfl, nonzero, sentinel, downAt_found found, ladder.heads⟩
  · intro j k low high foundLow foundHigh p inLow q inHigh same
    have located : ∀ (j : Nat) row, (rows ++ [[(fresh, base)]])[j]? = some row →
        rows[j]? = some row ∨ j = rows.length ∧ row = [(fresh, base)] := by
      intro j row found
      rw [List.getElem?_append] at found
      split at found
      · exact .inl found
      · obtain ⟨bound, value⟩ := List.getElem?_eq_some_iff.mp found
        rw [List.length_singleton] at bound
        exact .inr ⟨by omega, List.mem_singleton.mp (List.mem_of_getElem? found)⟩
    rcases located j low foundLow with oldLow | ⟨isLow, rfl⟩
    · rcases located k high foundHigh with oldHigh | ⟨_, rfl⟩
      · exact ladder.apart j k low high oldLow oldHigh p inLow q inHigh same
      · rw [List.mem_singleton.mp inHigh] at same
        exact absurd same.symm (notLinked low (List.mem_of_getElem? oldLow) p inLow)
    · rcases located k high foundHigh with oldHigh | ⟨isHigh, rfl⟩
      · rw [List.mem_singleton.mp inLow] at same
        exact absurd same (notLinked high (List.mem_of_getElem? oldHigh) q inHigh)
      · rw [isLow, isHigh]

theorem insert (ladder : Ladder inodes sentinel base rows) (located : rows[i]? = some row)
    {first last : List (Nat × Nat)} {p : Nat × Nat} {fresh : Nat} {inode : Inode} (new : Inode)
    (split : row = first ++ p :: last) (found : Store.get inodes p.1 = some inode)
    (nonzero : fresh ≠ 0) (notLinked : ∀ other ∈ rows, ∀ q ∈ other, q.1 ≠ fresh)
    (right : new.right = firstOf last) (once : new.intermed ∉ row.map Prod.snd) :
    Ladder (Store.set (Store.set inodes fresh new) p.1 { inode with right := fresh }) sentinel base
      (rows.set i (first ++ p :: (fresh, new.intermed) :: last)) := by
  have inRows := List.mem_of_getElem? located
  have inRow : p ∈ row := by simp [split]
  obtain ⟨inode', found', _, right'⟩ := ladder.found inRows split
  obtain rfl : inode' = inode := Option.some.inj (found'.symm.trans found)
  have chain := ladder.linked row inRows
  have nodup := chain.nodup
  have start : firstOf (first ++ p :: (fresh, new.intermed) :: last) = firstOf (first ++ p :: last) :=
    Repr.firstOf_append_cons
  rw [split, List.map_append, List.map_cons] at chain nodup
  rw [List.nodup_append, List.nodup_cons] at nodup
  have cells : ∀ address, address ≠ p.1 → address ≠ fresh →
      Store.get (Store.set (Store.set inodes fresh new) p.1 { inode' with right := fresh }) address =
        Store.get inodes address := by
    intro address notP notFresh
    rw [Store.get_set_other _ (Ne.symm notP), Store.get_set_other _ (Ne.symm notFresh)]
  have atFresh : Store.get
      (Store.set (Store.set inodes fresh new) p.1 { inode' with right := fresh }) fresh = some new := by
    rw [Store.get_set_other _ (notLinked row inRows p inRow), Store.get_set_same]
  have atP : Store.get
      (Store.set (Store.set inodes fresh new) p.1 { inode' with right := fresh }) p.1 =
        some { inode' with right := fresh } := Store.get_set_same _ _ _
  have members : ∀ q ∈ first ++ p :: (fresh, new.intermed) :: last,
      q ∈ row ∨ q = (fresh, new.intermed) := by
    intro q member
    simp only [split, List.mem_append, List.mem_cons] at member ⊢
    tauto
  have unchanged : ∀ q ∈ row, intermedAt (Store.set (Store.set inodes fresh new) p.1
      { inode' with right := fresh }) q.1 = intermedAt inodes q.1 ∧
      downAt (Store.set (Store.set inodes fresh new) p.1
      { inode' with right := fresh }) q.1 = downAt inodes q.1 := by
    intro q member
    by_cases same : q.1 = p.1
    · rw [same, intermedAt, intermedAt, downAt, downAt, atP, found]
      exact ⟨rfl, rfl⟩
    · rw [intermedAt, intermedAt, downAt, downAt, cells q.1 same (notLinked row inRows q member)]
      exact ⟨rfl, rfl⟩
  refine ladder.setRow located ?_ ?_ ?_ ?_ ?_ ?_ fun q member => (unchanged q member).2
  · rw [split]
    cases first <;> rfl
  · rw [start, List.map_append, List.map_cons, List.map_cons]
    refine chain.insertAfter nonzero ?_ ?_ (rightAt_found atP) ?_
    · intro address member
      obtain ⟨q, inFirst, rfl⟩ := List.mem_map.mp member
      rw [rightAt, rightAt, cells q.1 (nodup.2.2 q.1 member p.1 List.mem_cons_self)
        (notLinked row inRows q (by simp [split, inFirst]))]
    · intro address member
      obtain ⟨q, inLast, rfl⟩ := List.mem_map.mp member
      rw [rightAt, rightAt, cells q.1 (fun same => nodup.2.1.1 (same ▸ member))
        (notLinked row inRows q (by simp [split, inLast]))]
    · rw [rightAt_found atFresh, rightAt_found found, right, right']
  · intro q member
    rcases members q member with inOld | rfl
    · rw [(unchanged q inOld).1]
      exact ladder.isOver row inRows q inOld
    · rw [intermedAt, atFresh]
      rfl
  · have distinct := ladder.once row inRows
    rw [split] at distinct once
    simp only [List.map_append, List.map_cons] at distinct once ⊢
    have permuted : (first.map Prod.snd ++ p.2 :: new.intermed :: last.map Prod.snd).Perm
        (new.intermed :: (first.map Prod.snd ++ p.2 :: last.map Prod.snd)) := by
      have moved : ((first.map Prod.snd ++ [p.2]) ++ new.intermed :: last.map Prod.snd).Perm _ :=
        List.perm_middle
      simpa using moved
    exact permuted.nodup_iff.mpr (List.nodup_cons.mpr ⟨once, distinct⟩)
  · intro q member
    exact (members q member).imp_right fun same => by rw [same]; exact notLinked
  · intro other inOld q inOther notInRow
    refine cells q.1 (fun same => notInRow ?_) (notLinked other inOld q inOther)
    obtain ⟨j, locatedOther⟩ := List.getElem?_of_mem inOld
    obtain rfl := ladder.apart j i other row locatedOther located q inOther p inRow same
    rw [located] at locatedOther
    exact Option.some.inj locatedOther ▸ inOther

theorem unlink (ladder : Ladder inodes sentinel base rows) (located : rows[i]? = some row)
    {first last : List (Nat × Nat)} {p q : Nat × Nat} {inode : Inode}
    (split : row = first ++ p :: q :: last) (found : Store.get inodes p.1 = some inode) :
    Ladder (Store.set inodes p.1 { inode with right := firstOf last }) sentinel base
      (rows.set i (first ++ p :: last)) := by
  have inRows := List.mem_of_getElem? located
  have inRow : p ∈ row := by simp [split]
  obtain ⟨gone, foundGone, _, onward⟩ := ladder.found inRows
    (show row = (first ++ [p]) ++ q :: last by simp [split])
  have chain := ladder.linked row inRows
  have nodup := chain.nodup
  have start : firstOf (first ++ p :: last) = firstOf (first ++ p :: q :: last) :=
    Repr.firstOf_append_cons
  rw [split, List.map_append, List.map_cons, List.map_cons] at chain nodup
  rw [List.nodup_append, List.nodup_cons] at nodup
  have kept : (first ++ p :: last).Sublist row := by
    rw [split]
    exact (List.Sublist.refl first).append ((List.sublist_cons_self q last).cons_cons p)
  have cells : ∀ address, address ≠ p.1 →
      Store.get (Store.set inodes p.1 { inode with right := firstOf last }) address =
        Store.get inodes address := fun address apart => Store.get_set_other _ (Ne.symm apart)
  have atP : Store.get (Store.set inodes p.1 { inode with right := firstOf last }) p.1 =
      some { inode with right := firstOf last } := Store.get_set_same _ _ _
  have unchanged : ∀ r, intermedAt (Store.set inodes p.1 { inode with right := firstOf last }) r =
      intermedAt inodes r ∧
      downAt (Store.set inodes p.1 { inode with right := firstOf last }) r = downAt inodes r := by
    intro r
    by_cases same : r = p.1
    · rw [same, intermedAt, intermedAt, downAt, downAt, atP, found]
      exact ⟨rfl, rfl⟩
    · rw [intermedAt, intermedAt, downAt, downAt, cells r same]
      exact ⟨rfl, rfl⟩
  refine ladder.setRow located ?_ ?_ ?_ ((ladder.once row inRows).sublist (kept.map Prod.snd))
    (fun r member => .inl (kept.subset member)) ?_ fun r _ => (unchanged r.1).2
  · rw [split]
    cases first <;> rfl
  · rw [start, List.map_append, List.map_cons]
    refine chain.removeAfter ?_ ?_ ?_
    · intro address member
      rw [rightAt, rightAt, cells address (nodup.2.2 address member p.1 List.mem_cons_self)]
    · intro address member
      rw [rightAt, rightAt, cells address
        fun same => nodup.2.1.1 (same ▸ List.mem_cons_of_mem _ member)]
    · rw [rightAt_found atP, rightAt_found foundGone, onward]
  · intro r member
    rw [(unchanged r.1).1]
    exact ladder.isOver row inRows r (kept.subset member)
  · intro other inOld r inOther notInRow
    refine cells r.1 fun same => notInRow ?_
    obtain ⟨j, locatedOther⟩ := List.getElem?_of_mem inOld
    obtain rfl := ladder.apart j i other row locatedOther located r inOther p inRow same
    rw [located] at locatedOther
    exact Option.some.inj locatedOther ▸ inOther

end Ladder

def Clear (mnodes : Store Mnode) (address : Nat) : Prop :=
  ∀ mnode, Store.get mnodes address = some mnode → mnode.level = 0 → mnode.marked = false

namespace Spine

variable {e e' : Enclave} {base : Nat} {list : List Nat} {rows : List (List (Nat × Nat))}
  {platform : Platform}

theorem congr (spine : Spine e base list rows)
    (links : ∀ address ∈ list, ∀ mnode, e.mnode address = some mnode →
      ∃ marked, e'.mnode address = some { mnode with marked := marked })
    (inodes : ∀ row ∈ rows, ∀ p ∈ row, e'.inode p.1 = e.inode p.1)
    (levels : LevelsOnly e.nodes e'.nodes) (sentinel : e'.sentinel = e.sentinel)
    (kept : ∀ address, address ∈ list ∨ (∃ row ∈ rows, ∃ p ∈ row, p.1 = address) →
      address ∈ live e.trace → address ∈ live e'.trace) : Spine e' base list rows := by
  have level : ∀ address ∈ list, levelAt e'.mnodes address = levelAt e.mnodes address := by
    intro address member
    obtain ⟨mnode, _, found, _⟩ := spine.listed.data address member
    obtain ⟨marked, found'⟩ := links address member mnode found
    rw [levelAt, levelAt, found, show Store.get e'.mnodes address = _ from found']
    rfl
  refine ⟨spine.listed.congr ?_ levels, ?_, ?_, ?_, ?_, ?_, spine.distinct⟩
  · intro address member mnode found
    obtain ⟨marked, found'⟩ := links address member mnode found
    exact ⟨_, found', rfl, rfl⟩
  · rw [sentinel]
    exact spine.ladder.congr inodes
  · rw [level base spine.listed.base_mem]
    exact spine.height
  · intro i row located p member
    obtain ⟨inList, tall⟩ := spine.tall i row located p member
    rw [level p.2 (List.mem_of_mem_tail inList)]
    exact ⟨inList, tall⟩
  · exact fun address member => kept address (.inl member) (spine.liveMnodes address member)
  · exact fun row inRows p inRow =>
      kept p.1 (.inr ⟨row, inRows, p, inRow, rfl⟩) (spine.liveInodes row inRows p inRow)

theorem mem_congr {list list' : List Nat} {before after after' : List Nat} {address : Nat}
    (split : list = before ++ address :: after) (split' : list' = before ++ address :: after')
    {q : Nat} (member : q ∈ list.tail) (kept : q ∈ after → q ∈ after') : q ∈ list'.tail := by
  subst split split'
  cases before with
  | nil => exact kept member
  | cons head tail =>
      simp only [List.cons_append, List.tail_cons, List.mem_append, List.mem_cons] at member ⊢
      tauto

theorem relist (spine : Spine e base list rows) {before after after' : List Nat} {address : Nat}
    (split : list = before ++ address :: after) (inodes : ∀ row ∈ rows, ∀ p ∈ row,
      e'.inode p.1 = e.inode p.1) (sentinel : e'.sentinel = e.sentinel)
    (listed : Listed e'.mnodes e'.nodes base (before ++ address :: after'))
    (levels : ∀ q ∈ before ++ address :: after', q ∈ list → levelAt e'.mnodes q = levelAt e.mnodes q)
    (stays : ∀ q ∈ after, q ∈ after' ∨ levelAt e.mnodes q = some 0)
    (alive : ∀ q ∈ before ++ address :: after', q ∈ live e'.trace)
    (kept : ∀ row ∈ rows, ∀ p ∈ row, p.1 ∈ live e'.trace)
    (distinct : ∀ row ∈ rows, ∀ p ∈ row, p.1 ∉ before ++ address :: after') :
    Spine e' base (before ++ address :: after') rows := by
  refine ⟨listed, ?_, ?_, ?_, alive, kept, distinct⟩
  · rw [sentinel]
    exact spine.ladder.congr inodes
  · rw [levels base listed.base_mem spine.listed.base_mem]
    exact spine.height
  · intro i row located p member
    obtain ⟨inTail, level, isLevel, above⟩ := spine.tall i row located p member
    have inTail' : p.2 ∈ (before ++ address :: after').tail := by
      refine mem_congr split rfl inTail fun inAfter => (stays p.2 inAfter).resolve_right ?_
      intro zero
      rw [isLevel] at zero
      rw [Option.some.inj zero] at above
      exact absurd above (Nat.not_lt_zero i)
    refine ⟨inTail', level, ?_, above⟩
    rw [levels p.2 (List.mem_of_mem_tail inTail') (List.mem_of_mem_tail inTail)]
    exact isLevel

theorem setRow (spine : Spine e base list rows) {i : Nat} {row row' : List (Nat × Nat)}
    (located : rows[i]? = some row) (listed : Listed e'.mnodes e'.nodes base list)
    (ladder : Ladder e'.inodes e'.sentinel base (rows.set i row'))
    (height : levelAt e'.mnodes base = levelAt e.mnodes base)
    (levels : ∀ q ∈ list, ∀ level, levelAt e.mnodes q = some level →
      ∃ level', levelAt e'.mnodes q = some level' ∧ level ≤ level')
    (tails : ∀ p ∈ row'.tail, p ∈ row.tail ∨
      p.2 ∈ list.tail ∧ ∃ level, levelAt e'.mnodes p.2 = some level ∧ i < level)
    (cells : ∀ p ∈ row', p ∈ row ∨ p.1 ∈ live e'.trace ∧ p.1 ∉ list)
    (kept : ∀ address, address ∈ live e.trace → address ∈ live e'.trace) :
    Spine e' base list (rows.set i row') := by
  have inRows := List.mem_of_getElem? located
  have bound : i < rows.length := (List.getElem?_eq_some_iff.mp located).1
  have inSet : ∀ other ∈ rows.set i row', other = row' ∨ other ∈ rows :=
    fun other member => (List.mem_or_eq_of_mem_set member).symm
  refine ⟨listed, ladder, ?_, ?_, ?_, ?_, ?_⟩
  · rw [height, List.length_set]
    exact spine.height
  · intro j other found p member
    have old : ∀ (j : Nat) other, rows[j]? = some other → p ∈ other.tail → p.2 ∈ list.tail ∧
        ∃ level, levelAt e'.mnodes p.2 = some level ∧ j < level := by
      intro j other found member
      obtain ⟨inTail, level, isLevel, above⟩ := spine.tall j other found p member
      obtain ⟨level', isLevel', higher⟩ := levels p.2 (List.mem_of_mem_tail inTail) level isLevel
      exact ⟨inTail, level', isLevel', Nat.lt_of_lt_of_le above higher⟩
    rw [List.getElem?_set] at found
    by_cases same : i = j
    · rw [if_pos same, if_pos (same ▸ bound)] at found
      obtain rfl := Option.some.inj found
      subst same
      exact (tails p member).elim (old i row located) id
    · rw [if_neg same] at found
      exact old j other found member
  · exact fun address member => kept address (spine.liveMnodes address member)
  · intro other member p inOther
    rcases inSet other member with rfl | inOld
    · exact (cells p inOther).elim
        (fun inRow => kept p.1 (spine.liveInodes row inRows p inRow)) And.left
    · exact kept p.1 (spine.liveInodes other inOld p inOther)
  · intro other member p inOther
    rcases inSet other member with rfl | inOld
    · exact (cells p inOther).elim (spine.distinct row inRows p) And.right
    · exact spine.distinct other inOld p inOther

theorem fresh (honest : platform.Honest) (spine : Spine e base list rows) :
    platform.place e ≠ 0 ∧ platform.place e ∉ list ∧
      ∀ row ∈ rows, ∀ p ∈ row, platform.place e ≠ p.1 := by
  obtain ⟨nonzero, notLive⟩ := honest.places e
  exact ⟨nonzero, fun member => notLive (spine.liveMnodes _ member),
    fun row inRows p inRow same => notLive (same ▸ spine.liveInodes row inRows p inRow)⟩

theorem insert (honest : platform.Honest) (spine : Spine e base list rows) {made : Enclave}
    {found fresh node : Nat} {mnode : Mnode} (stored : e.mnode found = some mnode)
    (allocated : e.mnodeNew platform mnode.next node 0 = some (fresh, made))
    (linked : made.setNext found fresh = some e') : ∃ list', Spine e' base list' rows := by
  obtain ⟨nonzero, notListed, notLinked⟩ := spine.fresh honest
  rw [Enclave.mnodeNew] at allocated
  obtain ⟨dataNode, dataFound, allocated⟩ := Option.bind_eq_some_iff.mp allocated
  obtain ⟨rfl, rfl⟩ := Prod.mk.inj (Option.some.inj allocated)
  obtain ⟨mnode', found', changed⟩ := Option.bind_eq_some_iff.mp linked
  obtain rfl := Option.some.inj changed
  have inodes : ∀ row ∈ rows, ∀ p ∈ row,
      Store.get (Store.erase e.inodes (platform.place e)) p.1 = e.inode p.1 :=
    fun row inRows p inRow => Store.get_erase_other (notLinked row inRows p inRow)
  by_cases inList : found ∈ list
  · have apart : platform.place e ≠ found := fun same => notListed (same ▸ inList)
    obtain rfl : mnode' = mnode := by
      rw [Enclave.mnode, Store.get_set_other _ apart] at found'
      exact Option.some.inj (found'.symm.trans stored)
    obtain ⟨before, after, split⟩ := List.append_of_mem inList
    have members : ∀ q ∈ before ++ found :: platform.place e :: after,
        q = platform.place e ∨ q ∈ list := by
      intro q member
      simp only [split, List.mem_append, List.mem_cons] at member ⊢
      tauto
    refine ⟨_, spine.relist split inodes rfl (spine.listed.insert split stored nonzero notListed rfl
      dataFound) ?_ (fun q inAfter => .inl (List.mem_cons_of_mem _ inAfter)) ?_ ?_ ?_⟩
    · intro q _ member
      have notFresh : platform.place e ≠ q := fun same => notListed (same ▸ member)
      by_cases same : found = q
      · subst same
        exact (levelAt_found (Store.get_set_same _ _ _)).trans (levelAt_found stored).symm
      · rw [levelAt, levelAt]
        exact congrArg (Option.map Mnode.level)
          ((Store.get_set_other _ same).trans (Store.get_set_other _ notFresh))
    · intro q member
      rcases members q member with rfl | old
      · exact List.mem_cons_self
      · exact List.mem_cons_of_mem _ (spine.liveMnodes q old)
    · exact fun row inRows p inRow => List.mem_cons_of_mem _ (spine.liveInodes row inRows p inRow)
    · intro row inRows p inRow member
      rcases members p.1 member with isFresh | old
      · exact notLinked row inRows p inRow isFresh.symm
      · exact spine.distinct row inRows p inRow old
  · refine ⟨list, spine.congr ?_ inodes (LevelsOnly.refl _) rfl fun _ _ alive =>
      List.mem_cons_of_mem _ alive⟩
    intro other member mnode other_found
    have notFound : found ≠ other := fun same => inList (same ▸ member)
    have notFresh : platform.place e ≠ other := fun same => notListed (same ▸ member)
    exact ⟨mnode.marked,
      (Store.get_set_other _ notFound).trans ((Store.get_set_other _ notFresh).trans other_found)⟩

/-- A job leaves the mnodes one chain, wherever the index led its search. -/
theorem job (honest : platform.Honest) (spine : Spine e base list rows) {job : Job}
    (returned : e.updateIntermediateLayer platform job = some e') : ∃ list', Spine e' base list' rows := by
  have marks : ∀ {address marked}, e.setMarked address marked = some e' → Spine e' base list rows := by
    intro address marked sets
    rw [Enclave.setMarked] at sets
    obtain ⟨mnode, found, changed⟩ := Option.bind_eq_some_iff.mp sets
    obtain rfl := Option.some.inj changed
    refine spine.congr ?_ (fun _ _ _ _ => rfl) (LevelsOnly.refl _) rfl fun _ _ alive => alive
    intro other _ mnode' found'
    by_cases same : address = other
    · subst same
      obtain rfl : mnode = mnode' := Option.some.inj (found.symm.trans found')
      exact ⟨marked, Store.get_set_same _ _ _⟩
    · exact ⟨mnode'.marked, (Store.get_set_other _ same).trans found'⟩
  rw [Enclave.updateIntermediateLayer] at returned
  obtain ⟨found, _, returned⟩ := Option.bind_eq_some_iff.mp returned
  obtain ⟨mnode, stored, returned⟩ := Option.bind_eq_some_iff.mp returned
  split at returned
  case isFalse =>
    split at returned
    · exact ⟨list, marks returned⟩
    · exact ⟨list, Option.some.inj returned ▸ spine⟩
  split at returned
  case isTrue =>
    split at returned
    · exact ⟨list, marks returned⟩
    · exact ⟨list, Option.some.inj returned ▸ spine⟩
  obtain ⟨⟨fresh, made⟩, allocated, linked⟩ := Option.bind_eq_some_iff.mp returned
  exact spine.insert honest stored allocated linked

end Spine

end Hosk
