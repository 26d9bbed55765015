import Hosk.IntermedLayer

/-!
The index layer in memory: the rows from the sentinels to the right, and every other inode that a
search can still come to. Inodes that were unlinked from their row keep their pointers, and the
row above may still lead down to them.
-/

namespace Hosk

def rightAt (inodes : Store Inode) (address : Nat) : Option Nat :=
  (Store.get inodes address).map Inode.right

def downAt (inodes : Store Inode) (address : Nat) : Option Nat :=
  (Store.get inodes address).map Inode.down

theorem rightAt_found {inodes : Store Inode} {address : Nat} {inode : Inode}
    (found : Store.get inodes address = some inode) : rightAt inodes address = some inode.right := by
  simp [rightAt, found]

theorem onward_chain {inodes : Store Inode} {start : Nat} {p : Nat × Nat} {rest : List (Nat × Nat)}
    {inode : Inode} (chain : Chain (rightAt inodes) start ((p :: rest).map Prod.fst))
    (found : Store.get inodes p.1 = some inode) :
    inode.right = firstOf rest ∧ Chain (rightAt inodes) inode.right (rest.map Prod.fst) := by
  obtain ⟨_, _, successor, linked, later⟩ := chain
  rw [rightAt_found found] at linked
  obtain rfl : inode.right = successor := Option.some.inj linked
  refine ⟨?_, later⟩
  cases rest with
  | nil => exact later
  | cons second rest => exact later.1

theorem downAt_found {inodes : Store Inode} {address : Nat} {inode : Inode}
    (found : Store.get inodes address = some inode) : downAt inodes address = some inode.down := by
  simp [downAt, found]

/-- Where the layers lie: the mnodes, the rows with the address and key of each inode (the
sentinel's first), which inodes a search may come to, and the row each of them was made for. Rows
are numbered from the first one ever made, `lowest` is the number of the bottom row. -/
structure Layout where
  base : Nat
  mnodes : List (Nat × Entry)
  rows : List (List (Nat × Nat))
  lowest : Nat
  good : Nat → Prop
  rank : Nat → Nat

def Over (list : List (Nat × Entry)) (mnode key level : Nat) : Prop :=
  ∃ entry, (mnode, entry) ∈ list ∧ entry.key = key ∧ level ≤ entry.level

theorem Over.lower {list : List (Nat × Entry)} {mnode key level level' : Nat}
    (isOver : Over list mnode key level) (lower : level' ≤ level) : Over list mnode key level' := by
  obtain ⟨entry, member, sameKey, bound⟩ := isOver
  exact ⟨entry, member, sameKey, Nat.le_trans lower bound⟩

structure GoodAt (inodes : Store Inode) (l : Layout) (address : Nat) (inode : Inode) : Prop where
  isOver : Over l.mnodes inode.intermed inode.key 1
  right : inode.right ≠ 0 → l.good inode.right ∧ l.rank inode.right = l.rank address ∧
    ∃ next, Store.get inodes inode.right = some next ∧ inode.key < next.key
  down : inode.down ≠ 0 → l.good inode.down ∧ l.rank inode.down < l.rank address ∧
    ∃ below, Store.get inodes inode.down = some below ∧ below.key = inode.key

structure Grid (inodes : Store Inode) (sentinel : Nat) (l : Layout) : Prop where
  chains : ∀ (i : Nat) row, l.rows[i]? = some row →
    Chain (rightAt inodes) (firstOf row) (row.map Prod.fst)
  heads : ∀ row ∈ l.rows, ∃ head rest, row = (head, 0) :: rest
  sorted : ∀ row ∈ l.rows, row.Pairwise fun p q => p.2 < q.2
  cells : ∀ (i : Nat) row p, l.rows[i]? = some row → p ∈ row →
    l.good p.1 ∧ l.rank p.1 = l.lowest + i ∧
      ∃ inode, Store.get inodes p.1 = some inode ∧ inode.key = p.2 ∧
        Over l.mnodes inode.intermed p.2 (i + 1)
  ground : ∀ row p, l.rows[0]? = some row → p ∈ row → downAt inodes p.1 = some 0
  towers : ∀ (i : Nat) low high p q, l.rows[i]? = some low → l.rows[i + 1]? = some high → p ∈ high →
    q ∈ low → p.2 = q.2 → downAt inodes p.1 = some q.1
  top : ∃ row, l.rows.getLast? = some row ∧ firstOf row = sentinel
  goods : ∀ address, l.good address →
    ∃ inode, Store.get inodes address = some inode ∧ GoodAt inodes l address inode

structure NewCell (inodes : Store Inode) (rows : List (List (Nat × Nat))) (l : Layout) (i : Nat)
    (p : Nat × Nat) : Prop where
  good : l.good p.1
  rank : l.rank p.1 = l.lowest + i
  found : ∃ inode, Store.get inodes p.1 = some inode ∧ inode.key = p.2 ∧
    Over l.mnodes inode.intermed p.2 (i + 1)
  ground : i = 0 → downAt inodes p.1 = some 0
  below : ∀ (j : Nat) low q, i = j + 1 → rows[j]? = some low → q ∈ low → p.2 = q.2 →
    downAt inodes p.1 = some q.1
  above : ∀ high q, rows[i + 1]? = some high → q ∈ high → q.2 ≠ p.2

def Leads (l : Layout) (i key down : Nat) : Prop :=
  i = 0 ∧ down = 0 ∨
    ∃ j low q, i = j + 1 ∧ l.rows[j]? = some low ∧ q ∈ low ∧ q.2 = key ∧ q.1 = down

namespace Grid

variable {inodes inodes' : Store Inode} {sentinel : Nat} {l l' : Layout} {i : Nat}
  {row row' : List (Nat × Nat)} {p q : Nat × Nat}

theorem found (grid : Grid inodes sentinel l) (located : l.rows[i]? = some row) (member : p ∈ row) :
    ∃ inode, Store.get inodes p.1 = some inode ∧ inode.key = p.2 := by
  obtain ⟨_, _, inode, found, key, _⟩ := grid.cells i row p located member
  exact ⟨inode, found, key⟩

theorem at_split (grid : Grid inodes sentinel l) {before after : List (Nat × Nat)}
    (located : l.rows[i]? = some row) (split : row = before ++ p :: after) :
    ∃ inode, Store.get inodes p.1 = some inode ∧ inode.key = p.2 ∧ inode.right = firstOf after := by
  obtain ⟨inode, found, key⟩ := grid.found located (by simp [split] : p ∈ row)
  have chain := grid.chains i row located
  rw [split, List.map_append, List.map_cons] at chain
  have onward := chain.next_eq
  rw [rightAt_found found] at onward
  exact ⟨inode, found, key, Option.some.inj onward⟩

theorem eq_of_key (grid : Grid inodes sentinel l) (located : l.rows[i]? = some row)
    (left : p ∈ row) (right : q ∈ row) (same : p.2 = q.2) : p = q := by
  have distinct : (row.map Prod.snd).Nodup :=
    List.pairwise_map.mpr ((grid.sorted row (List.mem_of_getElem? located)).imp Nat.ne_of_lt)
  exact List.inj_on_of_nodup_map distinct left right same

theorem nonzero (grid : Grid inodes sentinel l) (located : l.rows[i]? = some row)
    (member : p ∈ row) : p.1 ≠ 0 :=
  (grid.chains i row located).ne_zero p.1 (List.mem_map_of_mem member)

theorem row_unique (grid : Grid inodes sentinel l) {j : Nat} {other : List (Nat × Nat)}
    (left : l.rows[i]? = some row) (right : l.rows[j]? = some other) (inRow : p ∈ row)
    (inOther : q ∈ other) (same : p.1 = q.1) : i = j := by
  have leftRank := (grid.cells i row p left inRow).2.1
  have rightRank := (grid.cells j other q right inOther).2.1
  rw [same] at leftRank
  omega

theorem mono (grid : Grid inodes sentinel l) {list : List (Nat × Entry)}
    (isOver : ∀ mnode key level, 1 ≤ level → Over l.mnodes mnode key level →
      Over list mnode key level) : Grid inodes sentinel { l with mnodes := list } := by
  refine ⟨grid.chains, grid.heads, grid.sorted, ?_, grid.ground, grid.towers, grid.top, ?_⟩
  · intro i row p located member
    obtain ⟨good, rank, inode, found, key, enough⟩ := grid.cells i row p located member
    exact ⟨good, rank, inode, found, key, isOver _ _ _ (Nat.le_add_left 1 i) enough⟩
  · intro address good
    obtain ⟨inode, found, ok⟩ := grid.goods address good
    exact ⟨inode, found, isOver _ _ _ (Nat.le_refl 1) ok.isOver, ok.right, ok.down⟩

theorem setRow (grid : Grid inodes sentinel l) (located : l.rows[i]? = some row)
    (rows : l'.rows = l.rows.set i row') (lowest : l'.lowest = l.lowest)
    (isOver : ∀ mnode key level, 1 ≤ level → Over l.mnodes mnode key level →
      Over l'.mnodes mnode key level)
    (goods : ∀ address, l.good address → l'.good address)
    (ranks : ∀ address, l.good address → l'.rank address = l.rank address)
    (keeps : ∀ address inode, l.good address → Store.get inodes address = some inode →
      ∃ right, Store.get inodes' address = some { inode with right := right })
    (elsewhere : ∀ address, l.good address → l.rank address ≠ l.lowest + i →
      Store.get inodes' address = Store.get inodes address)
    (sameHead : row'.head? = row.head?)
    (sorted : row'.Pairwise fun p q => p.2 < q.2)
    (chain : Chain (rightAt inodes') (firstOf row') (row'.map Prod.fst))
    (cells : ∀ p ∈ row', p ∈ row ∨ NewCell inodes' l.rows l' i p)
    (reached : ∀ address, l'.good address →
      ∃ inode, Store.get inodes' address = some inode ∧ GoodAt inodes' l' address inode) :
    Grid inodes' sentinel l' := by
  have bound : i < l.rows.length := (List.getElem?_eq_some_iff.mp located).1
  have split : ∀ j other, l'.rows[j]? = some other →
      j = i ∧ other = row' ∨ j ≠ i ∧ l.rows[j]? = some other := by
    intro j other found
    rw [rows, List.getElem?_set] at found
    by_cases same : i = j
    · rw [if_pos same, if_pos (same ▸ bound)] at found
      exact .inl ⟨same.symm, (Option.some.inj found).symm⟩
    · rw [if_neg same] at found
      exact .inr ⟨Ne.symm same, found⟩
  have members : ∀ other ∈ l'.rows, other = row' ∨ other ∈ l.rows := by
    intro other member
    rw [rows] at member
    exact (List.mem_or_eq_of_mem_set member).symm
  have downs : ∀ (j : Nat) other (p : Nat × Nat) down, l.rows[j]? = some other → p ∈ other →
      downAt inodes p.1 = some down → downAt inodes' p.1 = some down := by
    intro j other p down found member lead
    obtain ⟨good, _, inode, stored, _⟩ := grid.cells j other p found member
    obtain ⟨right, stored'⟩ := keeps p.1 inode good stored
    rw [downAt_found stored] at lead
    rw [downAt_found stored']
    exact lead
  refine ⟨?_, ?_, ?_, ?_, ?_, ?_, ?_, reached⟩
  · intro j other found
    rcases split j other found with ⟨_, rfl⟩ | ⟨different, found⟩
    · exact chain
    · refine (grid.chains j other found).congr ?_
      intro address member
      obtain ⟨p, inOther, rfl⟩ := List.mem_map.mp member
      obtain ⟨good, rank, _⟩ := grid.cells j other p found inOther
      rw [rightAt, rightAt, elsewhere p.1 good (by omega)]
  · intro other member
    rcases members other member with rfl | inRows
    · obtain ⟨head, rest, same⟩ := grid.heads row (List.mem_of_getElem? located)
      rw [same, List.head?_cons] at sameHead
      exact ⟨head, other.tail, (List.cons_head?_tail sameHead).symm⟩
    · exact grid.heads other inRows
  · intro other member
    rcases members other member with rfl | inRows
    · exact sorted
    · exact grid.sorted other inRows
  · intro j other p found member
    have old : ∀ other, l.rows[j]? = some other → p ∈ other → l'.good p.1 ∧
        l'.rank p.1 = l'.lowest + j ∧ ∃ inode, Store.get inodes' p.1 = some inode ∧
          inode.key = p.2 ∧ Over l'.mnodes inode.intermed p.2 (j + 1) := by
      intro other found member
      obtain ⟨good, rank, inode, stored, key, enough⟩ := grid.cells j other p found member
      obtain ⟨right, stored'⟩ := keeps p.1 inode good stored
      refine ⟨goods p.1 good, ?_, _, stored', key, isOver _ _ _ (Nat.le_add_left 1 j) enough⟩
      rw [ranks p.1 good, rank, lowest]
    rcases split j other found with ⟨rfl, rfl⟩ | ⟨_, found⟩
    · rcases cells p member with inRow | new
      · exact old row located inRow
      · exact ⟨new.good, new.rank, new.found⟩
    · exact old other found member
  · intro other p found member
    rcases split 0 other found with ⟨rfl, rfl⟩ | ⟨_, found⟩
    · rcases cells p member with inRow | new
      · exact downs 0 row p 0 located inRow (grid.ground row p located inRow)
      · exact new.ground rfl
    · exact downs 0 other p 0 found member (grid.ground other p found member)
  · intro j low high p q foundLow foundHigh inHigh inLow same
    rcases split j low foundLow with ⟨rfl, rfl⟩ | ⟨_, foundLow⟩
    · rcases split (j + 1) high foundHigh with ⟨wrong, _⟩ | ⟨_, foundHigh⟩
      · exact absurd wrong (Nat.succ_ne_self j)
      · rcases cells q inLow with inRow | new
        · exact downs _ _ _ _ foundHigh inHigh
            (grid.towers j row high p q located foundHigh inHigh inRow same)
        · exact absurd same (new.above high p foundHigh inHigh)
    · rcases split (j + 1) high foundHigh with ⟨rfl, rfl⟩ | ⟨_, foundHigh⟩
      · rcases cells p inHigh with inRow | new
        · exact downs _ _ _ _ located inRow (grid.towers j low row p q foundLow located inRow inLow same)
        · exact new.below j low q rfl foundLow inLow same
      · exact downs _ _ _ _ foundHigh inHigh
          (grid.towers j low high p q foundLow foundHigh inHigh inLow same)
  · obtain ⟨last, isLast, first⟩ := grid.top
    rw [List.getLast?_eq_getElem?] at isLast
    rw [rows, List.getLast?_eq_getElem?, List.length_set, List.getElem?_set]
    by_cases same : i = l.rows.length - 1
    · rw [← same, located] at isLast
      obtain rfl := Option.some.inj isLast
      refine ⟨row', by rw [if_pos same, if_pos bound], ?_⟩
      have heads : firstOf row' = firstOf row := by
        obtain ⟨head, rest, equal⟩ := grid.heads row (List.mem_of_getElem? located)
        rw [equal, List.head?_cons] at sameHead
        rw [← List.cons_head?_tail sameHead, equal]
        rfl
      exact heads.trans first
    · exact ⟨last, by rw [if_neg same]; exact isLast, first⟩

theorem goods_setRight (grid : Grid inodes sentinel l) {target : Nat} (right : Nat) {inode : Inode}
    (stored : Store.get inodes target = some inode)
    (onward : right ≠ 0 → l.good right ∧ l.rank right = l.rank target ∧
      ∃ next, Store.get inodes right = some next ∧ inode.key < next.key) :
    ∀ address, l.good address → ∃ inode',
      Store.get (Store.set inodes target { inode with right := right }) address = some inode' ∧
        GoodAt (Store.set inodes target { inode with right := right }) l address inode' := by
  have keys : ∀ address found, Store.get inodes address = some found → ∃ found',
      Store.get (Store.set inodes target { inode with right := right }) address = some found' ∧
        found'.key = found.key := by
    intro address found atAddress
    by_cases same : target = address
    · subst same
      obtain rfl : inode = found := Option.some.inj (stored.symm.trans atAddress)
      exact ⟨_, Store.get_set_same _ _ _, rfl⟩
    · exact ⟨found, by rw [Store.get_set_other _ same]; exact atAddress, rfl⟩
  have downs : ∀ {address found}, GoodAt inodes l address found → found.down ≠ 0 →
      l.good found.down ∧ l.rank found.down < l.rank address ∧ ∃ below,
        Store.get (Store.set inodes target { inode with right := right }) found.down = some below ∧
          below.key = found.key := by
    intro address found ok present
    obtain ⟨good, rank, below, atAddress, key⟩ := ok.down present
    obtain ⟨below', at', same⟩ := keys _ below atAddress
    exact ⟨good, rank, below', at', same.trans key⟩
  intro address good
  obtain ⟨found, atAddress, ok⟩ := grid.goods address good
  by_cases same : target = address
  · subst same
    obtain rfl : inode = found := Option.some.inj (stored.symm.trans atAddress)
    refine ⟨_, Store.get_set_same _ _ _, ok.isOver, ?_, @downs target inode ok⟩
    intro present
    obtain ⟨goodRight, rank, next, atNext, greater⟩ := onward present
    obtain ⟨next', at', key⟩ := keys _ next atNext
    exact ⟨goodRight, rank, next', at', key ▸ greater⟩
  · refine ⟨found, by rw [Store.get_set_other _ same]; exact atAddress, ok.isOver, ?_, downs ok⟩
    intro present
    obtain ⟨goodRight, rank, next, atNext, greater⟩ := ok.right present
    obtain ⟨next', at', key⟩ := keys _ next atNext
    exact ⟨goodRight, rank, next', at', key ▸ greater⟩

theorem onward (grid : Grid inodes sentinel l) {before after : List (Nat × Nat)}
    (located : l.rows[i]? = some row) (split : row = before ++ p :: after)
    (present : firstOf after ≠ 0) :
    l.good (firstOf after) ∧ l.rank (firstOf after) = l.rank p.1 ∧
      ∃ next, Store.get inodes (firstOf after) = some next ∧ p.2 < next.key := by
  cases after with
  | nil => exact absurd rfl present
  | cons q rest =>
      have inRow : q ∈ row := by simp [split]
      obtain ⟨good, rank, next, stored, key, _⟩ := grid.cells i row q located inRow
      have mine := (grid.cells i row p located (by simp [split])).2.1
      have sorted := grid.sorted row (List.mem_of_getElem? located)
      rw [split, List.pairwise_append, List.pairwise_cons] at sorted
      refine ⟨good, rank.trans mine.symm, next, stored, ?_⟩
      rw [key]
      exact sorted.2.1.1 q List.mem_cons_self

theorem unlink (grid : Grid inodes sentinel l) {before after : List (Nat × Nat)} {inode : Inode}
    (located : l.rows[i]? = some row) (split : row = before ++ p :: q :: after)
    (stored : Store.get inodes p.1 = some inode) :
    Grid (Store.set inodes p.1 { inode with right := firstOf after }) sentinel
      { l with rows := l.rows.set i (before ++ p :: after) } := by
  have inRow : p ∈ row := by simp [split]
  have behind : row = (before ++ [p]) ++ q :: after := by simp [split]
  have sorted := grid.sorted row (List.mem_of_getElem? located)
  have chain := grid.chains i row located
  have nodup := chain.nodup
  have key : inode.key = p.2 := by
    obtain ⟨found, atAddress, key⟩ := grid.found located inRow
    obtain rfl : found = inode := Option.some.inj (atAddress.symm.trans stored)
    exact key
  obtain ⟨removed, removedAt, _, removedRight⟩ := grid.at_split located behind
  have kept : (before ++ p :: after).Sublist row := by
    rw [split]
    exact (List.Sublist.refl before).append ((List.sublist_cons_self q after).cons_cons p)
  have reached := grid.goods_setRight (firstOf after) stored ?_
  · refine grid.setRow located rfl rfl (fun _ _ _ _ isOver => isOver) (fun _ good => good)
      (fun _ _ => rfl) ?_ ?_ ?_ (sorted.sublist kept) ?_ (fun r member => .inl (kept.subset member)) ?_
    · intro address found good atAddress
      by_cases same : p.1 = address
      · subst same
        obtain rfl : found = inode := Option.some.inj (atAddress.symm.trans stored)
        exact ⟨_, Store.get_set_same _ _ _⟩
      · exact ⟨found.right, by rw [Store.get_set_other _ same]; exact atAddress⟩
    · intro address _ otherRow
      refine Store.get_set_other _ ?_
      rintro rfl
      exact otherRow (grid.cells i row p located inRow).2.1
    · rw [split]
      cases before <;> rfl
    · rw [split, List.map_append, List.map_cons, List.map_cons] at chain nodup
      rw [List.nodup_append, List.nodup_cons] at nodup
      rw [List.map_append, List.map_cons]
      have start : firstOf (before ++ p :: after) = firstOf (before ++ p :: q :: after) := by
        cases before <;> rfl
      rw [start]
      refine chain.removeAfter ?_ ?_ ?_
      · intro address inBefore
        have other : p.1 ≠ address :=
          fun same => nodup.2.2 address inBefore p.1 List.mem_cons_self same.symm
        rw [rightAt, rightAt, Store.get_set_other _ other]
      · intro address inAfter
        have other : p.1 ≠ address :=
          fun same => nodup.2.1.1 (same ▸ List.mem_cons_of_mem _ inAfter)
        rw [rightAt, rightAt, Store.get_set_other _ other]
      · rw [rightAt_found (Store.get_set_same _ _ _), rightAt_found removedAt, removedRight]
    · intro address good
      obtain ⟨found, atAddress, ok⟩ := reached address good
      exact ⟨found, atAddress, ok.isOver, ok.right, ok.down⟩
  · intro present
    obtain ⟨good, rank, next, atAddress, greater⟩ := grid.onward located behind present
    have same := (grid.cells i row q located (by simp [split])).2.1
    have mine := (grid.cells i row p located inRow).2.1
    have order : p.2 < q.2 := by
      rw [split, List.pairwise_append, List.pairwise_cons] at sorted
      exact sorted.2.1.1 q List.mem_cons_self
    exact ⟨good, by omega, next, atAddress, by omega⟩

theorem congr (grid : Grid inodes sentinel l)
    (agree : ∀ address, l.good address → Store.get inodes' address = Store.get inodes address) :
    Grid inodes' sentinel l := by
  have cellAgree : ∀ (i : Nat) row (p : Nat × Nat), l.rows[i]? = some row → p ∈ row →
      Store.get inodes' p.1 = Store.get inodes p.1 := by
    intro i row p located member
    exact agree p.1 (grid.cells i row p located member).1
  refine ⟨?_, grid.heads, grid.sorted, ?_, ?_, ?_, grid.top, ?_⟩
  · intro i row located
    refine (grid.chains i row located).congr ?_
    intro address member
    obtain ⟨p, inRow, rfl⟩ := List.mem_map.mp member
    rw [rightAt, rightAt, cellAgree i row p located inRow]
  · intro i row p located member
    obtain ⟨good, rank, inode, found, facts⟩ := grid.cells i row p located member
    exact ⟨good, rank, inode, (agree p.1 good).trans found, facts⟩
  · intro row p located member
    rw [downAt, cellAgree 0 row p located member]
    exact grid.ground row p located member
  · intro i low high p q foundLow foundHigh inHigh inLow same
    rw [downAt, cellAgree (i + 1) high p foundHigh inHigh]
    exact grid.towers i low high p q foundLow foundHigh inHigh inLow same
  · intro address good
    obtain ⟨inode, found, ok⟩ := grid.goods address good
    refine ⟨inode, (agree address good).trans found, ok.isOver, ?_, ?_⟩
    · intro present
      obtain ⟨goodRight, rank, next, atAddress, greater⟩ := ok.right present
      exact ⟨goodRight, rank, next, (agree _ goodRight).trans atAddress, greater⟩
    · intro present
      obtain ⟨goodDown, rank, below, atAddress, key⟩ := ok.down present
      exact ⟨goodDown, rank, below, (agree _ goodDown).trans atAddress, key⟩

theorem addFresh (grid : Grid inodes sentinel l) {fresh : Nat} (rank : Nat) {new : Inode}
    (notGood : ¬ l.good fresh) (stored : Store.get inodes fresh = some new)
    (ok : GoodAt inodes { l with
      good := fun address => l.good address ∨ address = fresh
      rank := Function.update l.rank fresh rank } fresh new) :
    Grid inodes sentinel { l with
      good := fun address => l.good address ∨ address = fresh
      rank := Function.update l.rank fresh rank } := by
  have ranks : ∀ address, l.good address →
      Function.update l.rank fresh rank address = l.rank address := by
    intro address good
    refine Function.update_of_ne ?_ _ _
    rintro rfl
    exact notGood good
  refine ⟨grid.chains, grid.heads, grid.sorted, ?_, grid.ground, grid.towers, grid.top, ?_⟩
  · intro i row p located member
    obtain ⟨good, here, facts⟩ := grid.cells i row p located member
    exact ⟨.inl good, (ranks p.1 good).trans here, facts⟩
  · rintro address (good | rfl)
    · obtain ⟨inode, found, old⟩ := grid.goods address good
      refine ⟨inode, found, old.isOver, ?_, ?_⟩
      · intro present
        obtain ⟨goodRight, rank, next⟩ := old.right present
        exact ⟨.inl goodRight, ((ranks _ goodRight).trans rank).trans (ranks _ good).symm, next⟩
      · intro present
        obtain ⟨goodDown, rank, below⟩ := old.down present
        refine ⟨.inl goodDown, ?_, below⟩
        dsimp only
        rw [ranks _ goodDown, ranks _ good]
        exact rank
    · exact ⟨new, stored, ok⟩

theorem insert (grid : Grid inodes sentinel l) {before after : List (Nat × Nat)} {inode : Inode}
    {fresh down intermed key : Nat} (located : l.rows[i]? = some row)
    (split : row = before ++ p :: after) (stored : Store.get inodes p.1 = some inode)
    (freshNonzero : fresh ≠ 0) (notGood : ¬ l.good fresh) (smaller : p.2 < key)
    (greater : ∀ r ∈ after, key < r.2) (raised : Over l.mnodes intermed key (i + 1))
    (lead : Leads l i key down)
    (above : ∀ high q, l.rows[i + 1]? = some high → q ∈ high → q.2 ≠ key) :
    Grid
      (Store.set (Store.set inodes fresh ⟨firstOf after, down, intermed, key⟩) p.1
        { inode with right := fresh })
      sentinel
      { l with
        rows := l.rows.set i (before ++ p :: (fresh, key) :: after)
        good := fun address => l.good address ∨ address = fresh
        rank := Function.update l.rank fresh (l.lowest + i) } := by
  have inRow : p ∈ row := by simp [split]
  obtain ⟨pGood, pRank, _⟩ := grid.cells i row p located inRow
  have apart : ∀ address, l.good address → fresh ≠ address := fun address good same =>
    notGood (same ▸ good)
  have agree : ∀ address, l.good address →
      Store.get (Store.set inodes fresh ⟨firstOf after, down, intermed, key⟩) address =
        Store.get inodes address := fun address good => Store.get_set_other _ (apart address good)
  have ranks : ∀ address, l.good address →
      Function.update l.rank fresh (l.lowest + i) address = l.rank address :=
    fun address good => Function.update_of_ne (Ne.symm (apart address good)) _ _
  have pKey : inode.key = p.2 := by
    obtain ⟨found, atAddress, same⟩ := grid.found located inRow
    obtain rfl : found = inode := Option.some.inj (atAddress.symm.trans stored)
    exact same
  have sorted := grid.sorted row (List.mem_of_getElem? located)
  have unlinked := (grid.congr agree).addFresh (l.lowest + i) notGood (Store.get_set_same _ _ _) ?_
  · have reached := unlinked.goods_setRight fresh ((agree p.1 pGood).trans stored) ?_
    · refine unlinked.setRow located rfl rfl (fun _ _ _ _ isOver => isOver) (fun _ good => good)
        (fun _ _ => rfl) ?_ ?_ ?_ ?_ ?_ ?_ ?_
      · intro address found good atAddress
        by_cases same : p.1 = address
        · subst same
          rw [agree p.1 pGood] at atAddress
          obtain rfl : found = inode := Option.some.inj (atAddress.symm.trans stored)
          exact ⟨_, Store.get_set_same _ _ _⟩
        · exact ⟨found.right, by rw [Store.get_set_other _ same]; exact atAddress⟩
      · intro address _ otherRow
        refine Store.get_set_other _ ?_
        rintro rfl
        exact otherRow ((ranks p.1 pGood).trans pRank)
      · rw [split]
        cases before <;> rfl
      · rw [split, List.pairwise_append, List.pairwise_cons] at sorted
        rw [List.pairwise_append, List.pairwise_cons, List.pairwise_cons]
        refine ⟨sorted.1, ⟨?_, greater, sorted.2.1.2⟩, ?_⟩
        · intro r inRest
          rcases List.mem_cons.mp inRest with rfl | inAfter
          · exact smaller
          · exact sorted.2.1.1 r inAfter
        · intro r inBefore s inRest
          have upTo := sorted.2.2 r inBefore
          rcases List.mem_cons.mp inRest with rfl | inRest
          · exact upTo s List.mem_cons_self
          · rcases List.mem_cons.mp inRest with rfl | inAfter
            · exact Nat.lt_trans (upTo p List.mem_cons_self) smaller
            · exact upTo s (List.mem_cons_of_mem _ inAfter)
      · have chain := unlinked.chains i row located
        have nodup := chain.nodup
        have onward : rightAt inodes p.1 = some (firstOf after) := by
          obtain ⟨found, atAddress, _, right⟩ := grid.at_split located split
          rw [rightAt_found atAddress, right]
        have inside : ∀ address ∈ row.map Prod.fst, address ≠ fresh := by
          intro address member
          obtain ⟨r, inRow, rfl⟩ := List.mem_map.mp member
          exact Ne.symm (apart r.1 (grid.cells i row r located inRow).1)
        have start : firstOf (before ++ p :: (fresh, key) :: after) =
            firstOf (before ++ p :: after) := by
          cases before <;> rfl
        rw [split, List.map_append, List.map_cons] at chain nodup
        rw [List.nodup_append, List.nodup_cons] at nodup
        rw [start, List.map_append, List.map_cons, List.map_cons]
        refine chain.insertAfter freshNonzero ?_ ?_ ?_ ?_
        · intro address inBefore
          have other : p.1 ≠ address :=
            fun same => nodup.2.2 address inBefore p.1 List.mem_cons_self same.symm
          rw [rightAt, rightAt, Store.get_set_other _ other]
        · intro address inAfter
          have other : p.1 ≠ address := fun same => nodup.2.1.1 (same ▸ inAfter)
          rw [rightAt, rightAt, Store.get_set_other _ other]
        · exact rightAt_found (Store.get_set_same _ _ _)
        · have mine : rightAt (Store.set inodes fresh ⟨firstOf after, down, intermed, key⟩) p.1 =
              some (firstOf after) := by
            rw [rightAt, agree p.1 pGood]
            exact onward
          rw [mine, rightAt, Store.get_set_other _ (Ne.symm (apart p.1 pGood)), Store.get_set_same]
          rfl
      · intro r member
        rw [List.mem_append, List.mem_cons, List.mem_cons] at member
        rcases member with inBefore | rfl | rfl | inAfter
        · exact .inl (by simp [split, inBefore])
        · exact .inl inRow
        · refine .inr ⟨.inr rfl, by simp, ?_, ?_, ?_, above⟩
          · refine ⟨⟨firstOf after, down, intermed, key⟩, ?_, rfl, raised⟩
            rw [Store.get_set_other _ (Ne.symm (apart p.1 pGood)), Store.get_set_same]
          · intro bottom
            have isNull : down = 0 := by
              rcases lead with ⟨_, null⟩ | ⟨j, _, _, later, _⟩
              · exact null
              · omega
            rw [downAt, Store.get_set_other _ (Ne.symm (apart p.1 pGood)), Store.get_set_same, isNull]
            rfl
          · intro j low q isAbove foundLow inLow sameKey
            rcases lead with ⟨bottom, _⟩ | ⟨j', low', q', isAbove', foundLow', inLow', key', address⟩
            · omega
            · obtain rfl : j = j' := by omega
              obtain rfl : low = low' := Option.some.inj (foundLow.symm.trans foundLow')
              have same : q = q' := grid.eq_of_key foundLow inLow inLow' (sameKey.symm.trans key'.symm)
              rw [downAt, Store.get_set_other _ (Ne.symm (apart p.1 pGood)), Store.get_set_same, same,
                address]
              rfl
        · exact .inl (by simp [split, inAfter])
      · intro address good
        obtain ⟨found, atAddress, ok⟩ := reached address good
        exact ⟨found, atAddress, ok.isOver, ok.right, ok.down⟩
    · intro _
      refine ⟨.inr rfl, ?_, _, Store.get_set_same _ _ _, ?_⟩
      · dsimp only
        rw [Function.update_self, ranks p.1 pGood, pRank]
      · rw [pKey]
        exact smaller
  · refine ⟨raised.lower (Nat.le_add_left 1 i), ?_, ?_⟩
    · intro present
      obtain ⟨good, rank, next, atAddress, _⟩ := grid.onward located split present
      refine ⟨.inl good, ?_, next, (agree _ good).trans atAddress, ?_⟩
      · dsimp only
        rw [Function.update_self, ranks _ good, rank, pRank]
      · cases after with
        | nil => exact absurd rfl present
        | cons r rest =>
            obtain ⟨found, foundAt, key', _⟩ := grid.at_split located
              (by simp [split] : row = (before ++ [p]) ++ r :: rest)
            obtain rfl : found = next := Option.some.inj (foundAt.symm.trans atAddress)
            rw [key']
            exact greater r List.mem_cons_self
    · intro present
      rcases lead with ⟨_, null⟩ | ⟨j, low, q, rfl, foundLow, inLow, sameKey, rfl⟩
      · exact absurd null present
      · obtain ⟨good, rank, found, atAddress, key', _⟩ := grid.cells j low q foundLow inLow
        refine ⟨.inl good, ?_, found, (agree _ good).trans atAddress, key'.trans sameKey⟩
        dsimp only
        rw [Function.update_self, ranks _ good, rank]
        omega

theorem nonempty (grid : Grid inodes sentinel l) : 0 < l.rows.length := by
  obtain ⟨row, isLast, _⟩ := grid.top
  cases rows : l.rows with
  | nil =>
      rw [rows] at isLast
      exact absurd isLast (Option.some_ne_none row).symm
  | cons => exact Nat.succ_pos _

theorem push (grid : Grid inodes sentinel l) {fresh intermed : Nat}
    (stored : Store.get inodes fresh = some ⟨0, sentinel, intermed, 0⟩) (freshNonzero : fresh ≠ 0)
    (good : l.good fresh) (rank : l.rank fresh = l.lowest + l.rows.length)
    (isOver : Over l.mnodes intermed 0 (l.rows.length + 1)) :
    Grid inodes fresh { l with rows := l.rows ++ [[(fresh, 0)]] } := by
  have split : ∀ (i : Nat) row, (l.rows ++ [[(fresh, 0)]])[i]? = some row →
      l.rows[i]? = some row ∨ i = l.rows.length ∧ row = [(fresh, 0)] := by
    intro i row located
    by_cases old : i < l.rows.length
    · rw [List.getElem?_append_left old] at located
      exact .inl located
    · rw [List.getElem?_append_right (Nat.le_of_not_lt old)] at located
      by_cases here : i - l.rows.length = 0
      · rw [here] at located
        exact .inr ⟨by omega, (Option.some.inj located).symm⟩
      · rw [List.getElem?_eq_none (by simp; omega)] at located
        exact absurd located (Option.some_ne_none row).symm
  refine ⟨?_, ?_, ?_, ?_, ?_, ?_, ?_, ?_⟩
  · intro i row located
    rcases split i row located with old | ⟨_, rfl⟩
    · exact grid.chains i row old
    · exact ⟨rfl, freshNonzero, 0, rightAt_found stored, rfl⟩
  · intro row member
    rcases List.mem_append.mp member with old | new
    · exact grid.heads row old
    · exact ⟨fresh, [], List.mem_singleton.mp new⟩
  · intro row member
    rcases List.mem_append.mp member with old | new
    · exact grid.sorted row old
    · rw [List.mem_singleton.mp new]
      exact List.pairwise_singleton _ _
  · intro i row p located member
    rcases split i row located with old | ⟨rfl, rfl⟩
    · exact grid.cells i row p old member
    · rw [List.mem_singleton.mp member]
      exact ⟨good, rank, _, stored, rfl, isOver⟩
  · intro row p located member
    rcases split 0 row located with old | ⟨empty, _⟩
    · exact grid.ground row p old member
    · exact absurd empty (Nat.ne_of_lt grid.nonempty)
  · intro i low high p q foundLow foundHigh inHigh inLow same
    rcases split (i + 1) high foundHigh with oldHigh | ⟨last, rfl⟩
    · rcases split i low foundLow with oldLow | ⟨wrong, _⟩
      · exact grid.towers i low high p q oldLow oldHigh inHigh inLow same
      · have bound := (List.getElem?_eq_some_iff.mp oldHigh).1
        omega
    · rcases split i low foundLow with oldLow | ⟨wrong, _⟩
      · obtain ⟨row, isLast, first⟩ := grid.top
        rw [List.getLast?_eq_getElem?, ← last, Nat.add_sub_cancel, oldLow] at isLast
        obtain rfl := Option.some.inj isLast
        rw [List.mem_singleton.mp inHigh] at same ⊢
        obtain ⟨head, rest, isHead⟩ := grid.heads low (List.mem_of_getElem? oldLow)
        have isFirst : q = (head, 0) :=
          grid.eq_of_key oldLow inLow (by simp [isHead]) same.symm
        rw [downAt_found stored, isFirst, ← first, isHead]
        rfl
      · omega
  · exact ⟨[(fresh, 0)], by simp, rfl⟩
  · intro address isGood
    obtain ⟨inode, found, ok⟩ := grid.goods address isGood
    exact ⟨inode, found, ok.isOver, ok.right, ok.down⟩

end Grid

end Hosk
