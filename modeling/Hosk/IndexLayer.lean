import Hosk.IndexInvariant
import Hosk.IndexLower

/-! Index layers as lists of rows over an intermediate list, and the rows an mnode is linked in. -/

namespace Hosk

def Mnode.entry (mnode : Mnode) : Entry := ⟨mnode.key, mnode.node, mnode.level, mnode.marked⟩

namespace Enclave

def isOver (e : Enclave) (mnode address : Nat) : Bool :=
  (e.inode address).map Inode.intermed = some mnode

def listedEntries (e : Enclave) : List Entry :=
  match e.inode e.sentinel with
  | none => []
  | some sentinel =>
      (chainFrom (nextAt e.mnodes) e.mnodes.length sentinel.intermed).tail.filterMap fun address =>
        (e.mnode address).map Mnode.entry

def linkedKeys (e : Enclave) : List (List Nat) :=
  e.linkedRows.map fun row => row.tail.filterMap fun address => (e.inode address).map Inode.key

/-- The level of each of these mnodes is the number of rows that link an inode of it. -/
def LevelsCount (e : Enclave) (listed : Nat → Prop) : Prop :=
  ∀ address mnode, listed address → e.mnode address = some mnode →
    mnode.level = e.linkedRows.countP fun row => row.any (e.isOver address)

def LevelsTruthful (e : Enclave) : Prop := e.LevelsCount e.Listed

end Enclave

/-- The mnodes of an intermediate list, and the rows of inodes over them, bottom first. -/
structure IndexLayer (e : Enclave) (list : List (Nat × Entry)) (rows : List (List (Nat × Nat))) :
    Prop where
  intermed : ∃ base height, Intermed e.mnodes e.nodes base height list
  column : Chain (downAt e.inodes) e.sentinel (rows.map firstOf).reverse
  chains : ∀ row ∈ rows, Chain (rightAt e.inodes) (firstOf row) (row.map Prod.fst)
  heads : ∀ row ∈ rows, ∃ head rest, row = (head, 0) :: rest
  increasing : ∀ row ∈ rows, row.Pairwise fun p q => p.2 < q.2
  cells : ∀ row ∈ rows, ∀ p ∈ row, ∃ inode entry, e.inode p.1 = some inode ∧
    (inode.intermed, entry) ∈ list ∧ entry.key = p.2
  apart : rows.Pairwise fun row other => ∀ p ∈ row, ∀ q ∈ other, p.1 ≠ q.1
  ground : ∀ low ∈ rows.head?, ∀ p ∈ low, downAt e.inodes p.1 = some 0

def Links (row : List (Nat × Nat)) (key : Nat) : Prop := key ∈ row.map Prod.snd

instance (row : List (Nat × Nat)) (key : Nat) : Decidable (Links row key) :=
  inferInstanceAs (Decidable (_ ∈ _))

def Truthful (list : List (Nat × Entry)) (rows : List (List (Nat × Nat))) : Prop :=
  ∀ p ∈ list, p.2.level = rows.countP fun row => Links row p.2.key

namespace IndexLayer

variable {e : Enclave} {list : List (Nat × Entry)} {rows : List (List (Nat × Nat))}

theorem linkedRows_eq (layer : IndexLayer e list rows) :
    e.linkedRows = rows.map (List.map Prod.fst) :=
  e.linkedRows_of layer.column layer.chains

theorem listed_iff (layer : IndexLayer e list rows) (nonempty : rows ≠ []) {address : Nat} :
    e.Listed address ↔ ∃ p ∈ list, p.1 = address := by
  obtain ⟨base, height, intermed⟩ := layer.intermed
  obtain ⟨node, inSentinel⟩ := intermed.sentinel
  have isTop := List.getLast_mem nonempty
  obtain ⟨head, cells, same⟩ := layer.heads _ isTop
  obtain ⟨inode, entry, found, inList, sameKey⟩ :=
    layer.cells _ isTop (head, 0) (by rw [same]; exact List.mem_cons_self)
  have equal := intermed.eq_of_key inList inSentinel sameKey
  have isBase : inode.intermed = base := congrArg Prod.fst equal
  have column := layer.column
  rw [← List.dropLast_append_getLast nonempty, same, List.map_append, List.reverse_append] at column
  have isSentinel : e.sentinel = head := column.start_eq
  have follows : Chain.Follows (nextAt e.mnodes) base address ↔ address ∈ list.map Prod.fst :=
    intermed.chain.follows_iff (intermed.nonzero inSentinel)
  constructor
  · rintro ⟨sentinel, found', listed⟩
    rw [isSentinel, found] at found'
    obtain rfl := Option.some.inj found'
    rw [isBase] at listed
    exact List.mem_map.mp (follows.mp listed)
  · intro member
    refine ⟨inode, isSentinel ▸ found, ?_⟩
    rw [isBase]
    exact follows.mpr (List.mem_map.mpr member)

theorem over_unique (layer : IndexLayer e list rows) {row : List (Nat × Nat)} (inRows : row ∈ rows)
    {p q : Nat × Nat} (inP : p ∈ row) (inQ : q ∈ row) {inode other : Inode}
    (found : e.inode p.1 = some inode) (foundOther : e.inode q.1 = some other)
    (same : inode.intermed = other.intermed) : p = q := by
  obtain ⟨_, _, intermed⟩ := layer.intermed
  obtain ⟨_, entry, stored, inList, key⟩ := layer.cells row inRows p inP
  obtain rfl := Option.some.inj (found.symm.trans stored)
  obtain ⟨_, entry', stored', inList', key'⟩ := layer.cells row inRows q inQ
  obtain rfl := Option.some.inj (foundOther.symm.trans stored')
  have entries : entry = entry' := congrArg Prod.snd (intermed.eq_of_address inList inList' same)
  have distinct : (row.map Prod.snd).Nodup :=
    List.pairwise_map.mpr ((layer.increasing row inRows).imp Nat.ne_of_lt)
  refine List.inj_on_of_nodup_map distinct inP inQ ?_
  rw [← key, ← key', entries]

theorem any_over_iff (layer : IndexLayer e list rows) {row : List (Nat × Nat)} (inRows : row ∈ rows)
    {p : Nat × Entry} (member : p ∈ list) :
    (row.map Prod.fst).any (e.isOver p.1) = true ↔ Links row p.2.key := by
  obtain ⟨base, height, intermed⟩ := layer.intermed
  constructor
  · intro any
    obtain ⟨address, inRow, isOver⟩ := List.any_eq_true.mp any
    obtain ⟨q, inCells, rfl⟩ := List.mem_map.mp inRow
    obtain ⟨inode, entry, found, inList, sameKey⟩ := layer.cells row inRows q inCells
    rw [Enclave.isOver, found, decide_eq_true_eq, Option.map_some] at isOver
    have same := intermed.eq_of_address inList member (Option.some.inj isOver)
    rw [← same]
    exact List.mem_map.mpr ⟨q, inCells, sameKey.symm⟩
  · intro linked
    obtain ⟨q, inCells, sameKey⟩ := List.mem_map.mp linked
    obtain ⟨inode, entry, found, inList, entryKey⟩ := layer.cells row inRows q inCells
    have same := intermed.eq_of_key inList member (entryKey.trans sameKey)
    refine List.any_eq_true.mpr ⟨q.1, List.mem_map_of_mem inCells, ?_⟩
    rw [Enclave.isOver, found, ← same]
    simp

theorem countP_over (layer : IndexLayer e list rows) {p : Nat × Entry} (member : p ∈ list) :
    (e.linkedRows.countP fun row => row.any (e.isOver p.1)) =
      rows.countP fun row => Links row p.2.key := by
  rw [layer.linkedRows_eq, List.countP_map]
  refine List.countP_congr fun row inRows => ?_
  rw [Function.comp_apply, layer.any_over_iff inRows member, decide_eq_true_eq]

theorem levelsCount_iff (layer : IndexLayer e list rows) {listed : Nat → Prop}
    (isListed : ∀ address, listed address ↔ ∃ p ∈ list, p.1 = address) :
    e.LevelsCount listed ↔ Truthful list rows := by
  obtain ⟨_, _, intermed⟩ := layer.intermed
  constructor
  · intro levels p member
    obtain ⟨next, stored⟩ := intermed.holds p member
    rw [← layer.countP_over member]
    exact levels p.1 _ ((isListed p.1).mpr ⟨p, member, rfl⟩) stored
  · intro truthful address mnode inList stored
    obtain ⟨p, member, rfl⟩ := (isListed address).mp inList
    obtain ⟨next, stored'⟩ := intermed.holds p member
    obtain rfl := Option.some.inj (stored.symm.trans stored')
    rw [layer.countP_over member]
    exact truthful p member

theorem truthful_iff (layer : IndexLayer e list rows) (nonempty : rows ≠ []) :
    e.LevelsTruthful ↔ Truthful list rows :=
  layer.levelsCount_iff fun _ => layer.listed_iff nonempty

end IndexLayer

theorem Repr.indexLayer {e : Enclave} {l : Layout} (repr : Repr e l) :
    IndexLayer e l.mnodes l.rows := by
  refine ⟨⟨_, _, repr.intermed⟩, repr.column, ?_, repr.grid.heads, repr.grid.sorted, ?_, ?_, ?_⟩
  · intro row member
    obtain ⟨i, located⟩ := List.getElem?_of_mem member
    exact repr.grid.chains i row located
  · intro row member p inRow
    obtain ⟨i, located⟩ := List.getElem?_of_mem member
    obtain ⟨inode, entry, _, found, _, inList, sameKey, _⟩ := repr.cell located inRow
    exact ⟨inode, entry, found, inList, sameKey⟩
  · rw [List.pairwise_iff_getElem]
    intro i j iBound jBound less p inRow q inOther same
    have equal := repr.grid.row_unique (List.getElem?_eq_getElem iBound)
      (List.getElem?_eq_getElem jBound) inRow inOther same
    omega
  · intro low isLow p inLow
    rw [Option.mem_def, List.head?_eq_getElem?] at isLow
    exact repr.grid.ground low p isLow inLow

namespace Repr

variable {e : Enclave} {l : Layout}

theorem listedEntries_eq (repr : Repr e l) : e.listedEntries = (abs e l).entries := by
  obtain ⟨_, inode, _, _, _, found, _, isBase⟩ := repr.sentinel
  have chain := repr.intermed.chain
  have listed := chainFrom_eq chain (chain_length_le e.mnodes Mnode.next chain)
  rw [Enclave.listedEntries, found]
  simp only [isBase, listed, abs, ← List.map_tail, List.filterMap_map]
  rw [← List.filterMap_eq_map]
  apply List.filterMap_congr
  intro p inTail
  obtain ⟨next, stored⟩ := repr.intermed.holds p (List.mem_of_mem_tail inTail)
  rw [Function.comp_apply, show e.mnode p.1 = some _ from stored]
  rfl

theorem linkedKeys_eq (repr : Repr e l) : e.linkedKeys = (abs e l).rows := by
  rw [Enclave.linkedKeys, repr.indexLayer.linkedRows_eq, List.map_map, abs]
  apply List.map_congr_left
  intro row member
  obtain ⟨i, located⟩ := List.getElem?_of_mem member
  simp only [Function.comp_apply, ← List.map_tail, List.filterMap_map]
  rw [← List.filterMap_eq_map]
  apply List.filterMap_congr
  intro p inTail
  obtain ⟨inode, _, _, found, sameKey, _⟩ := repr.cell located (List.mem_of_mem_tail inTail)
  rw [Function.comp_apply, show e.inode p.1 = some _ from found, Option.map_some, sameKey]

end Repr

namespace IndexLayer

variable {e : Enclave} {list : List (Nat × Entry)} {low second : List (Nat × Nat)}
  {rest : List (List (Nat × Nat))}

def layout (base : Nat) (list : List (Nat × Entry)) (rows : List (List (Nat × Nat))) : Layout :=
  ⟨base, list, rows, 0, fun _ => True, fun _ => 0⟩

theorem disjoint (layer : IndexLayer e list (low :: second :: rest)) :
    (∀ row ∈ second :: rest, ∀ p ∈ low, ∀ q ∈ row, p.1 ≠ q.1) ∧
      (∀ row ∈ rest, ∀ p ∈ second, ∀ q ∈ row, p.1 ≠ q.1) ∧
        rest.Pairwise fun row other => ∀ p ∈ row, ∀ q ∈ other, p.1 ≠ q.1 := by
  simpa only [List.pairwise_cons] using layer.apart

theorem bgLowerIlevel_detaches (layer : IndexLayer e list (low :: second :: rest))
    (raised : ∀ p ∈ list, Links second p.2.key → 1 ≤ p.2.level) : ∃ base middle fuel,
      (∀ platform, e.bgLowerIlevel platform (firstOf second) =
        Enclave.collectLoop platform fuel middle (firstOf low)) ∧
      Detached e (layout base list (low :: second :: rest)) second middle ∧
      Chain (rightAt middle.inodes) (firstOf low) (low.map Prod.fst) ∧ low.length < fuel := by
  obtain ⟨base, height, intermed⟩ := layer.intermed
  have inLow : low ∈ low :: second :: rest := List.mem_cons_self
  have inSecond : second ∈ low :: second :: rest := List.mem_cons_of_mem _ List.mem_cons_self
  have column := layer.column
  simp only [List.map_cons, List.reverse_cons, List.append_assoc, List.cons_append,
    List.nil_append] at column
  obtain ⟨inode, found, down⟩ := Option.map_eq_some_iff.mp column.next_eq
  refine ⟨base, e.bgLowerIlevel_detaches (l := layout base list (low :: second :: rest)) intermed
    (layer.chains low inLow) (layer.chains second inSecond)
    (List.pairwise_map.mpr ((layer.increasing second inSecond).imp Nat.ne_of_lt)) ?_
    (layer.disjoint.1 second List.mem_cons_self) found down⟩
  intro p member
  obtain ⟨cell, entry, stored, inList, sameKey⟩ := layer.cells second inSecond p member
  refine ⟨cell, stored, entry, inList, sameKey, raised _ inList ?_⟩
  rw [Links, sameKey]
  exact List.mem_map_of_mem member

theorem lowered (layer : IndexLayer e list (low :: second :: rest)) {base : Nat} {e' : Enclave}
    (lowered : Lowered e (layout base list (low :: second :: rest)) low second e') :
    IndexLayer e' (lowerKeys (second.map Prod.snd) list) (second :: rest) := by
  obtain ⟨apartLow, apartSecond, apartRest⟩ := layer.disjoint
  have inSecond : second ∈ low :: second :: rest := List.mem_cons_of_mem _ List.mem_cons_self
  have column := layer.column
  simp only [List.map_cons, List.reverse_cons, List.append_assoc, List.cons_append,
    List.nil_append] at column
  obtain ⟨inode, found, _⟩ := Option.map_eq_some_iff.mp column.next_eq
  have notInLow : ∀ row ∈ second :: rest, ∀ p ∈ row, p.1 ∉ low.map Prod.fst := by
    intro row member p inRow again
    obtain ⟨q, inLow, same⟩ := List.mem_map.mp again
    exact apartLow row member q inLow p inRow same
  obtain ⟨height', intermed'⟩ := lowered.intermed
  refine ⟨⟨base, height', intermed'⟩, ?_, ?_, ?_, ?_, ?_, ?_, ?_⟩
  · rw [lowered.sentinel]
    simp only [List.map_cons, List.reverse_cons]
    have bottom : downAt e'.inodes (firstOf second) = some 0 := by
      obtain ⟨head, cells, rfl⟩ := layer.heads second inSecond
      have notLow := notInLow _ List.mem_cons_self _ List.mem_cons_self
      have stored : e.inode head = some inode := found
      rw [firstOf_cons, downAt, show Store.get e'.inodes head = _ from lowered.kept _ notLow, stored]
      simp
    refine column.replace ?_ bottom rfl
    intro address member
    obtain ⟨row, inRest, rfl⟩ := List.mem_map.mp (List.mem_reverse.mp member)
    obtain ⟨head, cells, rfl⟩ :=
      layer.heads row (List.mem_cons_of_mem _ (List.mem_cons_of_mem _ inRest))
    have notLow := notInLow _ (List.mem_cons_of_mem _ inRest) _ List.mem_cons_self
    have notSecond : head ∉ second.map Prod.fst := by
      intro again
      obtain ⟨q, inSecond, same⟩ := List.mem_map.mp again
      exact apartSecond _ inRest q inSecond _ List.mem_cons_self same
    rw [firstOf_cons, downAt, show Store.get e'.inodes head = _ from lowered.kept _ notLow]
    simp only [if_neg notSecond, Option.map_id']
    rfl
  · intro row member
    refine (layer.chains row (List.mem_cons_of_mem _ member)).congr ?_
    intro address inRow
    obtain ⟨p, inCells, rfl⟩ := List.mem_map.mp inRow
    rw [rightAt, show Store.get e'.inodes p.1 = _ from lowered.kept _ (notInLow row member p inCells),
      Option.map_map]
    refine congrArg (fun f => Option.map f (Store.get e.inodes p.1)) (funext fun inode => ?_)
    simp only [Function.comp_apply]
    split <;> rfl
  · exact fun row member => layer.heads row (List.mem_cons_of_mem _ member)
  · exact fun row member => layer.increasing row (List.mem_cons_of_mem _ member)
  · intro row member p inRow
    obtain ⟨cell, entry, stored, inList, sameKey⟩ :=
      layer.cells row (List.mem_cons_of_mem _ member) p inRow
    have now : e'.inode p.1 = some (if p.1 ∈ second.map Prod.fst then { cell with down := 0 }
        else cell) := by
      rw [lowered.kept _ (notInLow row member p inRow), stored]
      rfl
    have listed : ∃ entry', (cell.intermed, entry') ∈ lowerKeys (second.map Prod.snd) list ∧
        entry'.key = p.2 := by
      by_cases linked : entry.key ∈ second.map Prod.snd
      · exact ⟨{ entry with level := entry.level - 1 },
          List.mem_map.mpr ⟨_, inList, if_pos linked⟩, sameKey⟩
      · exact ⟨entry, List.mem_map.mpr ⟨_, inList, if_neg linked⟩, sameKey⟩
    obtain ⟨entry', inList', sameKey'⟩ := listed
    refine ⟨_, entry', now, ?_, sameKey'⟩
    split <;> exact inList'
  · exact List.pairwise_cons.mpr ⟨apartSecond, apartRest⟩
  · rintro _ ⟨⟩ p member
    obtain ⟨cell, _, stored, _⟩ := layer.cells second inSecond p member
    rw [downAt, show Store.get e'.inodes p.1 = _ from
      lowered.kept _ (notInLow second List.mem_cons_self p member), stored]
    simp [List.mem_map_of_mem member]

theorem bgLowerIlevel_returns {platform : Platform} (honest : platform.Honest)
    (layer : IndexLayer e list (low :: second :: rest))
    (raised : ∀ p ∈ list, Links second p.2.key → 1 ≤ p.2.level) : ∃ e',
      e.bgLowerIlevel platform (firstOf second) = some e' ∧
      IndexLayer e' (lowerKeys (second.map Prod.snd) list) (second :: rest) := by
  obtain ⟨base, middle, fuel, lowers, detached, lowChain, bound⟩ := layer.bgLowerIlevel_detaches raised
  obtain ⟨e', collected, lowered, _⟩ := detached.collect honest lowChain bound
  exact ⟨e', (lowers platform).trans collected, layer.lowered lowered⟩

end IndexLayer

theorem Repr.links_raised {e : Enclave} {l : Layout} (repr : Repr e l) {i : Nat}
    {row : List (Nat × Nat)} (located : l.rows[i]? = some row) :
    ∀ p ∈ l.mnodes, Links row p.2.key → 1 ≤ p.2.level := by
  intro p member links
  obtain ⟨q, inRow, sameKey⟩ := List.mem_map.mp links
  obtain ⟨_, entry, _, _, _, inList, entryKey, level, _⟩ := repr.cell located inRow
  have same := repr.intermed.eq_of_key inList member (entryKey.trans sameKey)
  rw [← same]
  exact Nat.le_trans (Nat.le_add_left 1 i) level

theorem Repr.lowest_rows {e : Enclave} {l : Layout} (repr : Repr e l) {newLow : Nat}
    (isHead : l.heads[1]? = some newLow) : ∃ low second rest, l.rows = low :: second :: rest ∧
      firstOf second = newLow ∧ IndexLayer e l.mnodes (low :: second :: rest) ∧
      ∀ p ∈ l.mnodes, Links second p.2.key → 1 ≤ p.2.level := by
  obtain ⟨low, second, rest, rows⟩ : ∃ low second rest, l.rows = low :: second :: rest := by
    have wide := (List.getElem?_eq_some_iff.mp isHead).1
    rw [heads_length] at wide
    match rows : l.rows, wide with
    | low :: second :: rest, _ => exact ⟨low, second, rest, rfl⟩
  have isSecond : l.rows[1]? = some second := by
    rw [rows]
    rfl
  exact ⟨low, second, rest, rows, Repr.start_of_head isSecond isHead, rows ▸ repr.indexLayer,
    repr.links_raised isSecond⟩

end Hosk
