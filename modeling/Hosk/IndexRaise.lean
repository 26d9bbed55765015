import Hosk.IntermedOps

/-! Seeking the place above, linking a new inode in there, and `bg_raise_mlevel`. -/

namespace Hosk

def Node.atLevel (node : Node) (level : Nat) : Node := { node with level := level }

/-- Data nodes may change in their levels, which only tell a new height, and in nothing else. -/
def LevelsOnly (nodes nodes' : Nodes) : Prop :=
  ∀ address, (Store.get nodes' address).map (·.atLevel 0) = (Store.get nodes address).map (·.atLevel 0)

theorem LevelsOnly.refl (nodes : Nodes) : LevelsOnly nodes nodes := fun _ => rfl

theorem LevelsOnly.trans {first second third : Nodes} (left : LevelsOnly first second)
    (right : LevelsOnly second third) : LevelsOnly first third :=
  fun address => (right address).trans (left address)

theorem LevelsOnly.found {nodes nodes' : Nodes} (levels : LevelsOnly nodes nodes') {address : Nat}
    {node : Node} (found : Store.get nodes address = some node) :
    ∃ level, Store.get nodes' address = some (node.atLevel level) := by
  have same := levels address
  rw [found, Option.map_some] at same
  obtain ⟨node', found', equal⟩ := Option.map_eq_some_iff.mp same
  refine ⟨node'.level, found'.trans (congrArg some ?_)⟩
  calc node' = (node'.atLevel 0).atLevel node'.level := rfl
    _ = node.atLevel node'.level := by rw [equal]; rfl

theorem LevelsOnly.missing {nodes nodes' : Nodes} (levels : LevelsOnly nodes nodes') {address : Nat}
    (missing : Store.get nodes address = none) : Store.get nodes' address = none := by
  have same := levels address
  rw [missing, Option.map_none] at same
  exact Option.map_eq_none_iff.mp same

theorem LevelsOnly.set {nodes : Nodes} {address : Nat} {node : Node}
    (found : Store.get nodes address = some node) (level : Nat) :
    LevelsOnly nodes (Store.set nodes address { node with level := level }) := by
  intro other
  by_cases same : address = other
  · subst same
    rw [Store.get_set_same, found]
    rfl
  · rw [Store.get_set_other _ same]

theorem LevelsOnly.keys {nodes nodes' : Nodes} (levels : LevelsOnly nodes nodes') :
    ∀ address node, Store.get nodes address = some node →
      ∃ node', Store.get nodes' address = some node' ∧ node'.key = node.key := by
  intro address node found
  obtain ⟨_, found'⟩ := levels.found found
  exact ⟨_, found', rfl⟩

theorem orderedInsert_between {before after : List Nat} {key : Nat}
    (smaller : ∀ other ∈ before, other < key) (greater : ∀ other ∈ after, key < other) :
    (before ++ after).orderedInsert (· ≤ ·) key = before ++ key :: after := by
  induction before with
  | nil =>
      cases after with
      | nil => rfl
      | cons head rest =>
          exact List.orderedInsert_cons_of_le _ rest (Nat.le_of_lt (greater head List.mem_cons_self))
  | cons head rest ih =>
      have notLe : ¬ key ≤ head := Nat.not_le_of_lt (smaller head List.mem_cons_self)
      rw [List.cons_append, List.orderedInsert_of_not_le _ _ notLe,
        ih fun other member => smaller other (List.mem_cons_of_mem _ member), List.cons_append]

theorem setLevels_append (first second : List Nat) (level : Nat) (entries : List Entry) :
    setLevels second level (setLevels first level entries) =
      setLevels (first ++ second) level entries := by
  rw [setLevels, setLevels, setLevels, List.map_map]
  apply List.map_congr_left
  intro entry _
  by_cases inFirst : entry.key ∈ first <;> by_cases inSecond : entry.key ∈ second <;>
    simp [inFirst, inSecond]

theorem setLevels_nil (level : Nat) (entries : List Entry) :
    setLevels [] level entries = entries := by
  simp [setLevels]

theorem setLevels_absent {keys : List Nat} {entries : List Entry} (level : Nat)
    (absent : ∀ entry ∈ entries, entry.key ∉ keys) : setLevels keys level entries = entries := by
  have same : ∀ entry ∈ entries,
      (if entry.key ∈ keys then { entry with level := level } else entry) = id entry := by
    intro entry member
    rw [if_neg (absent entry member), id]
  rw [setLevels, List.map_congr_left same, List.map_id]

theorem setLevels_one {before after : List Entry} (entry : Entry) (level : Nat)
    (others : ∀ other ∈ before ++ after, other.key ≠ entry.key) :
    setLevels [entry.key] level (before ++ entry :: after) =
      before ++ { entry with level := level } :: after := by
  have first : setLevels [entry.key] level before = before := setLevels_absent level
    fun other member => by simpa using others other (List.mem_append_left _ member)
  have last : setLevels [entry.key] level after = after := setLevels_absent level
    fun other member => by simpa using others other (List.mem_append_right _ member)
  rw [setLevels] at first last ⊢
  rw [List.map_append, List.map_cons, first, last]
  simp

namespace Index

theorem raise_nil (index : Index) (height : Nat) : index.raise height [] = index := by
  have rows : index.rows.modify height (fun row => insertKeys row []) = index.rows :=
    List.modify_id height index.rows
  rw [raise, setLevels_nil, rows]

theorem raise_raise (index : Index) (height : Nat) (first second : List Nat) :
    (index.raise height first).raise height second = index.raise height (first ++ second) := by
  rw [raise, raise, raise, setLevels_append]
  simp [insertKeys, List.foldl_append, List.modify_modify_eq, Function.comp_def]

end Index

section Grid

variable {inodes : Store Inode} {sentinel i : Nat} {l : Layout} {row : List (Nat × Nat)}

theorem Grid.row_length_le (grid : Grid inodes sentinel l) (located : l.rows[i]? = some row) :
    row.length ≤ inodes.length := by
  have bound := chain_length_le inodes Inode.right (grid.chains i row located)
  rwa [List.length_map] at bound

end Grid

namespace Repr

variable {e : Enclave} {l : Layout} {platform : Platform} {i : Nat} {row : List (Nat × Nat)}

theorem seekAbove_from (repr : Repr e l) (located : l.rows[i]? = some row) {start key : Nat}
    {first : Inode} (startFound : e.inode start = some first) :
    ∀ rest fuel before p, row = before ++ p :: rest → p.2 < key →
      (rest ≠ [] → first.right ≠ 0 ∧ first.right ∉ rest.tail.map Prod.fst) → rest.length < fuel →
      ∃ before q after, row = before ++ q :: after ∧ q.2 < key ∧ (∀ r ∈ after, key ≤ r.2) ∧
        e.seekAbove start key fuel (firstOf rest) p.1 = some (firstOf after, q.1) := by
  intro rest
  induction rest with
  | nil =>
      intro fuel before p split smaller _ bound
      obtain ⟨fuel, rfl⟩ := Nat.exists_eq_succ_of_ne_zero (Nat.ne_of_gt bound)
      exact ⟨before, p, [], split, smaller, by simp, rfl⟩
  | cons r rest ih =>
      intro fuel before p split smaller apart bound
      obtain ⟨fuel, rfl⟩ := Nat.exists_eq_succ_of_ne_zero (Nat.ne_of_gt (Nat.zero_lt_of_lt bound))
      have inRow : r ∈ row := by simp [split]
      have behind : row = (before ++ [p]) ++ r :: rest := by simp [split]
      obtain ⟨inode, entry, next, found, _, _, sameKey, _, stored⟩ := repr.cell located inRow
      obtain ⟨inode', found', _, right⟩ := repr.grid.at_split located behind
      obtain rfl : inode' = inode := Option.some.inj (found'.symm.trans found)
      obtain ⟨back, backFound, _, backRight⟩ := repr.grid.at_split located split
      have backStored : e.inode p.1 = some back := backFound
      have nonzero : r.1 ≠ 0 := repr.grid.nonzero located inRow
      rw [firstOf_cons, Enclave.seekAbove, if_neg nonzero]
      simp only [found, stored, Option.bind_eq_bind, Option.bind_some, Entry.at, sameKey]
      by_cases below : r.2 < key
      · rw [if_pos below]
        obtain ⟨present, notLater⟩ := apart (List.cons_ne_nil r rest)
        have moves : firstOf rest ≠ first.right := by
          intro same
          cases rest with
          | nil => exact present same.symm
          | cons s later =>
              refine notLater ?_
              rw [← same]
              simp
        simp only [startFound, backStored, Option.bind_some, backRight, right, if_neg moves,
          firstOf_cons]
        refine ih fuel (before ++ [p]) r behind below ?_ (by simpa using bound)
        intro _
        refine ⟨present, fun later => notLater ?_⟩
        cases rest with
        | nil => exact later
        | cons s rest => exact List.mem_cons_of_mem _ later
      · rw [if_neg below]
        refine ⟨before, p, r :: rest, split, smaller, ?_, rfl⟩
        intro s member
        have sorted := repr.grid.sorted row (List.mem_of_getElem? located)
        rw [behind, List.pairwise_append, List.pairwise_cons] at sorted
        rcases List.mem_cons.mp member with rfl | inRest
        · exact Nat.le_of_not_lt below
        · have later := sorted.2.1.1 s inRest
          omega

theorem seekAbove_returns (repr : Repr e l) (located : l.rows[i]? = some row) {key : Nat}
    {before rest : List (Nat × Nat)} {p : Nat × Nat} (split : row = before ++ p :: rest)
    (smaller : p.2 < key) : ∃ before q after, row = before ++ q :: after ∧ q.2 < key ∧
      (∀ r ∈ after, key ≤ r.2) ∧
        e.seekAbove p.1 key (e.inodes.length + 1) p.1 p.1 = some (firstOf after, q.1) := by
  have inRow : p ∈ row := by simp [split]
  obtain ⟨inode, entry, next, found, _, _, sameKey, _, stored⟩ := repr.cell located inRow
  obtain ⟨inode', found', _, right⟩ := repr.grid.at_split located split
  obtain rfl : inode' = inode := Option.some.inj (found'.symm.trans found)
  have nonzero : p.1 ≠ 0 := repr.grid.nonzero located inRow
  have size := repr.grid.row_length_le located
  rw [split, List.length_append, List.length_cons] at size
  rw [Enclave.seekAbove, if_neg nonzero]
  simp only [found, stored, Option.bind_eq_bind, Option.bind_some, Entry.at, sameKey, if_pos smaller,
    if_true, right]
  refine repr.seekAbove_from located found rest _ before p split smaller ?_ (by omega)
  intro present
  cases rest with
  | nil => exact absurd rfl present
  | cons r rest =>
      have nodup := (repr.grid.chains i row located).nodup
      rw [split, List.map_append, List.map_cons, List.map_cons, List.nodup_append, List.nodup_cons,
        List.nodup_cons] at nodup
      rw [right]
      exact ⟨repr.grid.nonzero located (by simp [split]), nodup.2.1.2.1⟩

end Repr

theorem Enclave.raiseNodeLevel_returns (e : Enclave) {address : Nat} (level : Nat) {node : Node}
    (found : Store.get e.nodes address = some node) : ∃ nodes,
      e.raiseNodeLevel address level = some { e with nodes := nodes } ∧
        LevelsOnly e.nodes nodes := by
  by_cases lower : node.level < level
  · refine ⟨_, ?_, LevelsOnly.set found level⟩
    rw [Enclave.raiseNodeLevel, found]
    simp only [Option.bind_eq_bind, Option.bind_some, if_pos lower]
    rw [Enclave.setNodeLevel, found]
    rfl
  · refine ⟨e.nodes, ?_, LevelsOnly.refl _⟩
    rw [Enclave.raiseNodeLevel, found]
    simp only [Option.bind_eq_bind, Option.bind_some, if_neg lower]

def Layout.heads (l : Layout) : List Nat := l.rows.map firstOf

def Layout.link (l : Layout) (i fresh : Nat) (mnodes : List (Nat × Entry))
    (row : List (Nat × Nat)) : Layout :=
  { l with
    mnodes := mnodes
    rows := l.rows.set i row
    good := fun address => l.good address ∨ address = fresh
    rank := Function.update l.rank fresh (l.lowest + i) }

namespace Repr

variable {e : Enclave} {l : Layout} {platform : Platform} {i : Nat} {row : List (Nat × Nat)}

theorem key_not_in_row (repr : Repr e l) {m : Nat × Entry} (member : m ∈ l.mnodes)
    (low : m.2.level ≤ i) (located : l.rows[i]? = some row) {p : Nat × Nat} (inRow : p ∈ row) :
    p.2 ≠ m.2.key := by
  obtain ⟨inode, entry, _, _, _, inList, sameKey, level, _⟩ := repr.cell located inRow
  intro same
  have equal := repr.intermed.eq_of_key inList member (sameKey.trans same)
  have level' : i + 1 ≤ m.2.level := equal ▸ level
  omega

theorem abs_link (repr : Repr e l) {e' : Enclave} {before after : List (Nat × Entry)}
    {m : Nat × Entry} {first last : List (Nat × Nat)} {p : Nat × Nat} {fresh : Nat}
    (split : l.mnodes = before ++ m :: after) (positive : 1 ≤ m.2.key)
    (located : l.rows[i]? = some row) (rowSplit : row = first ++ p :: last)
    (smaller : p.2 < m.2.key) (greater : ∀ r ∈ last, m.2.key < r.2)
    (nonDel : e'.nonDel = e.nonDel) (tallDel : e'.tallDel = e.tallDel)
    (unlinks : e'.trace.countP isUnlink = e.trace.countP isUnlink) :
    abs e' (l.link i fresh (before ++ (m.1, { m.2 with level := i + 1 }) :: after)
      (first ++ p :: (fresh, m.2.key) :: last)) = (abs e l).raise i [m.2.key] := by
  obtain ⟨node, rest, rfl⟩ := repr.intermed.before_cons split positive
  have sorted := repr.intermed.sorted
  rw [split, List.pairwise_append] at sorted
  have entries : setLevels [m.2.key] (i + 1) (rest.map Prod.snd ++ m.2 :: after.map Prod.snd) =
      rest.map Prod.snd ++ { m.2 with level := i + 1 } :: after.map Prod.snd := by
    apply setLevels_one
    intro entry member
    rcases List.mem_append.mp member with inKeys | inKeys
    · obtain ⟨q, inRest, rfl⟩ := List.mem_map.mp inKeys
      exact Nat.ne_of_lt (sorted.2.2 q (List.mem_cons_of_mem _ inRest) m List.mem_cons_self)
    · obtain ⟨q, inAfter, rfl⟩ := List.mem_map.mp inKeys
      exact Nat.ne_of_gt ((List.pairwise_cons.mp sorted.2.1).1 q inAfter)
  have rowSorted := repr.grid.sorted row (List.mem_of_getElem? located)
  rw [rowSplit, List.pairwise_append] at rowSorted
  have keys : insertKeys ((first ++ p :: last).tail.map Prod.snd) [m.2.key] =
      (first ++ p :: (fresh, m.2.key) :: last).tail.map Prod.snd := by
    have above : ∀ key ∈ last.map Prod.snd, m.2.key < key := by
      intro key member
      obtain ⟨r, inLast, rfl⟩ := List.mem_map.mp member
      exact greater r inLast
    rw [insertKeys, List.foldl_cons, List.foldl_nil]
    cases first with
    | nil =>
        have noneBefore : ∀ key ∈ ([] : List Nat), key < m.2.key :=
          fun _ none => absurd none List.not_mem_nil
        exact orderedInsert_between noneBefore above
    | cons head first =>
        have below : ∀ key ∈ (first ++ [p]).map Prod.snd, key < m.2.key := by
          intro key member
          obtain ⟨r, inside, rfl⟩ := List.mem_map.mp member
          rcases List.mem_append.mp inside with inFirst | isP
          · exact Nat.lt_trans
              (rowSorted.2.2 r (List.mem_cons_of_mem _ inFirst) p List.mem_cons_self) smaller
          · rw [List.mem_singleton.mp isP]
            exact smaller
        have placed := orderedInsert_between below above
        simpa using placed
  have rows : ((l.rows.set i (first ++ p :: (fresh, m.2.key) :: last)).map
      fun row => row.tail.map Prod.snd) =
        (l.rows.map fun row => row.tail.map Prod.snd).modify i
          fun row => insertKeys row [m.2.key] := by
    rw [List.map_set, ← keys, ← rowSplit, List.modify_eq_set_getElem?, List.getElem?_map, located]
    rfl
  rw [abs, Index.raise, abs]
  simp only [Layout.link, split, List.cons_append, List.tail_cons, List.map_append, List.map_cons,
    entries, nonDel, tallDel, unlinks]
  rw [← rows]

theorem fresh_inode (repr : Repr e l) {e' : Enclave} {before after : List (Nat × Entry)}
    {m : Nat × Entry} {fresh : Nat} {marked : Bool} {cell : Mnode} (entry : Entry)
    (split : l.mnodes = before ++ m :: after) (notListed : ∀ q ∈ l.mnodes, fresh ≠ q.1)
    (trace : e'.trace = .inodeNew fresh marked :: e.trace)
    (mnodes : e'.mnodes = Store.set (Store.erase e.mnodes fresh) m.1 cell)
    (inodes : ∀ address, fresh ≠ address → ¬ l.good address → e'.inode address = e.inode address) :
    (∀ q ∈ before ++ (m.1, entry) :: after, q.1 ∈ live e'.trace) ∧
      (∀ address, l.good address ∨ address = fresh → address ∈ live e'.trace) ∧
      (∀ q ∈ before ++ (m.1, entry) :: after, e'.inode q.1 = none) ∧
      ∀ address mnode, e'.mnode address = some mnode →
        (∃ other, (address, other) ∈ before ++ (m.1, entry) :: after) ∨
          address ∈ dead e'.trace ∧ (address ∈ cleared e'.trace → mnode = ⟨0, 0, 0, 0, false⟩) := by
  have inList : ∀ q ∈ before ++ (m.1, entry) :: after, ∃ old ∈ l.mnodes, q.1 = old.1 := by
    intro q member
    rw [List.mem_append, List.mem_cons] at member
    rcases member with inBefore | rfl | inAfter
    · exact ⟨q, by simp [split, inBefore], rfl⟩
    · exact ⟨m, by simp [split], rfl⟩
    · exact ⟨q, by simp [split, inAfter], rfl⟩
  rw [trace]
  refine ⟨?_, ?_, ?_, ?_⟩
  · intro q member
    obtain ⟨old, oldListed, same⟩ := inList q member
    rw [same]
    exact List.mem_cons_of_mem _ (repr.liveMnodes old oldListed)
  · rintro address (good | rfl)
    · exact List.mem_cons_of_mem _ (repr.liveInodes address good)
    · exact List.mem_cons_self
  · intro q member
    obtain ⟨old, oldListed, same⟩ := inList q member
    rw [same, inodes old.1 (notListed old oldListed) (repr.apart old oldListed)]
    exact repr.noInode old oldListed
  · rw [← trace]
    refine repr.strays_kept ?_ ?_
    · intro q member
      rw [split, List.mem_append, List.mem_cons] at member
      rcases member with inBefore | rfl | inAfter
      · exact ⟨q.2, by simp [inBefore]⟩
      · exact ⟨entry, by simp⟩
      · exact ⟨q.2, by simp [inAfter]⟩
    · intro address mnode stored
      rw [Enclave.mnode, mnodes] at stored
      by_cases here : m.1 = address
      · exact .inl ⟨entry, by simp [here]⟩
      rw [Store.get_set_other _ here] at stored
      by_cases isFresh : fresh = address
      · rw [isFresh, Store.get_erase_same] at stored
        exact absurd stored (Option.some_ne_none mnode).symm
      · rw [Store.get_erase_other isFresh] at stored
        rw [trace]
        exact .inr ⟨stored,
          fun gone => List.mem_filter.mpr ⟨gone, decide_eq_true (Ne.symm isFresh)⟩,
          fun clear => (List.mem_filter.mp clear).1⟩

theorem raiseAt_returns (honest : platform.Honest) (repr : Repr e l)
    {before after : List (Nat × Entry)} {m : Nat × Entry} {first last : List (Nat × Nat)}
    {p : Nat × Nat} {down : Nat} (split : l.mnodes = before ++ m :: after)
    (positive : 1 ≤ m.2.key) (low : m.2.level ≤ i) (located : l.rows[i]? = some row)
    (rowSplit : row = first ++ p :: last) (smaller : p.2 < m.2.key)
    (notSmaller : ∀ r ∈ last, m.2.key ≤ r.2) (lead : Leads l i m.2.key down) :
    ∃ fresh e', e.raiseAt platform p.1 down m.1 (i + 1) = some (fresh, e') ∧
      LevelsOnly e.nodes e'.nodes ∧
      Repr e' (l.link i fresh (before ++ (m.1, { m.2 with level := i + 1 }) :: after)
        (first ++ p :: (fresh, m.2.key) :: last)) ∧
      Keeps l.good l.mnodes e l e'
        (l.link i fresh (before ++ (m.1, { m.2 with level := i + 1 }) :: after)
          (first ++ p :: (fresh, m.2.key) :: last)) ∧
      abs e' (l.link i fresh (before ++ (m.1, { m.2 with level := i + 1 }) :: after)
        (first ++ p :: (fresh, m.2.key) :: last)) = (abs e l).raise i [m.2.key] := by
  obtain ⟨freshNonzero, freshNotLive⟩ := honest.places e
  have isListed : m ∈ l.mnodes := by simp [split]
  have inRow : p ∈ row := by simp [rowSplit]
  have greater : ∀ r ∈ last, m.2.key < r.2 := by
    intro r inLast
    have different := repr.key_not_in_row isListed low located (by simp [rowSplit, inLast] : r ∈ row)
    have bound := notSmaller r inLast
    omega
  have notListed : ∀ q ∈ l.mnodes, platform.place e ≠ q.1 := by
    intro q member same
    exact freshNotLive (same ▸ repr.liveMnodes q member)
  have notGood : ¬ l.good (platform.place e) := fun good => freshNotLive (repr.liveInodes _ good)
  have pGood : l.good p.1 := (repr.grid.cells i row p located inRow).1
  have pApart : platform.place e ≠ p.1 := fun same => notGood (same ▸ pGood)
  obtain ⟨behind, found, _, right⟩ := repr.grid.at_split located rowSplit
  have behindFound : e.inode p.1 = some behind := found
  have stored : e.mnode m.1 = some (m.2.at (firstOf after)) := repr.intermed.at_split split
  obtain ⟨dataNode, nodeFound, _⟩ := repr.intermed.nodes m isListed
  let made : Enclave := { e with
    inodes := Store.set e.inodes (platform.place e) ⟨firstOf last, down, m.1, m.2.key⟩
    mnodes := Store.erase e.mnodes (platform.place e)
    trace := .inodeNew (platform.place e) m.2.marked :: e.trace }
  let raised : Enclave := (made.setInode p.1 { behind with right := platform.place e }).setMnode m.1
    (Entry.at { m.2 with level := i + 1 } (firstOf after))
  obtain ⟨nodes, levelled, levelsOnly⟩ :=
    raised.raiseNodeLevel_returns (i + 1) nodeFound
  have kept : Store.get made.mnodes m.1 = some (m.2.at (firstOf after)) :=
    (Store.get_erase_other (notListed m isListed)).trans stored
  have computed : e.raiseAt platform p.1 down m.1 (i + 1) =
      some (platform.place e, { raised with nodes := nodes }) := by
    have allocated : e.inodeNew platform behind.right down m.1 = some (platform.place e, made) := by
      rw [Enclave.inodeNew, stored, right]
      rfl
    have linked : made.setRight p.1 (platform.place e) =
        some (made.setInode p.1 { behind with right := platform.place e }) := by
      rw [Enclave.setRight, Enclave.inode, Store.get_set_other _ pApart, found]
      rfl
    have levelSet : (made.setInode p.1 { behind with right := platform.place e }).setLevel m.1 (i + 1) =
        some raised := by
      rw [Enclave.setLevel, Enclave.mnode, Enclave.setInode, kept]
      rfl
    have again : raised.mnode m.1 = some (Entry.at { m.2 with level := i + 1 } (firstOf after)) :=
      Store.get_set_same _ _ _
    rw [Enclave.raiseAt]
    simp only [behindFound, allocated, linked, levelSet, again, Option.bind_eq_bind,
      Option.bind_some, Entry.at, levelled]
  let last' : Enclave := { raised with nodes := nodes }
  have others : ∀ address, platform.place e ≠ address → ¬ l.good address →
      last'.inode address = e.inode address := by
    intro address notFresh notGood
    have notP : p.1 ≠ address := fun same => notGood (same ▸ pGood)
    exact (Store.get_set_other _ notP).trans (Store.get_set_other _ notFresh)
  obtain ⟨liveMnodes, liveInodes, noInode, strays⟩ := repr.fresh_inode
    { m.2 with level := i + 1 } split notListed (show last'.trace = _ from rfl) rfl others
  refine ⟨platform.place e, _, computed, levelsOnly, ⟨?_, ?_, liveMnodes, liveInodes, noInode, strays⟩,
    ⟨rfl, ?_, ?_, ?_⟩, ?_⟩
  · obtain ⟨node, rest, isBefore⟩ := repr.intermed.before_cons split positive
    have apart : Intermed made.mnodes e.nodes l.base l.rows.length l.mnodes :=
      repr.intermed.congr (fun q member => Store.get_erase_other (notListed q member))
        fun address node found => ⟨node, found, rfl⟩
    have rewritten : Intermed raised.mnodes e.nodes l.base l.rows.length
        (before ++ (m.1, { m.2 with level := i + 1 }) :: after) :=
      apart.rewrite split rfl rfl
        ⟨node, rest ++ (m.1, { m.2 with level := i + 1 }) :: after, by simp [isBefore]⟩
    have renamed := rewritten.congr (fun _ _ => rfl) levelsOnly.keys
    simpa only [Layout.link, List.length_set] using renamed
  · have grid : Grid e.inodes e.sentinel
        { l with mnodes := before ++ (m.1, { m.2 with level := i + 1 }) :: after } :=
      repr.grid.mono ?_
    · have raisedOver : Over (before ++ (m.1, { m.2 with level := i + 1 }) :: after) m.1 m.2.key
          (i + 1) := ⟨{ m.2 with level := i + 1 }, by simp, rfl, Nat.le_refl _⟩
      exact grid.insert located rowSplit found freshNonzero notGood smaller greater raisedOver lead
        fun high q foundHigh inHigh =>
          repr.key_not_in_row isListed (Nat.le_succ_of_le low) foundHigh inHigh
    · rintro mnode key level _ ⟨entry, member, sameKey, enough⟩
      rw [split, List.mem_append, List.mem_cons] at member
      rcases member with inBefore | same | inAfter
      · exact ⟨entry, by simp [inBefore], sameKey, enough⟩
      · refine ⟨{ m.2 with level := i + 1 }, ?_, ?_, ?_⟩
        · rw [← same]
          simp
        · rw [← same]
          exact sameKey
        · have entryLow : entry.level ≤ i := by
            rw [← same] at low
            exact low
          exact Nat.le_trans enough (Nat.le_succ_of_le entryLow)
      · exact ⟨entry, by simp [inAfter], sameKey, enough⟩
  · intro address good
    refine ⟨.inl good, Function.update_of_ne ?_ _ _⟩
    exact fun same => notGood (same ▸ good)
  · intro address inode good stored
    by_cases same : p.1 = address
    · subst same
      obtain rfl : behind = inode := Option.some.inj (found.symm.trans stored)
      exact ⟨_, Store.get_set_same _ _ _, rfl⟩
    · refine ⟨inode, ?_, rfl⟩
      have notFresh : platform.place e ≠ address := fun same => notGood (same ▸ good)
      exact (Store.get_set_other _ same).trans ((Store.get_set_other _ notFresh).trans stored)
  · exact Keeps.mem_rewritten [] split rfl rfl
  · exact repr.abs_link split positive located rowSplit smaller greater rfl rfl rfl

theorem heads_set {rows : List (List (Nat × Nat))} {row row' : List (Nat × Nat)} {i : Nat}
    (located : rows[i]? = some row) (same : firstOf row' = firstOf row) :
    (rows.set i row').map firstOf = rows.map firstOf := by
  have here : (rows.map firstOf)[i]? = some (firstOf row) := by
    rw [List.getElem?_map, located]
    rfl
  obtain ⟨inHeads, value⟩ := List.getElem?_eq_some_iff.mp here
  rw [List.map_set, same, ← value]
  exact List.set_getElem_self inHeads

theorem firstOf_append_cons {first rest rest' : List (Nat × Nat)} {p : Nat × Nat} :
    firstOf (first ++ p :: rest) = firstOf (first ++ p :: rest') := by
  cases first <;> rfl

theorem heads_link {fresh : Nat} {mnodes : List (Nat × Entry)} {first last : List (Nat × Nat)}
    {p : Nat × Nat} {q : Nat × Nat} (located : l.rows[i]? = some row)
    (split : row = first ++ p :: last) :
    (l.link i fresh mnodes (first ++ p :: q :: last)).heads = l.heads :=
  heads_set located (by rw [split]; exact firstOf_append_cons)

theorem base_stored (repr : Repr e l) : ∃ node rest,
    l.mnodes = (l.base, ⟨0, node, l.rows.length, false⟩) :: rest ∧
      e.mnode l.base = some ⟨firstOf rest, node, 0, l.rows.length, false⟩ := by
  obtain ⟨node, rest, split⟩ := repr.intermed.first
  have stored := repr.intermed.at_split
    (show l.mnodes = [] ++ (l.base, ⟨0, node, l.rows.length, false⟩) :: rest from split)
  exact ⟨node, rest, split, stored⟩

theorem entry_positive (repr : Repr e l) {p : Nat × Entry} (member : p ∈ l.mnodes.tail) :
    p.2.key ≠ 0 := by
  obtain ⟨node, rest, split, _⟩ := repr.base_stored
  have sorted := repr.intermed.sorted
  rw [split, List.pairwise_cons] at sorted
  rw [split, List.tail_cons] at member
  exact Nat.ne_of_gt (sorted.1 p member)

/-- Raising from the intermediate layer, from `node` on: every middle of three low mnodes. -/
theorem raiseMlevelLoop_refines (honest : platform.Honest) (rest : List (Nat × Entry)) :
    ∀ fuel e l done prev node row first c last raised, Repr e l →
      l.mnodes = done ++ prev :: node :: rest → l.rows[0]? = some row → row = first ++ c :: last →
      c.2 < node.2.key → rest.length < fuel →
      ∃ e' l', e.raiseMlevelLoop platform l.base fuel c.1 c.1 c.1 prev.1 node.1 (firstOf rest) raised =
          some (raised || !(raisedM prev.2.level ((node :: rest).map Prod.snd)).isEmpty, e') ∧
        LevelsOnly e.nodes e'.nodes ∧ Repr e' l' ∧ l'.heads = l.heads ∧
        Keeps l.good l.mnodes e l e' l' ∧
        abs e' l' = (abs e l).raise 0 (raisedM prev.2.level ((node :: rest).map Prod.snd)) := by
  induction rest with
  | nil =>
      intro fuel e l done prev node row first c last raised repr split located rowSplit smaller bound
      obtain ⟨fuel, rfl⟩ := Nat.exists_eq_succ_of_ne_zero (Nat.ne_of_gt bound)
      refine ⟨e, l, ?_, LevelsOnly.refl _, repr, rfl, .refl e l, ?_⟩
      · rw [firstOf_nil, Enclave.raiseMlevelLoop, if_pos rfl]
        simp [raisedM]
      · exact (Index.raise_nil _ _).symm
  | cons next rest ih =>
      intro fuel e l done prev node row first c last raised repr split located rowSplit smaller bound
      obtain ⟨fuel, rfl⟩ := Nat.exists_eq_succ_of_ne_zero (Nat.ne_of_gt (Nat.zero_lt_of_lt bound))
      have fewer : rest.length < fuel := by simpa using bound
      have nodeSplit : l.mnodes = (done ++ [prev]) ++ node :: next :: rest := by simp [split]
      have nextSplit : l.mnodes = (done ++ [prev, node]) ++ next :: rest := by simp [split]
      have nonzero : next.1 ≠ 0 := repr.intermed.nonzero (by simp [split])
      have prevStored : e.mnode prev.1 = some (prev.2.at node.1) := repr.intermed.at_split split
      have nodeStored : e.mnode node.1 = some (node.2.at next.1) := repr.intermed.at_split nodeSplit
      have nextStored : e.mnode next.1 = some (next.2.at (firstOf rest)) :=
        repr.intermed.at_split nextSplit
      obtain ⟨_, _, _, startStored⟩ := repr.base_stored
      have order : node.2.key < next.2.key := by
        have sorted := repr.intermed.sorted
        rw [nodeSplit, List.pairwise_append, List.pairwise_cons] at sorted
        exact sorted.2.1.1 next List.mem_cons_self
      rw [firstOf_cons, Enclave.raiseMlevelLoop, if_neg nonzero]
      simp only [startStored, prevStored, nodeStored, nextStored, Option.bind_eq_bind,
        Option.bind_some, Entry.at, true_and, List.map_cons, raisedM]
      by_cases low : prev.2.level = 0 ∧ node.2.level = 0 ∧ next.2.level = 0
      · rw [if_pos low, if_pos low]
        obtain ⟨before, q, after, rowSplit', qSmaller, notSmaller, sought⟩ :=
          repr.seekAbove_returns located rowSplit smaller
        obtain ⟨fresh, middle, linked, levels, repr', keeps, absEq⟩ := repr.raiseAt_returns honest nodeSplit
          (by omega) (Nat.le_of_eq low.2.1) located rowSplit' qSmaller notSmaller (.inl ⟨rfl, rfl⟩)
        have bottom := (List.getElem?_eq_some_iff.mp located).1
        obtain ⟨e', l', loop, levels', final, heads, keeps', absFinal⟩ := ih fuel middle _
          (done ++ [prev]) (node.1, { node.2 with level := 0 + 1 }) next _ (before ++ [q])
          (fresh, node.2.key) after true repr' (by simp [Layout.link])
          (by rw [Layout.link, List.getElem?_set, if_pos rfl, if_pos bottom]) (by simp) order fewer
        refine ⟨e', l', ?_, levels.trans levels', final, ?_, keeps.onward keeps', ?_⟩
        · simp only [sought, Option.bind_some, linked]
          simpa [Layout.link] using loop
        · rw [heads, heads_link located rowSplit']
        · rw [absFinal, absEq, Index.raise_raise]
          rfl
      · rw [if_neg low, if_neg low]
        exact ih fuel e l (done ++ [prev]) node next row first c last raised repr nodeSplit located
          rowSplit (Nat.lt_trans smaller order) fewer

theorem bgRaiseMlevel_refines (honest : platform.Honest) (repr : Repr e l) {bottom : Nat}
    (isBottom : l.heads.head? = some bottom) : ∃ e' l',
      e.bgRaiseMlevel platform l.base bottom =
        some (!(raisedM l.rows.length (abs e l).entries).isEmpty, e') ∧
      LevelsOnly e.nodes e'.nodes ∧ Repr e' l' ∧ l'.heads = l.heads ∧
      Keeps l.good l.mnodes e l e' l' ∧
      abs e' l' = (abs e l).raise 0 (raisedM l.rows.length (abs e l).entries) := by
  obtain ⟨node, rest, split, stored⟩ := repr.base_stored
  have entries : (abs e l).entries = rest.map Prod.snd := by
    rw [abs, split]
    rfl
  rw [entries, Enclave.bgRaiseMlevel]
  simp only [stored, Option.bind_eq_bind, Option.bind_some]
  cases rest with
  | nil =>
      refine ⟨e, l, rfl, LevelsOnly.refl _, repr, rfl, .refl e l, ?_⟩
      exact (Index.raise_nil _ _).symm
  | cons next rest =>
      have nonzero : next.1 ≠ 0 := repr.intermed.nonzero (by simp [split])
      have nextStored : e.mnode next.1 = some (next.2.at (firstOf rest)) :=
        repr.intermed.at_split
          (show l.mnodes = [(l.base, ⟨0, node, l.rows.length, false⟩)] ++ next :: rest from split)
      cases rows : l.rows with
      | nil => exact absurd repr.grid.nonempty (by simp [rows])
      | cons row others =>
          have located : l.rows[0]? = some row := by rw [rows]; rfl
          obtain ⟨head, cells, inode, same, found, _⟩ := repr.head located
          have isHead : bottom = head := by
            rw [Layout.heads, rows, List.map_cons, List.head?_cons, same] at isBottom
            exact (Option.some.inj isBottom).symm
          have size := repr.intermed.length_le
          rw [split, List.length_cons, List.length_cons] at size
          have positive : 0 < next.2.key := by
            have sorted := repr.intermed.sorted
            rw [split, List.pairwise_cons] at sorted
            exact sorted.1 next List.mem_cons_self
          obtain ⟨e', l', loop, facts⟩ := raiseMlevelLoop_refines honest rest (e.mnodes.length + 1) e l
            [] (l.base, ⟨0, node, l.rows.length, false⟩) next row [] (head, 0) cells false repr split
            located same positive (by omega)
          rw [← rows]
          refine ⟨e', l', ?_, facts⟩
          rw [firstOf_cons, if_neg nonzero, nextStored, isHead]
          simpa [Entry.at] using loop

end Repr

end Hosk
