import Hosk.IndexRaise

/-! Raising from one row into the next, with the marked inodes unlinked on the way. -/

namespace Hosk

section Lookups

theorem entryOf_mem {entries : List Entry} (sorted : entries.Pairwise fun x y => x.key < y.key)
    {entry : Entry} (member : entry ∈ entries) : entryOf entries entry.key = some entry := by
  induction entries with
  | nil => exact absurd member List.not_mem_nil
  | cons head rest ih =>
      rw [List.pairwise_cons] at sorted
      rw [entryOf]
      rcases List.mem_cons.mp member with rfl | inRest
      · exact List.find?_cons_of_pos (by simp)
      · have smaller := sorted.1 entry inRest
        rw [List.find?_cons_of_neg (by simp; omega)]
        exact ih sorted.2 inRest

theorem levelOf_mem {entries : List Entry} (sorted : entries.Pairwise fun x y => x.key < y.key)
    {entry : Entry} (member : entry ∈ entries) : levelOf entries entry.key = entry.level := by
  rw [levelOf, entryOf_mem sorted member, Option.elim_some]

theorem markedOf_mem {entries : List Entry} (sorted : entries.Pairwise fun x y => x.key < y.key)
    {entry : Entry} (member : entry ∈ entries) : markedOf entries entry.key = entry.marked := by
  rw [markedOf, entryOf_mem sorted member, Option.elim_some]

theorem getD_row {rows : List (List Nat)} {row : List Nat} {i : Nat} (located : rows[i]? = some row) :
    rows.getD i [] = row := by
  rw [List.getD_eq_getElem?_getD, located, Option.getD_some]

theorem entryOf_setLevels (keys : List Nat) (level : Nat) (entries : List Entry) (key : Nat) :
    entryOf (setLevels keys level entries) key =
      (entryOf entries key).map fun entry =>
        if entry.key ∈ keys then { entry with level := level } else entry := by
  rw [entryOf, setLevels, List.find?_map]
  congr 1
  apply congrArg (List.find? · entries)
  funext entry
  simp only [Function.comp_apply]
  split <;> rfl

theorem markedOf_setLevels (keys : List Nat) (level : Nat) (entries : List Entry) (key : Nat) :
    markedOf (setLevels keys level entries) key = markedOf entries key := by
  rw [markedOf, entryOf_setLevels, markedOf]
  cases entryOf entries key with
  | none => rfl
  | some entry =>
      simp only [Option.map_some, Option.elim_some]
      split <;> rfl

theorem entryOf_key {entries : List Entry} {key : Nat} {entry : Entry}
    (found : entryOf entries key = some entry) : entry.key = key := by
  simpa using List.find?_some found

theorem levelOf_setLevels_other {keys : List Nat} (level : Nat) (entries : List Entry) {key : Nat}
    (absent : key ∉ keys) : levelOf (setLevels keys level entries) key = levelOf entries key := by
  rw [levelOf, entryOf_setLevels, levelOf]
  cases found : entryOf entries key with
  | none => rfl
  | some entry =>
      have notRaised : entry.key ∉ keys := by
        rw [entryOf_key found]
        exact absent
      simp [notRaised]

theorem levelOf_setLevels_raised {entries : List Entry} {keys : List Nat} {key : Nat} (level : Nat)
    (known : ∃ entry ∈ entries, entry.key = key) (raised : key ∈ keys) :
    levelOf (setLevels keys level entries) key = level := by
  obtain ⟨entry, inEntries, rfl⟩ := known
  rw [levelOf, entryOf_setLevels]
  cases found : entryOf entries entry.key with
  | none => exact absurd (decide_eq_true rfl) (List.find?_eq_none.mp found entry inEntries)
  | some other =>
      have same := entryOf_key found
      simp [same, raised]

end Lookups

section Scan

variable {marked marked' : Nat → Bool} {level level' : Nat → Nat} {height : Nat}

theorem Index.dropMarked_sublist (marked : Nat → Bool) (skipping : Bool) (row : List Nat) :
    (dropMarked marked skipping row).Sublist row := by
  induction row generalizing skipping with
  | nil => exact List.Sublist.refl _
  | cons index rest ih =>
      cases rest with
      | nil =>
          rw [dropMarked]
          split
          · exact List.nil_sublist _
          · exact List.Sublist.refl _
      | cons inext rest =>
          rw [dropMarked]
          split
          · exact (ih true).cons index
          · exact (ih false).cons_cons index

theorem dropMarked_skipping (row : List Nat) : dropMarked marked true row =
    match row.dropWhile marked with
    | [] => []
    | index :: rest => index :: dropMarked marked false rest := by
  induction row with
  | nil => rfl
  | cons index rest ih =>
      cases rest with
      | nil => cases isMarked : marked index <;> simp [dropMarked, isMarked]
      | cons inext rest =>
          rw [dropMarked]
          cases isMarked : marked index with
          | true =>
              rw [if_pos rfl, ih, List.dropWhile_cons_of_pos isMarked]
          | false =>
              rw [if_neg Bool.false_ne_true, List.dropWhile_cons_of_neg (by simp [isMarked])]

theorem dropMarked_front {row : List Nat} (two : 2 ≤ row.length) : dropMarked marked false row =
    match row.dropWhile marked with
    | [] => []
    | index :: rest => index :: dropMarked marked false rest := by
  rw [← dropMarked_skipping]
  match row, two with
  | index :: inext :: rest, _ => rw [dropMarked, dropMarked]

theorem raisedI_front (prev : Nat) (row : List Nat) :
    raisedI level marked height prev row =
      raisedI level marked height prev (row.dropWhile marked) := by
  induction row with
  | nil => rfl
  | cons index rest ih =>
      cases isMarked : marked index with
      | false => rw [List.dropWhile_cons_of_neg (by simp [isMarked])]
      | true =>
          rw [List.dropWhile_cons_of_pos isMarked, ← ih]
          cases rest with
          | nil => rfl
          | cons inext rest => rw [raisedI, if_pos isMarked]

theorem dropMarked_congr {row : List Nat} (same : ∀ key ∈ row, marked' key = marked key)
    (skipping : Bool) : dropMarked marked' skipping row = dropMarked marked skipping row := by
  induction row generalizing skipping with
  | nil => rfl
  | cons index rest ih =>
      have onward := ih fun key member => same key (List.mem_cons_of_mem _ member)
      cases rest with
      | nil => rw [dropMarked, dropMarked, same index List.mem_cons_self]
      | cons inext rest =>
          rw [dropMarked, dropMarked, same index List.mem_cons_self, onward, onward]

theorem raisedI_congr {row : List Nat} (sameMarked : ∀ key ∈ row, marked' key = marked key)
    (sameLevel : ∀ key ∈ row, level' key = level key) (prev : Nat) :
    raisedI level' marked' height prev row = raisedI level marked height prev row := by
  induction row generalizing prev with
  | nil => rfl
  | cons index rest ih =>
      have onward := ih (fun key member => sameMarked key (List.mem_cons_of_mem _ member))
        fun key member => sameLevel key (List.mem_cons_of_mem _ member)
      cases rest with
      | nil => rfl
      | cons inext rest =>
          rw [raisedI, raisedI, sameMarked index List.mem_cons_self,
            sameLevel index List.mem_cons_self, sameLevel inext (by simp), onward, onward, onward]

end Scan

namespace Index

def setRow (index : Index) (i : Nat) (row : List Nat) (gone : Nat) : Index :=
  { index with rows := index.rows.set i row, unlinks := index.unlinks + gone }

theorem setRow_setRow (index : Index) (i : Nat) (row row' : List Nat) (gone gone' : Nat) :
    (index.setRow i row gone).setRow i row' gone' = index.setRow i row' (gone + gone') := by
  simp [setRow, Nat.add_assoc]

theorem setRow_same {index : Index} {i : Nat} {row : List Nat}
    (located : index.rows[i]? = some row) : index.setRow i row 0 = index := by
  obtain ⟨bound, value⟩ := List.getElem?_eq_some_iff.mp located
  rw [setRow, ← value, List.set_getElem_self bound, Nat.add_zero]

theorem raise_setRow (index : Index) (i : Nat) (keys row : List Nat) (gone : Nat) :
    (index.raise (i + 1) keys).setRow i row gone = (index.setRow i row gone).raise (i + 1) keys := by
  have rows : (index.rows.modify (i + 1) fun row => insertKeys row keys).set i row =
      (index.rows.set i row).modify (i + 1) fun row => insertKeys row keys := by
    apply List.ext_getElem?
    intro j
    rw [List.getElem?_set, List.getElem?_modify, List.getElem?_modify, List.getElem?_set,
      List.length_modify]
    by_cases here : i = j
    · subst here
      simp
    · simp [here]
  rw [setRow, raise, setRow, raise, rows]

end Index

namespace Repr

variable {e : Enclave} {l : Layout} {platform : Platform} {i : Nat} {row : List (Nat × Nat)}

theorem entryOf_abs (repr : Repr e l) {p : Nat × Entry} (member : p ∈ l.mnodes)
    (positive : 1 ≤ p.2.key) : entryOf (abs e l).entries p.2.key = some p.2 := by
  obtain ⟨node, rest, split⟩ := repr.intermed.first
  have sorted := repr.intermed.sorted
  rw [split, List.pairwise_cons] at sorted
  rw [split] at member
  have inRest : p ∈ rest := by
    rcases List.mem_cons.mp member with rfl | inRest
    · exact absurd positive (Nat.not_succ_le_zero 0)
    · exact inRest
  have ordered : (rest.map Prod.snd).Pairwise fun x y => x.key < y.key :=
    List.pairwise_map.mpr sorted.2
  rw [abs, split]
  exact entryOf_mem ordered (List.mem_map_of_mem inRest)

theorem levelOver_cell (repr : Repr e l) (located : l.rows[i]? = some row) {p : Nat × Nat}
    (inRow : p ∈ row) {m : Nat × Entry} (member : m ∈ l.mnodes) (sameKey : m.2.key = p.2) :
    e.levelOver p.1 = some m.2.level := by
  obtain ⟨inode, entry, next, found, _, inList, key, _, stored⟩ := repr.cell located inRow
  have equal := repr.intermed.eq_of_key inList member (key.trans sameKey.symm)
  rw [Enclave.levelOver, found]
  simp only [Option.bind_eq_bind, Option.bind_some, stored, Entry.at]
  exact congrArg (fun m : Nat × Entry => some m.2.level) equal

theorem set_same {α : Type} {rows : List α} {row : α} {i : Nat} (located : rows[i]? = some row) :
    rows.set i row = rows := by
  obtain ⟨bound, value⟩ := List.getElem?_eq_some_iff.mp located
  rw [← value, List.set_getElem_self bound]

theorem abs_row (located : l.rows[i]? = some row) :
    (abs e l).rows[i]? = some (row.tail.map Prod.snd) := by
  rw [abs, List.getElem?_map, located]
  rfl

theorem positive_behind (repr : Repr e l) (located : l.rows[i]? = some row)
    {first last : List (Nat × Nat)} {p q : Nat × Nat} (split : row = first ++ p :: q :: last) :
    1 ≤ q.2 := by
  have sorted := repr.grid.sorted row (List.mem_of_getElem? located)
  rw [split, List.pairwise_append, List.pairwise_cons] at sorted
  have smaller := sorted.2.1.1 q List.mem_cons_self
  omega

theorem unlink_returns (repr : Repr e l) (located : l.rows[i]? = some row)
    {first last : List (Nat × Nat)} {p q : Nat × Nat} (split : row = first ++ p :: q :: last) :
    ∃ e', (e.record (.unlink q.1)).setRight p.1 (firstOf last) = some e' ∧ e'.nodes = e.nodes ∧
      Repr e' { l with rows := l.rows.set i (first ++ p :: last) } ∧
      Keeps l.good l.mnodes e l e' { l with rows := l.rows.set i (first ++ p :: last) } ∧
      abs e' { l with rows := l.rows.set i (first ++ p :: last) } =
        (abs e l).setRow i ((first ++ p :: last).tail.map Prod.snd) 1 := by
  obtain ⟨inode, found, _, _⟩ := repr.grid.at_split located split
  refine ⟨(e.record (.unlink q.1)).setInode p.1 { inode with right := firstOf last }, ?_, rfl,
    ⟨?_, repr.grid.unlink located split found, repr.liveMnodes, repr.liveInodes, ?_, repr.strays⟩,
    ⟨rfl, fun _ isGood => ⟨isGood, rfl⟩, ?_, fun p member => ⟨p.2, member, rfl, rfl⟩⟩, ?_⟩
  · rw [Enclave.setRight, Enclave.inode]
    exact congrArg (Option.bind · _) found
  · have sameLength : (l.rows.set i (first ++ p :: last)).length = l.rows.length := List.length_set
    have intermed := repr.intermed
    rw [← sameLength] at intermed
    exact intermed
  · intro q member
    refine (Store.get_set_other _ ?_).trans (repr.noInode q member)
    rintro same
    have inRow : p ∈ row := by simp [split]
    exact repr.apart q member (same ▸ (repr.grid.cells i row p located inRow).1)
  · intro address other _ stored
    by_cases same : p.1 = address
    · subst same
      obtain rfl : inode = other := Option.some.inj (found.symm.trans stored)
      exact ⟨_, Store.get_set_same _ _ _, rfl⟩
    · exact ⟨other, (Store.get_set_other _ same).trans stored, rfl⟩
  · simp only [abs, Index.setRow, List.map_set]
    congr 1
    exact List.countP_cons_of_pos rfl

theorem marked_cell (repr : Repr e l) (located : l.rows[i]? = some row) {p : Nat × Nat}
    (inRow : p ∈ row) (positive : 1 ≤ p.2) : ∃ inode mnode, e.inode p.1 = some inode ∧
      e.mnode inode.intermed = some mnode ∧ mnode.marked = markedOf (abs e l).entries p.2 := by
  obtain ⟨inode, entry, next, found, _, inList, key, _, stored⟩ := repr.cell located inRow
  refine ⟨inode, _, found, stored, ?_⟩
  have lookup := repr.entryOf_abs inList (by rw [key]; exact positive)
  rw [key] at lookup
  rw [markedOf, lookup]
  rfl

theorem skipMarked_returns (rest : List (Nat × Nat)) :
    ∀ fuel e l row first p q, Repr e l → l.rows[i]? = some row → row = first ++ p :: q :: rest →
      rest.length < fuel →
      ∃ e' kept index, Enclave.skipMarked p.1 fuel e q.1 (firstOf rest) =
          some (e', index, firstOf kept.tail) ∧
        e'.nodes = e.nodes ∧ (∀ k ∈ kept.head?, index = k.1) ∧ kept.length ≤ rest.length + 1 ∧
        kept.map Prod.snd =
          ((q :: rest).map Prod.snd).dropWhile (markedOf (abs e l).entries) ∧
        Repr e' { l with rows := l.rows.set i (first ++ p :: kept) } ∧
        Keeps l.good l.mnodes e l e' { l with rows := l.rows.set i (first ++ p :: kept) } ∧
        abs e' { l with rows := l.rows.set i (first ++ p :: kept) } =
          (abs e l).setRow i ((first ++ p :: kept).tail.map Prod.snd)
            (rest.length + 1 - kept.length) := by
  induction rest with
  | nil =>
      intro fuel e l row first p q repr located split bound
      obtain ⟨fuel, rfl⟩ := Nat.exists_eq_succ_of_ne_zero (Nat.ne_of_gt bound)
      have inRow : q ∈ row := by simp [split]
      have positive := repr.positive_behind located split
      obtain ⟨inode, mnode, found, stored, marked⟩ := repr.marked_cell located inRow positive
      rw [Enclave.skipMarked]
      simp only [found, stored, Option.bind_eq_bind, Option.bind_some, marked]
      cases isMarked : markedOf (abs e l).entries q.2 with
      | true =>
          obtain ⟨e', unlinked, nodes, repr', keeps, absEq⟩ := repr.unlink_returns located split
          have done : (e.record (.unlink q.1)).setRight p.1 0 = some e' := unlinked
          refine ⟨e', [], q.1, ?_, nodes, by simp, by simp, by simp [isMarked], repr', keeps,
            absEq⟩
          simp [done]
      | false =>
          refine ⟨e, [q], q.1, by simp, rfl, by simp, by simp, by simp [isMarked], ?_, ?_, ?_⟩
          · rw [← split, set_same located]
            exact repr
          · rw [← split, set_same located]
            exact .refl e l
          · rw [← split, set_same located]
            exact (Index.setRow_same (Repr.abs_row located)).symm
  | cons r rest ih =>
      intro fuel e l row first p q repr located split bound
      obtain ⟨fuel, rfl⟩ := Nat.exists_eq_succ_of_ne_zero (Nat.ne_of_gt (Nat.zero_lt_of_lt bound))
      have fewer : rest.length < fuel := by simpa using bound
      have inRow : q ∈ row := by simp [split]
      have positive := repr.positive_behind located split
      have nonzero : r.1 ≠ 0 := repr.grid.nonzero located (by simp [split])
      obtain ⟨inode, mnode, found, stored, marked⟩ := repr.marked_cell located inRow positive
      rw [Enclave.skipMarked]
      simp only [found, stored, Option.bind_eq_bind, Option.bind_some, marked, firstOf_cons]
      cases isMarked : markedOf (abs e l).entries q.2 with
      | true =>
          obtain ⟨middle, unlinked, nodes, repr', keeps, absEq⟩ := repr.unlink_returns located split
          have bottom := (List.getElem?_eq_some_iff.mp located).1
          have located' : (l.rows.set i (first ++ p :: r :: rest))[i]? =
              some (first ++ p :: r :: rest) := by
            rw [List.getElem?_set, if_pos rfl, if_pos bottom]
          obtain ⟨next, nextFound, _, nextRight⟩ := repr'.grid.at_split located'
            (show first ++ p :: r :: rest = (first ++ [p]) ++ r :: rest by simp)
          have nextStored : middle.inode r.1 = some next := nextFound
          obtain ⟨e', kept, index, loop, nodes', isIndex, size, keys, final, keeps', absFinal⟩ :=
            ih fuel middle _ _ first p r repr' located' rfl fewer
          have done : (e.record (.unlink q.1)).setRight p.1 r.1 = some middle := unlinked
          have kept' := keeps.onward keeps'
          rw [List.set_set] at final absFinal kept'
          refine ⟨e', kept, index, ?_, nodes'.trans nodes, isIndex, Nat.le_succ_of_le size, ?_, final,
            kept', ?_⟩
          · simp [done, nonzero, nextStored, nextRight, loop]
          · rw [List.map_cons, List.dropWhile_cons_of_pos isMarked, keys, absEq]
            rfl
          · rw [absFinal, absEq, Index.setRow_setRow, List.length_cons]
            congr 1
            omega
      | false =>
          refine ⟨e, q :: r :: rest, q.1, by simp, rfl, by simp, by simp, by simp [isMarked], ?_, ?_,
            ?_⟩
          · rw [← split, set_same located]
            exact repr
          · rw [← split, set_same located]
            exact .refl e l
          · rw [← split, set_same located]
            simpa using (Index.setRow_same (Repr.abs_row located)).symm

theorem levelOver_abs (repr : Repr e l) (located : l.rows[i]? = some row) {p : Nat × Nat}
    (inRow : p ∈ row) (positive : 1 ≤ p.2) :
    e.levelOver p.1 = some (levelOf (abs e l).entries p.2) := by
  obtain ⟨inode, entry, _, _, _, inList, key, _⟩ := repr.cell located inRow
  have lookup := repr.entryOf_abs inList (by rw [key]; exact positive)
  rw [key] at lookup
  rw [repr.levelOver_cell located inRow inList key, levelOf, lookup]
  rfl

theorem tail_split (first rest : List (Nat × Nat)) (p : Nat × Nat) :
    (first ++ p :: rest).tail.map Prod.snd =
      (first ++ [p]).tail.map Prod.snd ++ rest.map Prod.snd := by
  cases first <;> simp

theorem raiseOne (honest : platform.Honest) (repr : Repr e l) {low high : List (Nat × Nat)}
    {first rest second last : List (Nat × Nat)} {p k c : Nat × Nat}
    (located : l.rows[i]? = some low) (lowSplit : low = first ++ p :: k :: rest)
    (locatedHigh : l.rows[i + 1]? = some high) (highSplit : high = second ++ c :: last)
    (order : c.2 ≤ p.2) (isLow : levelOf (abs e l).entries k.2 ≤ i + 1) :
    ∃ inode mnode above fresh e' l' before q after, e.inode k.1 = some inode ∧
      e.mnode inode.intermed = some mnode ∧
      e.seekAbove c.1 mnode.key (e.inodes.length + 1) c.1 c.1 = some (above, q.1) ∧
      e.raiseAt platform q.1 k.1 inode.intermed (i + 1 + 1) = some (fresh, e') ∧
      LevelsOnly e.nodes e'.nodes ∧ Repr e' l' ∧ abs e' l' = (abs e l).raise (i + 1) [k.2] ∧
      l'.rows[i]? = some low ∧
      l'.rows[i + 1]? = some ((before ++ [q]) ++ (fresh, k.2) :: after) ∧
      l'.heads = l.heads ∧ Keeps l.good l.mnodes e l e' l' ∧ e'.levelOver k.1 = some (i + 1 + 1) := by
  have inLow : k ∈ low := by simp [lowSplit]
  have positive := repr.positive_behind located lowSplit
  have smaller : c.2 < k.2 := by
    have sorted := repr.grid.sorted low (List.mem_of_getElem? located)
    rw [lowSplit, List.pairwise_append, List.pairwise_cons] at sorted
    have ahead := sorted.2.1.1 k List.mem_cons_self
    omega
  obtain ⟨inode, entry, next, found, _, inList, key, _, stored⟩ := repr.cell located inLow
  obtain ⟨before, after, split⟩ := List.append_of_mem inList
  have entryLow : entry.level ≤ i + 1 := by
    have lookup := repr.entryOf_abs inList (by rw [key]; exact positive)
    rw [key] at lookup
    rw [levelOf, lookup] at isLow
    exact isLow
  obtain ⟨front, q, back, highSplit', qSmaller, notSmaller, sought⟩ :=
    repr.seekAbove_returns locatedHigh highSplit smaller
  rw [← key] at qSmaller notSmaller
  obtain ⟨fresh, e', linked, levels, repr', keeps, absEq⟩ := repr.raiseAt_returns honest split
    (by rw [key]; exact positive) entryLow locatedHigh highSplit' qSmaller notSmaller
    (.inr ⟨i, low, k, rfl, located, inLow, key.symm, rfl⟩)
  have bottom := (List.getElem?_eq_some_iff.mp locatedHigh).1
  have located' : (l.link (i + 1) fresh
      (before ++ (inode.intermed, { entry with level := i + 1 + 1 }) :: after)
      (front ++ q :: (fresh, entry.key) :: back)).rows[i]? = some low := by
    rw [Layout.link, List.getElem?_set_ne (Nat.succ_ne_self i)]
    exact located
  refine ⟨inode, _, firstOf back, fresh, e', _, front, q, back, found, stored, ?_, linked, levels,
    repr', ?_, located', ?_, heads_link locatedHigh highSplit', keeps, ?_⟩
  · simpa [Entry.at, key] using sought
  · rw [absEq, key]
  · rw [Layout.link, List.getElem?_set, if_pos rfl, if_pos bottom, key]
    simp
  · exact repr'.levelOver_cell located' inLow
      (show (inode.intermed, { entry with level := i + 1 + 1 }) ∈ _ by simp [Layout.link]) key

/-- The outer loop of `bg_raise_ilevel`, with what remains of the row behind `p` to do. -/
theorem raiseIlevelLoop_refines (honest : platform.Honest) (fuel : Nat) :
    ∀ e l low high first p todo second c last prev raised, Repr e l → l.rows[i]? = some low →
      low = first ++ p :: todo → l.rows[i + 1]? = some high → high = second ++ c :: last →
      c.2 ≤ p.2 → e.levelOver p.1 = some prev → todo.length < fuel →
      ∃ e' l', e.raiseIlevelLoop platform (i + 1) fuel p.1 c.1 c.1 c.1 (firstOf todo) raised =
          some (raised || !(raisedI (levelOf (abs e l).entries) (markedOf (abs e l).entries) (i + 1)
            prev (todo.map Prod.snd)).isEmpty, e') ∧
        LevelsOnly e.nodes e'.nodes ∧ Repr e' l' ∧ l'.heads = l.heads ∧
        Keeps l.good l.mnodes e l e' l' ∧
        abs e' l' = ((abs e l).setRow i ((first ++ [p]).tail.map Prod.snd ++
            dropMarked (markedOf (abs e l).entries) false (todo.map Prod.snd))
            (todo.length -
              (dropMarked (markedOf (abs e l).entries) false (todo.map Prod.snd)).length)).raise
          (i + 1) (raisedI (levelOf (abs e l).entries) (markedOf (abs e l).entries) (i + 1) prev
            (todo.map Prod.snd)) := by
  induction fuel with
  | zero =>
      intro e l low high first p todo second c last prev raised _ _ _ _ _ _ _ bound
      exact absurd bound (Nat.not_lt_zero _)
  | succ fuel ih =>
      intro e l low high first p todo second c last prev raised repr located lowSplit locatedHigh
        highSplit order prevLevel bound
      have unchanged : ∀ ks : List Nat, ks = todo.map Prod.snd →
          abs e l = ((abs e l).setRow i ((first ++ [p]).tail.map Prod.snd ++ ks)
            (todo.length - ks.length)).raise (i + 1) [] := by
        intro ks same
        rw [Index.raise_nil, same, List.length_map, Nat.sub_self, ← tail_split, ← lowSplit]
        exact (Index.setRow_same (Repr.abs_row located)).symm
      match todo, bound with
      | [], _ =>
          refine ⟨e, l, ?_, LevelsOnly.refl _, repr, rfl, .refl e l, unchanged [] rfl⟩
          rw [firstOf_nil, Enclave.raiseIlevelLoop, if_pos rfl]
          simp [raisedI]
      | [q], _ =>
          have nonzero : q.1 ≠ 0 := repr.grid.nonzero located (by simp [lowSplit])
          obtain ⟨inode, found, _, right⟩ := repr.grid.at_split located
            (show low = (first ++ [p]) ++ q :: [] by simp [lowSplit])
          have stored : e.inode q.1 = some inode := found
          refine ⟨e, l, ?_, LevelsOnly.refl _, repr, rfl, .refl e l, unchanged [q.2] rfl⟩
          rw [firstOf_cons, Enclave.raiseIlevelLoop, if_neg nonzero]
          simp [stored, right, raisedI]
      | q :: r :: rest, bound =>
          have nonzero : q.1 ≠ 0 := repr.grid.nonzero located (by simp [lowSplit])
          have nextNonzero : r.1 ≠ 0 := repr.grid.nonzero located (by simp [lowSplit])
          obtain ⟨inode, found, _, right⟩ := repr.grid.at_split located
            (show low = (first ++ [p]) ++ q :: r :: rest by simp [lowSplit])
          have stored : e.inode q.1 = some inode := found
          have rowSize := repr.grid.row_length_le located
          rw [lowSplit, List.length_append, List.length_cons, List.length_cons] at rowSize
          obtain ⟨e₁, kept, index, skipped, nodes₁, isIndex, size, keys, repr₁, keeps₁, abs₁⟩ :=
            skipMarked_returns (r :: rest) (e.inodes.length + 1) e l low first p q repr located lowSplit
              (by omega)
          have within := (List.getElem?_eq_some_iff.mp located).1
          have located₁ : (l.rows.set i (first ++ p :: kept))[i]? = some (first ++ p :: kept) := by
            rw [List.getElem?_set, if_pos rfl, if_pos within]
          have locatedHigh₁ : (l.rows.set i (first ++ p :: kept))[i + 1]? = some high := by
            rw [List.getElem?_set_ne (Nat.succ_ne_self i).symm]
            exact locatedHigh
          have heads₁ : (l.rows.set i (first ++ p :: kept)).map firstOf = l.rows.map firstOf :=
            heads_set located (by rw [lowSplit]; exact firstOf_append_cons)
          have entries₁ : (abs e₁ { l with rows := l.rows.set i (first ++ p :: kept) }).entries =
              (abs e l).entries := rfl
          rw [firstOf_cons] at skipped
          rw [firstOf_cons, Enclave.raiseIlevelLoop, if_neg nonzero]
          simp only [stored, right, firstOf_cons, if_neg nextNonzero, skipped, Option.bind_eq_bind,
            Option.bind_some]
          rw [raisedI_front, dropMarked_front (by simp), ← keys]
          match kept, size, isIndex, keys, repr₁, keeps₁, abs₁, located₁, locatedHigh₁, heads₁ with
          | [], _, _, _, repr₁, keeps₁, abs₁, _, _, heads₁ =>
              refine ⟨e₁, _, ?_, nodes₁ ▸ LevelsOnly.refl _, repr₁, heads₁, keeps₁, ?_⟩
              · simp [raisedI]
              · rw [abs₁, tail_split]
                simp [raisedI, Index.raise_nil]
          | [k], _, _, _, repr₁, keeps₁, abs₁, _, _, heads₁ =>
              refine ⟨e₁, _, ?_, nodes₁ ▸ LevelsOnly.refl _, repr₁, heads₁, keeps₁, ?_⟩
              · simp [raisedI]
              · rw [abs₁, tail_split]
                simp [raisedI, dropMarked, Index.raise_nil]
          | k :: k' :: ks, size, isIndex, keys, repr₁, keeps₁, abs₁, located₁, locatedHigh₁, heads₁ =>
              have pInRow : p ∈ first ++ p :: k :: k' :: ks := by simp
              have inextNonzero : k'.1 ≠ 0 := repr₁.grid.nonzero located₁ (by simp)
              have prevLevel₁ : e₁.levelOver p.1 = some prev := by
                obtain ⟨_, entry, _, _, _, inList, key, _⟩ :=
                  repr.cell located (by simp [lowSplit] : p ∈ low)
                rw [repr.levelOver_cell located (by simp [lowSplit] : p ∈ low) inList key] at prevLevel
                rw [repr₁.levelOver_cell located₁ pInRow inList key]
                exact prevLevel
              have kLevel := repr₁.levelOver_abs located₁ (by simp : k ∈ _)
                (repr₁.positive_behind located₁ rfl)
              have nextLevel := repr₁.levelOver_abs located₁ (by simp : k' ∈ _)
                (repr₁.positive_behind located₁ (show _ = (first ++ [p]) ++ k :: k' :: ks by simp))
              have notMarked : markedOf (abs e l).entries k.2 = false := by
                have front := List.head?_dropWhile_not (markedOf (abs e l).entries)
                  ((q :: r :: rest).map Prod.snd)
                rw [← keys] at front
                simpa using front
              obtain rfl : index = k.1 := isIndex k rfl
              have smallerSize : (k' :: ks).length < fuel := by
                simp only [List.length_cons] at size bound ⊢
                omega
              rw [entries₁] at kLevel nextLevel
              simp only [List.tail_cons, firstOf_cons, if_neg inextNonzero, prevLevel₁, kLevel,
                nextLevel, Option.bind_some, List.map_cons, raisedI, notMarked, Bool.false_eq_true,
                if_false]
              have sorted := repr₁.grid.sorted _ (List.mem_of_getElem? located₁)
              rw [List.pairwise_append, List.pairwise_cons, List.pairwise_cons] at sorted
              have pBelow : p.2 < k.2 := sorted.2.1.1 k List.mem_cons_self
              have above : ∀ key ∈ (k' :: ks).map Prod.snd, key ∉ [k.2] := by
                intro key member
                obtain ⟨s, inside, rfl⟩ := List.mem_map.mp member
                have greater := sorted.2.1.2.1 s inside
                simp
                omega
              have prefixEq : ((first ++ [p]) ++ [k]).tail.map Prod.snd =
                  (first ++ [p]).tail.map Prod.snd ++ [k.2] := by
                cases first <;> simp
              have gone : ∀ ds : List Nat, ds.length ≤ ((k' :: ks).map Prod.snd).length →
                  (r :: rest).length + 1 - (k :: k' :: ks).length + ((k' :: ks).length - ds.length) =
                    (q :: r :: rest).length - (k.2 :: ds).length := by
                intro ds fits
                simp only [List.length_cons, List.length_map] at fits size ⊢
                omega
              have fits := gone _ (Index.dropMarked_sublist (markedOf (abs e l).entries) false _).length_le
              by_cases low : prev ≤ i + 1 ∧ levelOf (abs e l).entries k.2 ≤ i + 1 ∧
                  levelOf (abs e l).entries k'.2 ≤ i + 1
              · rw [if_pos low, if_pos low]
                obtain ⟨inode₁, mnode₁, seen, fresh, e₂, l₂, before, a, after, found₁, stored₁, sought,
                  linked, levels₂, repr₂, abs₂, located₂, locatedHigh₂, heads₂, keeps₂, kLevel₂⟩ :=
                  repr₁.raiseOne honest located₁ rfl locatedHigh₁ highSplit order low.2.1
                obtain ⟨e', l', loop, levels', final, heads', keeps', absFinal⟩ :=
                  ih e₂ l₂ _ _ (first ++ [p]) k (k' :: ks) (before ++ [a]) (fresh, k.2) after
                    (i + 1 + 1) true repr₂ located₂ (by simp) locatedHigh₂ rfl (Nat.le_refl _) kLevel₂
                    smallerSize
                have sameMarks : ∀ key, markedOf (abs e₂ l₂).entries key =
                    markedOf (abs e l).entries key := by
                  intro key
                  rw [abs₂]
                  exact markedOf_setLevels _ _ _ key
                have sameLevels : ∀ key ∈ (k' :: ks).map Prod.snd,
                    levelOf (abs e₂ l₂).entries key = levelOf (abs e l).entries key := by
                  intro key member
                  rw [abs₂]
                  exact levelOf_setLevels_other _ _ (above key member)
                rw [raisedI_congr (fun key _ => sameMarks key) sameLevels] at loop absFinal
                rw [dropMarked_congr (fun key _ => sameMarks key), abs₂, abs₁, Index.raise_setRow,
                  Index.setRow_setRow, Index.raise_raise, prefixEq] at absFinal
                refine ⟨e', l', ?_, ?_, final, heads'.trans (heads₂.trans heads₁),
                  (keeps₁.onward keeps₂).onward keeps', ?_⟩
                · simp only [found₁, stored₁, sought, linked, Option.bind_some]
                  rw [firstOf_cons] at loop
                  rw [loop]
                  simp
                · exact (nodes₁ ▸ levels₂ : LevelsOnly e.nodes e₂.nodes).trans levels'
                · rw [absFinal]
                  simp only [List.append_assoc, List.singleton_append, List.map_cons] at fits ⊢
                  rw [← fits]
              · rw [if_neg low, if_neg low]
                obtain ⟨e', l', loop, levels', final, heads', keeps', absFinal⟩ :=
                  ih e₁ _ _ high (first ++ [p]) k (k' :: ks) second c last _ raised repr₁ located₁
                    (by simp) locatedHigh₁ highSplit (by omega) kLevel smallerSize
                rw [abs₁, Index.setRow_setRow, prefixEq] at absFinal
                refine ⟨e', l', loop, nodes₁ ▸ levels', final, heads'.trans heads₁, keeps₁.onward keeps',
                  ?_⟩
                rw [absFinal]
                simp only [List.append_assoc, List.singleton_append, List.map_cons] at fits ⊢
                rw [← fits]
                rfl

end Repr

end Hosk
