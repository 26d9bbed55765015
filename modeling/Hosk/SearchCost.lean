import Hosk.IndexSearch

/-! The reads of a search of `sl_traverse_index` counted, with nothing of the helper between them. -/

namespace Hosk

namespace Enclave

def readFor (e : Enclave) (key : Nat) : Nat → SearchPc → Option SearchPc
  | 0, pc => some pc
  | count + 1, pc => (e.searchRead key pc).bind (e.readFor key count)

variable {e : Enclave} {key : Nat}

theorem readFor_add (first later : Nat) : ∀ pc, e.readFor key (first + later) pc =
    (e.readFor key first pc).bind (e.readFor key later) := by
  induction first with
  | zero => exact fun pc => by rw [Nat.zero_add]; rfl
  | succ first ih =>
      intro pc
      rw [Nat.succ_add, readFor, readFor, Option.bind_assoc]
      exact congrArg _ (funext ih)

theorem readFor_returned (node count : Nat) :
    e.readFor key count (.returned node) = some (.returned node) := by
  induction count with
  | zero => rfl
  | succ count ih => exact ih

theorem readFor_one {pc pc' : SearchPc} (read : e.searchRead key pc = some pc') :
    e.readFor key 1 pc = some pc' := by
  rw [readFor, read]
  rfl

def Reaches (e : Enclave) (key bound : Nat) (pc pc' : SearchPc) : Prop :=
  ∃ count, count ≤ bound ∧ e.readFor key count pc = some pc'

variable {first later bound : Nat} {pc pc' pc'' : SearchPc}

theorem Reaches.exactly (read : e.readFor key bound pc = some pc') : e.Reaches key bound pc pc' :=
  ⟨bound, Nat.le_refl bound, read⟩

theorem Reaches.read (read : e.searchRead key pc = some pc') : e.Reaches key 1 pc pc' :=
  Reaches.exactly (readFor_one read)

theorem Reaches.trans (one : e.Reaches key first pc pc') (other : e.Reaches key later pc' pc'') :
    e.Reaches key (first + later) pc pc'' := by
  obtain ⟨count, few, read⟩ := one
  obtain ⟨count', few', read'⟩ := other
  refine ⟨count + count', Nat.add_le_add few few', ?_⟩
  rw [readFor_add, read]
  exact read'

theorem Reaches.mono (reaches : e.Reaches key first pc pc') (more : first ≤ later) :
    e.Reaches key later pc pc' := by
  obtain ⟨count, few, read⟩ := reaches
  exact ⟨count, Nat.le_trans few more, read⟩

theorem lt_of_returned {count node : Nat} (under : e.readFor key first pc = some pc')
    (notYet : ∀ node, pc' ≠ .returned node)
    (returned : e.readFor key count pc = some (.returned node)) : first < count := by
  by_contra less
  have split : first = count + (first - count) := by omega
  rw [split, readFor_add, returned, Option.bind_some, readFor_returned] at under
  exact notYet node (Option.some.inj under).symm

theorem ReadsTo.counted {last : SearchPc} (reads : e.ReadsTo key pc last) :
    ∃ count, e.readFor key count pc = some last := by
  induction reads using Relation.ReflTransGen.head_induction_on with
  | refl => exact ⟨0, rfl⟩
  | head read _ ih =>
      obtain ⟨count, later⟩ := ih
      refine ⟨count + 1, ?_⟩
      rw [readFor, read]
      exact later

theorem returned_unique {count count' node node' : Nat}
    (one : e.readFor key count pc = some (.returned node))
    (other : e.readFor key count' pc = some (.returned node')) : node = node' := by
  have more : e.readFor key (count + count') pc = _ := readFor_add count count' pc
  rw [Nat.add_comm, readFor_add, one, other, Option.bind_some, Option.bind_some, readFor_returned,
    readFor_returned] at more
  exact (SearchPc.returned.inj (Option.some.inj more)).symm

/-- A search from the sentinel makes this many reads, and its result is the data node. -/
def ReturnsAfter (e : Enclave) (key count node : Nat) : Prop :=
  e.readFor key count (.right e.sentinel) = some (.returned node) ∧
    ∀ fewer < count, e.readFor key fewer (.right e.sentinel) ≠ some (.returned node)

theorem Reaches.returnsAfter {node : Nat}
    (reaches : e.Reaches key bound (.right e.sentinel) (.returned node)) :
    ∃ count, count ≤ bound ∧ e.ReturnsAfter key count node := by
  obtain ⟨count, few, returned⟩ := reaches
  have some : ∃ count, e.readFor key count (.right e.sentinel) = some (.returned node) :=
    ⟨count, returned⟩
  exact ⟨Nat.find some, (Nat.find_min' some returned).trans few, Nat.find_spec some,
    fun fewer less => Nat.find_min some less⟩

end Enclave

namespace Repr

open Enclave

variable {e : Enclave} {l : Layout} {key i : Nat}

section Row

variable {row : List (Nat × Nat)}

theorem reads_right (repr : Repr e l) (located : l.rows[i]? = some row) :
    ∀ (passed : List (Nat × Nat)) before p rest, row = before ++ p :: (passed ++ rest) →
    (∀ q ∈ passed, q.2 < key) → ∃ before' q, row = before' ++ q :: rest ∧
      (q = p ∨ q ∈ passed) ∧
      e.readFor key (3 * passed.length) (.right p.1) = some (.right q.1) := by
  intro passed
  induction passed with
  | nil => exact fun before p rest split _ => ⟨before, p, split, .inl rfl, rfl⟩
  | cons r passed ih =>
      intro before p rest split smaller
      have behind : row = (before ++ [p]) ++ r :: (passed ++ rest) := by
        rw [split]
        simp
      obtain ⟨before', q, split', among, reads⟩ := ih (before ++ [p]) r rest behind
        fun q member => smaller q (List.mem_cons_of_mem _ member)
      refine ⟨before', q, split', .inr ?_, ?_⟩
      · rcases among with rfl | inPassed
        · exact List.mem_cons_self
        · exact List.mem_cons_of_mem _ inPassed
      · obtain ⟨inode, found, _, right⟩ := repr.grid.at_split located split
        obtain ⟨next, nextFound, nextKey, _⟩ := repr.grid.at_split located behind
        have nonzero := repr.grid.nonzero located (by simp [split] : r ∈ row)
        have less := smaller r List.mem_cons_self
        have isInode : e.inode p.1 = some inode := found
        have isNext : e.inode r.1 = some next := nextFound
        rw [List.cons_append, firstOf_cons] at right
        rw [List.length_cons, Nat.mul_succ, Nat.add_comm, readFor_add]
        have three : e.readFor key 3 (.right p.1) = some (.right r.1) := by
          simp [readFor, searchRead, isInode, isNext, right, nonzero, nextKey, Nat.lt_asymm less,
            Nat.ne_of_lt less]
        rw [three]
        exact reads

theorem reads_past (repr : Repr e l) (located : l.rows[i]? = some row) {before rest : List (Nat × Nat)}
    {p : Nat × Nat} (split : row = before ++ p :: rest) (past : ∀ r ∈ rest, key < r.2) :
    e.Reaches key 2 (.right p.1) (.down p.1) := by
  obtain ⟨inode, found, _, right⟩ := repr.grid.at_split located split
  have isInode : e.inode p.1 = some inode := found
  cases rest with
  | nil =>
      rw [firstOf_nil] at right
      have read : e.searchRead key (.right p.1) = some (.down p.1) := by
        simp [searchRead, isInode, right]
      exact (Reaches.read read).mono (Nat.le_succ 1)
  | cons r rest =>
      have behind : row = (before ++ [p]) ++ r :: rest := by
        rw [split]
        simp
      obtain ⟨next, nextFound, nextKey, _⟩ := repr.grid.at_split located behind
      have isNext : e.inode r.1 = some next := nextFound
      have nonzero := repr.grid.nonzero located (by simp [split] : r ∈ row)
      have less := past r List.mem_cons_self
      rw [firstOf_cons] at right
      apply Reaches.exactly
      simp [readFor, searchRead, isInode, isNext, right, nonzero, nextKey, less]

theorem reads_found (repr : Repr e l) (located : l.rows[i]? = some row)
    {before rest : List (Nat × Nat)} {p r : Nat × Nat} (split : row = before ++ p :: r :: rest)
    (same : r.2 = key) : ∃ entry mnode, (mnode, entry) ∈ l.mnodes ∧ entry.key = p.2 ∧
      e.Reaches key 4 (.right p.1) (.next mnode) := by
  obtain ⟨inode, entry, _, found, _, member, sameKey, _⟩ :=
    repr.cell located (by simp [split] : p ∈ row)
  obtain ⟨inode', found', _, right⟩ := repr.grid.at_split located split
  obtain rfl : inode' = inode := Option.some.inj (found'.symm.trans found)
  have behind : row = (before ++ [p]) ++ r :: rest := by
    rw [split]
    simp
  obtain ⟨next, nextFound, nextKey, _⟩ := repr.grid.at_split located behind
  have isNext : e.inode r.1 = some next := nextFound
  have nonzero := repr.grid.nonzero located (by simp [split] : r ∈ row)
  rw [firstOf_cons] at right
  refine ⟨entry, inode'.intermed, member, sameKey, Reaches.exactly ?_⟩
  simp [readFor, searchRead, found, isNext, right, nonzero, nextKey, same]

theorem reads_ground (repr : Repr e l) (located : l.rows[0]? = some row) {p : Nat × Nat}
    (member : p ∈ row) : ∃ entry mnode, (mnode, entry) ∈ l.mnodes ∧ entry.key = p.2 ∧
      e.Reaches key 2 (.down p.1) (.next mnode) := by
  obtain ⟨inode, entry, _, found, _, inList, sameKey, _⟩ := repr.cell located member
  have bottom := repr.grid.ground row p located member
  rw [downAt_found (show Store.get e.inodes p.1 = some inode from found)] at bottom
  have isNull : inode.down = 0 := Option.some.inj bottom
  refine ⟨entry, inode.intermed, inList, sameKey, Reaches.exactly ?_⟩
  simp [readFor, searchRead, found, isNull]

theorem reads_down (repr : Repr e l) {low : List (Nat × Nat)} (lowLocated : l.rows[i]? = some low)
    (located : l.rows[i + 1]? = some row) {p q : Nat × Nat} (member : p ∈ row) (inLow : q ∈ low)
    (same : p.2 = q.2) : e.Reaches key 1 (.down p.1) (.right q.1) := by
  obtain ⟨inode, found, _⟩ := repr.grid.found located member
  have leads := repr.grid.towers i low row p q lowLocated located member inLow same
  rw [downAt_found found] at leads
  have isDown : inode.down = q.1 := Option.some.inj leads
  have nonzero := repr.grid.nonzero lowLocated inLow
  apply Reaches.read
  simp [searchRead, show e.inode p.1 = some inode from found, isDown, nonzero]

end Row

theorem reads_mnodes (repr : Repr e l) : ∀ (passed : List (Nat × Entry)) before p rest,
    l.mnodes = before ++ p :: (passed ++ rest) → (∀ q ∈ passed, q.2.key ≤ key) →
    ∃ before' q, l.mnodes = before' ++ q :: rest ∧
      e.readFor key (4 * passed.length) (.next p.1) = some (.next q.1) := by
  intro passed
  induction passed with
  | nil => exact fun before p rest split _ => ⟨before, p, split, rfl⟩
  | cons r passed ih =>
      intro before p rest split upTo
      have behind : l.mnodes = (before ++ [p]) ++ r :: (passed ++ rest) := by
        rw [split]
        simp
      obtain ⟨before', q, split', reads⟩ := ih (before ++ [p]) r rest behind
        fun q member => upTo q (List.mem_cons_of_mem _ member)
      refine ⟨before', q, split', ?_⟩
      have stored : e.mnode p.1 = some (p.2.at r.1) := repr.intermed.at_split split
      have nextStored : e.mnode r.1 = _ := repr.intermed.at_split behind
      have nonzero := repr.intermed.nonzero (by simp [split] : r ∈ l.mnodes)
      have notPast := upTo r List.mem_cons_self
      rw [List.length_cons, Nat.mul_succ, Nat.add_comm, readFor_add]
      have four : e.readFor key 4 (.next p.1) = some (.next r.1) := by
        simp [readFor, searchRead, stored, nextStored, Entry.at, nonzero, notPast]
      rw [four]
      exact reads

theorem reads_returned (repr : Repr e l) {before rest : List (Nat × Entry)} {p : Nat × Entry}
    (split : l.mnodes = before ++ p :: rest) (past : ∀ r ∈ rest, key < r.2.key) :
    e.Reaches key 4 (.next p.1) (.returned p.2.node) := by
  have stored : e.mnode p.1 = some (p.2.at (firstOf rest)) := repr.intermed.at_split split
  cases rest with
  | nil =>
      have two : e.readFor key 2 (.next p.1) = some (.returned p.2.node) := by
        simp [readFor, searchRead, stored, Entry.at]
      exact (Reaches.exactly two).mono (by omega)
  | cons r rest =>
      have behind : l.mnodes = (before ++ [p]) ++ r :: rest := by
        rw [split]
        simp
      have nextStored : e.mnode r.1 = _ := repr.intermed.at_split behind
      have nonzero := repr.intermed.nonzero (by simp [split] : r ∈ l.mnodes)
      have greater := past r List.mem_cons_self
      apply Reaches.exactly
      simp [readFor, searchRead, stored, nextStored, Entry.at, nonzero, Nat.not_le_of_lt greater]

end Repr

end Hosk
