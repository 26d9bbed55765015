import Mathlib.Data.Finset.Card
import Hosk.IndexGrid

/-! The enclave in memory and the lists it stands for, and where a search in it ends. -/

namespace Hosk

def cleared : List Event → List Nat
  | [] => []
  | .inodeNew address _ :: older => (cleared older).filter (· ≠ address)
  | .mnodeNew address :: older => (cleared older).filter (· ≠ address)
  | .inodeDelete address zeroed :: older =>
      if zeroed = some address then address :: cleared older else (cleared older).filter (· ≠ address)
  | .mnodeDelete address zeroed :: older =>
      if zeroed = some address then address :: cleared older else (cleared older).filter (· ≠ address)
  | .unlink _ :: older => cleared older
  | .lower :: older => cleared older

/-- The memory holds the layout, nothing in it has been deleted, and an mnode out of the list has:
it is zero if it was zeroed. -/
structure Repr (e : Enclave) (l : Layout) : Prop where
  intermed : Intermed e.mnodes e.nodes l.base l.rows.length l.mnodes
  grid : Grid e.inodes e.sentinel l
  liveMnodes : ∀ p ∈ l.mnodes, p.1 ∈ live e.trace
  liveInodes : ∀ address, l.good address → address ∈ live e.trace
  noInode : ∀ p ∈ l.mnodes, e.inode p.1 = none
  strays : ∀ address mnode, e.mnode address = some mnode →
    (∃ entry, (address, entry) ∈ l.mnodes) ∨
      address ∈ dead e.trace ∧ (address ∈ cleared e.trace → mnode = ⟨0, 0, 0, 0, false⟩)

def isUnlink : Event → Bool
  | .unlink _ => true
  | _ => false

/-- The lists that the enclave stands for: what follows the sentinels. -/
def abs (e : Enclave) (l : Layout) : Index where
  entries := l.mnodes.tail.map Prod.snd
  rows := l.rows.map fun row => row.tail.map Prod.snd
  nonDel := e.nonDel
  tallDel := e.tallDel
  unlinks := e.trace.countP isUnlink

/-- What a search that is under way goes on with: the inodes and mnodes it may stand on are still
there, with the keys and data nodes they had. -/
structure Keeps (good : Nat → Prop) (list : List (Nat × Entry)) (e : Enclave) (l : Layout)
    (e' : Enclave) (l' : Layout) : Prop where
  base : l'.base = l.base
  goods : ∀ address, good address → l'.good address ∧ l'.rank address = l.rank address
  keys : ∀ address inode, good address → e.inode address = some inode →
    ∃ inode', e'.inode address = some inode' ∧ inode'.key = inode.key
  listed : ∀ p ∈ list, ∃ entry,
    (p.1, entry) ∈ l'.mnodes ∧ entry.key = p.2.key ∧ entry.node = p.2.node

namespace Keeps

variable {good good' : Nat → Prop} {list list' : List (Nat × Entry)} {e e' e'' : Enclave}
  {l l' l'' : Layout}

theorem refl (e : Enclave) (l : Layout) : Keeps l.good l.mnodes e l e l :=
  ⟨rfl, fun _ isGood => ⟨isGood, rfl⟩, fun _ inode _ found => ⟨inode, found, rfl⟩,
    fun p member => ⟨p.2, member, rfl, rfl⟩⟩

theorem trans (first : Keeps good list e l e' l') (second : Keeps good' l'.mnodes e' l' e'' l'')
    (inside : ∀ address, good address → good' address) : Keeps good list e l e'' l'' := by
  refine ⟨second.base.trans first.base, ?_, ?_, ?_⟩
  · intro address isGood
    obtain ⟨still, rank⟩ := second.goods address (inside address isGood)
    exact ⟨still, rank.trans (first.goods address isGood).2⟩
  · intro address inode isGood found
    obtain ⟨inode', found', key'⟩ := first.keys address inode isGood found
    obtain ⟨inode'', found'', key''⟩ := second.keys address inode' (inside address isGood) found'
    exact ⟨inode'', found'', key''.trans key'⟩
  · intro p member
    obtain ⟨entry, inList, key, node⟩ := first.listed p member
    obtain ⟨entry', inList', key', node'⟩ := second.listed _ inList
    exact ⟨entry', inList', key'.trans key, node'.trans node⟩

theorem onward (first : Keeps good list e l e' l') (second : Keeps l'.good l'.mnodes e' l' e'' l'') :
    Keeps good list e l e'' l'' :=
  first.trans second fun address isGood => (first.goods address isGood).1

theorem mono (keeps : Keeps good list e l e' l') (fewer : ∀ address, good' address → good address)
    (shorter : list' ⊆ list) : Keeps good' list' e l e' l' :=
  ⟨keeps.base, fun address isGood => keeps.goods address (fewer address isGood),
    fun address inode isGood => keeps.keys address inode (fewer address isGood),
    fun p member => keeps.listed p (shorter member)⟩

theorem relisted {mnodes : List (Nat × Entry)}
    (same : ∀ address, l.good address → e'.inode address = e.inode address)
    (listed : ∀ p ∈ list, ∃ entry, (p.1, entry) ∈ mnodes ∧ entry.key = p.2.key ∧
      entry.node = p.2.node) : Keeps l.good list e l e' { l with mnodes := mnodes } :=
  ⟨rfl, fun _ isGood => ⟨isGood, rfl⟩,
    fun address inode isGood found => ⟨inode, (same address isGood).trans found, rfl⟩, listed⟩

theorem mem_rewritten {before after : List (Nat × Entry)} {p : Nat × Entry} {entry : Entry}
    (extra : List (Nat × Entry)) (split : list = before ++ p :: after) (sameKey : entry.key = p.2.key)
    (sameNode : entry.node = p.2.node) : ∀ q ∈ list, ∃ entry',
      (q.1, entry') ∈ before ++ (p.1, entry) :: (extra ++ after) ∧ entry'.key = q.2.key ∧
        entry'.node = q.2.node := by
  intro q member
  rw [split, List.mem_append, List.mem_cons] at member
  rcases member with inBefore | rfl | inAfter
  · exact ⟨q.2, by simp [inBefore], rfl, rfl⟩
  · exact ⟨entry, by simp, sameKey, sameNode⟩
  · exact ⟨q.2, by simp [inAfter], rfl, rfl⟩

end Keeps

/-- The allocator places no block at NULL or at a live block, and a delete zeroes no other block. -/
structure Platform.Honest (platform : Platform) : Prop where
  places : ∀ e, platform.place e ≠ 0 ∧ platform.place e ∉ live e.trace
  spares : ∀ e address block, platform.zeroes e address = some block → block = address

namespace Platform.Honest

variable {platform : Platform}

theorem inodeDelete_eq (honest : platform.Honest) (e : Enclave) (address : Nat) : ∃ inodes zeroed,
    e.inodeDelete platform address =
        { e with inodes := inodes, trace := .inodeDelete address zeroed :: e.trace } ∧
      ∀ other, address ≠ other → Store.get inodes other = e.inode other := by
  rw [Enclave.inodeDelete]
  cases zeroes : platform.zeroes e address with
  | none => exact ⟨e.inodes, none, rfl, fun _ _ => rfl⟩
  | some block =>
      obtain rfl := honest.spares e address block zeroes
      exact ⟨_, some block, rfl, fun _ other => Store.get_set_other _ other⟩

theorem mnodeDelete_eq (honest : platform.Honest) (e : Enclave) (address : Nat) : ∃ mnodes zeroed,
    e.mnodeDelete platform address =
        { e with mnodes := mnodes, trace := .mnodeDelete address zeroed :: e.trace } ∧
      (zeroed = some address → Store.get mnodes address = some ⟨0, 0, 0, 0, false⟩) ∧
      ∀ other, address ≠ other → Store.get mnodes other = e.mnode other := by
  rw [Enclave.mnodeDelete]
  cases zeroes : platform.zeroes e address with
  | none => exact ⟨e.mnodes, none, rfl, nofun, fun _ _ => rfl⟩
  | some block =>
      obtain rfl := honest.spares e address block zeroes
      exact ⟨_, some block, rfl, fun _ => Store.get_set_same _ _ _,
        fun _ other => Store.get_set_other _ other⟩

end Platform.Honest

theorem live_not_dead {trace : List Event} {address : Nat} (alive : address ∈ live trace) :
    address ∉ dead trace := by
  induction trace with
  | nil => exact absurd alive List.not_mem_nil
  | cons event older ih =>
      cases event with
      | inodeNew other | mnodeNew other =>
          intro gone
          obtain ⟨gone, different⟩ := List.mem_filter.mp gone
          rcases List.mem_cons.mp alive with same | alive
          · exact of_decide_eq_true different same
          · exact ih alive gone
      | inodeDelete other _ | mnodeDelete other _ =>
          obtain ⟨alive, different⟩ := List.mem_filter.mp alive
          intro gone
          rcases List.mem_cons.mp gone with same | gone
          · exact of_decide_eq_true different same
          · exact ih alive gone
      | unlink _ | lower => exact ih alive

namespace Repr

variable {e : Enclave} {l : Layout}

theorem apart (repr : Repr e l) : ∀ p ∈ l.mnodes, ¬ l.good p.1 := by
  intro p member good
  obtain ⟨inode, found, _⟩ := repr.grid.goods p.1 good
  exact absurd ((repr.noInode p member).symm.trans found) (Option.some_ne_none inode).symm

theorem noMnode (repr : Repr e l) {address : Nat} (good : l.good address) : e.mnode address = none := by
  refine Option.eq_none_iff_forall_ne_some.mpr fun mnode stored => ?_
  rcases repr.strays address mnode stored with ⟨entry, listed⟩ | ⟨gone, _⟩
  · exact repr.apart _ listed good
  · exact live_not_dead (repr.liveInodes address good) gone

theorem strays_kept (repr : Repr e l) {e' : Enclave} {list : List (Nat × Entry)}
    (listed : ∀ p ∈ l.mnodes, ∃ entry, (p.1, entry) ∈ list)
    (kept : ∀ address mnode, e'.mnode address = some mnode → (∃ entry, (address, entry) ∈ list) ∨
      e.mnode address = some mnode ∧ (address ∈ dead e.trace → address ∈ dead e'.trace) ∧
        (address ∈ cleared e'.trace → address ∈ cleared e.trace)) :
    ∀ address mnode, e'.mnode address = some mnode → (∃ entry, (address, entry) ∈ list) ∨
      address ∈ dead e'.trace ∧ (address ∈ cleared e'.trace → mnode = ⟨0, 0, 0, 0, false⟩) := by
  intro address mnode stored
  rcases kept address mnode stored with inList | ⟨before, stillDead, wasCleared⟩
  · exact .inl inList
  · rcases repr.strays address mnode before with ⟨entry, inOld⟩ | ⟨gone, zero⟩
    · exact .inl (listed _ inOld)
    · exact .inr ⟨stillDead gone, fun clear => zero (wasCleared clear)⟩

theorem under (repr : Repr e l) {address : Nat} {inode : Inode} (good : l.good address)
    (found : e.inode address = some inode) : ∃ entry next,
      (inode.intermed, entry) ∈ l.mnodes ∧ entry.key = inode.key ∧ 1 ≤ entry.level ∧
        e.mnode inode.intermed = some (entry.at next) := by
  obtain ⟨inode', found', ok⟩ := repr.grid.goods address good
  obtain rfl : inode' = inode := Option.some.inj (found'.symm.trans found)
  obtain ⟨entry, member, key, level⟩ := ok.isOver
  obtain ⟨next, stored⟩ := repr.intermed.holds _ member
  exact ⟨entry, next, member, key, level, stored⟩

theorem cell (repr : Repr e l) {i : Nat} {row : List (Nat × Nat)} {p : Nat × Nat}
    (located : l.rows[i]? = some row) (member : p ∈ row) : ∃ inode entry next,
      e.inode p.1 = some inode ∧ inode.key = p.2 ∧ (inode.intermed, entry) ∈ l.mnodes ∧
        entry.key = p.2 ∧ i + 1 ≤ entry.level ∧ e.mnode inode.intermed = some (entry.at next) := by
  obtain ⟨_, _, inode, found, key, entry, inList, sameKey, level⟩ :=
    repr.grid.cells i row p located member
  obtain ⟨next, stored⟩ := repr.intermed.holds _ inList
  exact ⟨inode, entry, next, found, key, inList, sameKey, level, stored⟩

theorem head (repr : Repr e l) {i : Nat} {row : List (Nat × Nat)}
    (located : l.rows[i]? = some row) : ∃ head rest inode, row = (head, 0) :: rest ∧
      e.inode head = some inode ∧ inode.key = 0 ∧ inode.intermed = l.base ∧
        inode.right = firstOf rest := by
  obtain ⟨head, rest, same⟩ := repr.grid.heads row (List.mem_of_getElem? located)
  obtain ⟨inode, entry, next, found, key, inList, sameKey, _⟩ :=
    repr.cell located (by simp [same] : (head, 0) ∈ row)
  obtain ⟨inode', found', _, right⟩ := repr.grid.at_split located
    (show row = [] ++ (head, 0) :: rest from same)
  obtain rfl : inode' = inode := Option.some.inj (found'.symm.trans found)
  obtain ⟨node, inSentinel⟩ := repr.intermed.sentinel
  have equal := repr.intermed.eq_of_key inList inSentinel sameKey
  exact ⟨head, rest, inode', same, found, key, congrArg Prod.fst equal, right⟩

theorem sentinel (repr : Repr e l) : ∃ row inode, l.rows.getLast? = some row ∧
    firstOf row = e.sentinel ∧ l.good e.sentinel ∧ e.inode e.sentinel = some inode ∧
      inode.key = 0 ∧ inode.intermed = l.base := by
  obtain ⟨row, isLast, first⟩ := repr.grid.top
  have located : l.rows[l.rows.length - 1]? = some row := by
    rw [← List.getLast?_eq_getElem?]
    exact isLast
  obtain ⟨head, rest, inode, same, found, key, intermed, _⟩ := repr.head located
  have isSentinel : head = e.sentinel := by
    rw [← first, same]
    rfl
  have good := (repr.grid.cells _ row (head, 0) located (by simp [same])).1
  exact ⟨row, inode, isLast, first, isSentinel ▸ good, isSentinel ▸ found, key, intermed⟩

section Search

def ahead (inodes : Store Inode) (rank : Nat → Nat) (here key : Nat) : Finset Nat :=
  (inodes.map Prod.fst).toFinset.filter fun address =>
    rank address < here ∨
      rank address = here ∧ key < (Store.get inodes address).elim 0 Inode.key

theorem ahead_lt {inodes : Store Inode} (rank : Nat → Nat) {here address : Nat} (key : Nat)
    {inode : Inode}
    (found : Store.get inodes address = some inode)
    (later : rank address < here ∨ rank address = here ∧ key < inode.key) :
    (ahead inodes rank (rank address) inode.key).card < (ahead inodes rank here key).card := by
  apply Finset.card_lt_card
  refine (Finset.ssubset_iff_of_subset ?_).mpr ⟨address, ?_, ?_⟩
  · intro other member
    rw [ahead, Finset.mem_filter] at member ⊢
    refine ⟨member.1, ?_⟩
    rcases member.2 with lower | ⟨same, greater⟩ <;> omega
  · rw [ahead, Finset.mem_filter]
    refine ⟨List.mem_toFinset.mpr (Store.mem_of_get found), ?_⟩
    simpa [found] using later
  · rw [ahead, Finset.mem_filter]
    simp [found]

theorem ahead_card_le (inodes : Store Inode) (rank : Nat → Nat) (here key : Nat) :
    (ahead inodes rank here key).card ≤ inodes.length := by
  refine (Finset.card_filter_le _ _).trans ((List.toFinset_card_le _).trans ?_)
  simp

theorem traverseInodes_returns (repr : Repr e l) {key : Nat} :
    ∀ fuel item inode, l.good item → e.inode item = some inode → inode.key ≤ key →
      (ahead e.inodes l.rank (l.rank item) inode.key).card < fuel →
      ∃ m entry, e.traverseInodes key fuel item = some m ∧ (m, entry) ∈ l.mnodes ∧
        entry.key ≤ key := by
  intro fuel
  induction fuel with
  | zero => intro item inode _ _ _ bound; exact absurd bound (Nat.not_lt_zero _)
  | succ fuel ih =>
      intro item inode good found notPast bound
      obtain ⟨entry, next, member, sameKey, _, stored⟩ := repr.under good found
      obtain ⟨inode', found', ok⟩ := repr.grid.goods item good
      obtain rfl : inode' = inode := Option.some.inj (found'.symm.trans found)
      have here : ∃ m entry, some inode'.intermed = some m ∧ (m, entry) ∈ l.mnodes ∧
          entry.key ≤ key := ⟨_, entry, rfl, member, sameKey ▸ notPast⟩
      have descend : ∃ m entry,
          (if inode'.down = 0 then some inode'.intermed
            else e.traverseInodes key fuel inode'.down) = some m ∧ (m, entry) ∈ l.mnodes ∧
              entry.key ≤ key := by
        by_cases null : inode'.down = 0
        · rw [if_pos null]
          exact here
        · rw [if_neg null]
          obtain ⟨goodDown, rank, below, belowFound, belowKey⟩ := ok.down null
          have fewer := ahead_lt l.rank inode'.key belowFound (.inl rank)
          exact ih _ below goodDown belowFound (by omega) (by omega)
      rw [Enclave.traverseInodes]
      simp only [found, Option.bind_eq_bind, Option.bind_some]
      by_cases last : inode'.right = 0
      · rw [if_pos last]
        exact descend
      · rw [if_neg last]
        obtain ⟨goodRight, rank, right, rightFound, greater⟩ := ok.right last
        have stored : e.inode inode'.right = some right := rightFound
        simp only [stored, Option.bind_some]
        by_cases past : key < right.key
        · rw [if_pos past]
          exact descend
        · rw [if_neg past]
          by_cases same : right.key = key
          · rw [if_pos same]
            exact here
          · rw [if_neg same]
            have fewer := ahead_lt l.rank inode'.key rightFound (.inr ⟨rank, greater⟩)
            exact ih _ right goodRight rightFound (by omega) (by omega)

theorem traverseMnodes_returns (repr : Repr e l) {key : Nat} :
    ∀ fuel before p rest, l.mnodes = before ++ p :: rest → p.2.key ≤ key → rest.length < fuel →
      ∃ before q after, l.mnodes = before ++ q :: after ∧ q.2.key ≤ key ∧
        (∀ r ∈ after, key < r.2.key) ∧ e.traverseMnodes key fuel p.1 = some q.1 := by
  intro fuel
  induction fuel with
  | zero => intro before p rest _ _ bound; exact absurd bound (Nat.not_lt_zero _)
  | succ fuel ih =>
      intro before p rest split notPast bound
      have stored : e.mnode p.1 = some (p.2.at (firstOf rest)) := repr.intermed.at_split split
      rw [Enclave.traverseMnodes]
      simp only [stored, Option.bind_eq_bind, Option.bind_some, Entry.at]
      cases rest with
      | nil => exact ⟨before, p, [], split, notPast, by simp, by simp⟩
      | cons q rest =>
          have behind : l.mnodes = (before ++ [p]) ++ q :: rest := by simp [split]
          have nextStored : e.mnode q.1 = some (q.2.at (firstOf rest)) :=
            repr.intermed.at_split behind
          have nonzero : q.1 ≠ 0 := repr.intermed.nonzero (by simp [split])
          simp only [firstOf_cons, if_neg nonzero, nextStored, Option.bind_some, Entry.at]
          by_cases past : key < q.2.key
          · rw [if_pos past]
            refine ⟨before, p, q :: rest, split, notPast, ?_, rfl⟩
            intro r member
            rcases List.mem_cons.mp member with rfl | inRest
            · exact past
            · have sorted := repr.intermed.sorted
              rw [behind, List.pairwise_append, List.pairwise_cons] at sorted
              exact Nat.lt_trans past (sorted.2.1.1 r inRest)
          · rw [if_neg past]
            exact ih _ q rest behind (by omega) (by simpa using bound)

/-- A search ends at the last mnode that is not past its key, wherever the index led it. -/
theorem search_returns (repr : Repr e l) (key : Nat) :
    ∃ before p after, l.mnodes = before ++ p :: after ∧ p.2.key ≤ key ∧
      (∀ r ∈ after, key < r.2.key) ∧ e.search key = some p.1 := by
  obtain ⟨_, inode, _, _, good, found, headKey, _⟩ := repr.sentinel
  obtain ⟨m, entry, entered, member, notPast⟩ := repr.traverseInodes_returns
    (e.inodes.length + 1) e.sentinel inode good found (by omega)
    (Nat.lt_succ_of_le (ahead_card_le _ _ _ _))
  obtain ⟨before, rest, split⟩ := List.append_of_mem member
  have size := repr.intermed.length_le
  rw [split, List.length_append, List.length_cons] at size
  obtain ⟨before', q, after, split', notPast', past, ended⟩ :=
    repr.traverseMnodes_returns (e.mnodes.length + 1) before (m, entry) rest split notPast (by omega)
  refine ⟨before', q, after, split', notPast', past, ?_⟩
  rw [Enclave.search, entered]
  exact ended

end Search

end Repr

end Hosk
