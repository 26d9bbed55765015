import Hosk.IndexSearch
import Hosk.NumaRuns

/-! A search that is interrupted by its own helper between any two reads. -/

namespace Hosk

inductive SearchAct where
  | read
  | job (job : Job)
  | pass
  deriving DecidableEq

def SearchAct.call : SearchAct → Option Call
  | .read => none
  | .job given => some (.job given)
  | .pass => some .pass

def helps (acts : List SearchAct) : List Call := acts.filterMap SearchAct.call

/-- The next read, or a call of the helper on the allocator as it is. -/
def Enclave.searchAct (key : Nat) (state : Option (Enclave × SearchPc)) (act : SearchAct) :
    Option (Enclave × SearchPc) := do
  let (e, pc) ← state
  match act.call with
  | none => (e.searchRead key pc).map fun pc => (e, pc)
  | some call => (e.call numa call).map fun e => (e, pc)

def SearchPc.inodes : SearchPc → List Nat
  | .right item | .down item | .intermed item => [item]
  | .rightKey item nextItem | .rightKeyAgain item nextItem => [item, nextItem]
  | _ => []

namespace Enclave

def Spared (e : Enclave) (address : Nat) : Prop :=
  ∀ mnode, e.mnode address = some mnode → ¬ (mnode.level = 0 ∧ mnode.marked = true)

def Behind (e : Enclave) (mnode later : Nat) : Prop :=
  ∃ next, nextAt e.mnodes mnode = some next ∧ next ≠ 0 ∧ Chain.Follows (nextAt e.mnodes) next later

/-- The mnode that the search stands on is spared, and so is one behind it that makes good what the
search has read about the next one: that there is one, its address, that its key is not past. -/
def SearchSpared (e : Enclave) (key : Nat) : SearchPc → Prop
  | .next mnode | .node mnode => e.Spared mnode
  | .nextAgain mnode => e.Spared mnode ∧ ∃ later, e.Behind mnode later ∧ e.Spared later
  | .nextKey mnode next => e.Spared mnode ∧ e.Spared next
  | .advance mnode => e.Spared mnode ∧ ∃ later found, e.Behind mnode later ∧
      e.mnode later = some found ∧ found.key ≤ key ∧ e.Spared later
  | _ => True

/-- A pass deletes nothing that the search stands on or that is still to be come to. -/
def Undisturbed (key : Nat) (state : Option (Enclave × SearchPc)) (act : SearchAct) : Prop :=
  ∀ e pc, state = some (e, pc) → act = .pass →
    e.SoundPass ∧ e.PassesBy numa pc.inodes ∧ e.SearchSpared key pc

end Enclave

structure AtInode (e : Enclave) (l : Layout) (key item way : Nat) : Prop where
  good : l.good item
  before : ∃ inode, e.inode item = some inode ∧ inode.key ≤ key ∧
    way = l.rank item * (key + 1) + (key - inode.key)

def Layout.Lists (l : Layout) (mnode key : Nat) : Prop :=
  ∃ entry, (mnode, entry) ∈ l.mnodes ∧ entry.key = key

/-- Where a search stands, with a bound on the reads that are left to it. -/
def Standing (known : Nat → Prop) (e : Enclave) (l : Layout) (key : Nat) : SearchPc → Nat → Prop
  | .right item, left => ∃ way, AtInode e l key item way ∧ left = 5 * way + 5 * key + 11
  | .rightKey item nextItem, left => ∃ way, AtInode e l key item way ∧ l.good nextItem ∧
      l.rank nextItem = l.rank item ∧
      (∃ inode nextInode, e.inode item = some inode ∧ e.inode nextItem = some nextInode ∧
        inode.key < nextInode.key) ∧ left = 5 * way + 5 * key + 10
  | .rightKeyAgain item nextItem, left => ∃ way onward, AtInode e l key item way ∧
      AtInode e l key nextItem onward ∧ onward < way ∧ left = 5 * way + 5 * key + 9
  | .down item, left => ∃ way, AtInode e l key item way ∧ left = 5 * way + 5 * key + 8
  | .intermed item, left => ∃ way, AtInode e l key item way ∧ left = 5 * way + 5 * key + 7
  | .next mnode, left => ∃ here, l.Lists mnode here ∧ here ≤ key ∧ left = 5 * (key - here) + 5
  | .nextAgain mnode, left => ∃ here later there, l.Lists mnode here ∧ here ≤ key ∧
      l.Lists later there ∧ here < there ∧ left = 5 * (key - here) + 4
  | .nextKey mnode next, left => ∃ here there, l.Lists mnode here ∧ here ≤ key ∧
      l.Lists next there ∧ here < there ∧ left = 5 * (key - here) + 3
  | .advance mnode, left => ∃ here later there, l.Lists mnode here ∧ here ≤ key ∧
      l.Lists later there ∧ here < there ∧ there ≤ key ∧ left = 5 * (key - here) + 2
  | .node mnode, left => ∃ here, l.Lists mnode here ∧ here ≤ key ∧ left = 1
  | .returned node, left => left = 0 ∧ known node ∧
      ∃ found, Store.get e.nodes node = some found ∧ found.key ≤ key

namespace Repr

variable {e e' : Enclave} {l l' : Layout} {known : Nat → Prop} {key : Nat}

theorem lists_stored (repr : Repr e l) {mnode here : Nat} (lists : l.Lists mnode here) :
    ∃ (entry : Entry) (next : Nat), (mnode, entry) ∈ l.mnodes ∧ entry.key = here ∧
      e.mnode mnode = some (entry.at next) := by
  obtain ⟨entry, member, key⟩ := lists
  obtain ⟨next, stored⟩ := repr.intermed.holds _ member
  exact ⟨entry, next, member, key, stored⟩

theorem lists_next (repr : Repr e l) {mnode here later there : Nat} (lists : l.Lists mnode here)
    (listsLater : l.Lists later there) (before : here < there) : ∃ (entry : Entry) (next onward : Nat),
      e.mnode mnode = some (entry.at next) ∧ next ≠ 0 ∧ l.Lists next onward ∧ here < onward ∧
        onward ≤ there := by
  obtain ⟨entry, member, rfl⟩ := lists
  obtain ⟨entryLater, memberLater, rfl⟩ := listsLater
  obtain ⟨front, rest, split⟩ := List.append_of_mem member
  have stored : e.mnode mnode = some (entry.at (firstOf rest)) := repr.intermed.at_split split
  have sorted := repr.intermed.sorted
  rw [split, List.pairwise_append, List.pairwise_cons] at sorted
  rw [split, List.mem_append, List.mem_cons] at memberLater
  rcases memberLater with inFront | same | inRest
  · have wrong := sorted.2.2 _ inFront _ List.mem_cons_self
    dsimp only at wrong
    omega
  · obtain ⟨_, rfl⟩ := Prod.mk.inj same
    exact absurd before (Nat.lt_irrefl _)
  · cases rest with
    | nil => exact absurd inRest List.not_mem_nil
    | cons q rest =>
        have listed : q ∈ l.mnodes := by simp [split]
        refine ⟨entry, q.1, q.2.key, stored, repr.intermed.nonzero listed, ⟨q.2, listed, rfl⟩,
          sorted.2.1.1 q List.mem_cons_self, ?_⟩
        rcases List.mem_cons.mp inRest with rfl | deeper
        · exact Nat.le_refl _
        · exact Nat.le_of_lt ((List.pairwise_cons.mp sorted.2.1.2).1 _ deeper)

theorem lists_behind (repr : Repr e l) {mnode here later : Nat} (lists : l.Lists mnode here)
    (behind : e.Behind mnode later) : ∃ there, l.Lists later there ∧ here < there := by
  obtain ⟨entry, member, rfl⟩ := lists
  obtain ⟨front, rest, split⟩ := List.append_of_mem member
  obtain ⟨next, leads, nonzero, follows⟩ := behind
  have stored := repr.intermed.at_split split
  have chain := repr.intermed.chain
  have sorted := repr.intermed.sorted
  rw [split, List.map_append, List.map_cons] at chain
  rw [split, List.pairwise_append, List.pairwise_cons] at sorted
  obtain ⟨_, _, successor, found, onward⟩ := chain.suffix_cons
  obtain rfl : successor = next := Option.some.inj (found.symm.trans leads)
  obtain ⟨q, inRest, rfl⟩ := List.mem_map.mp ((onward.follows_iff nonzero).mp follows)
  exact ⟨q.2.key, ⟨q.2, by simp [split, inRest], rfl⟩, sorted.2.1.1 q inRest⟩

theorem atInode_right {item way nextItem : Nat} (stands : AtInode e l key item way)
    (good : l.good nextItem) (rank : l.rank nextItem = l.rank item) {inode nextInode : Inode}
    (found : e.inode item = some inode) (nextFound : e.inode nextItem = some nextInode)
    (greater : inode.key < nextInode.key) (notPast : nextInode.key ≤ key) :
    ∃ onward, AtInode e l key nextItem onward ∧ onward < way := by
  obtain ⟨_, inode', found', _, isWay⟩ := stands
  obtain rfl : inode' = inode := Option.some.inj (found'.symm.trans found)
  refine ⟨_, ⟨good, nextInode, nextFound, notPast, rfl⟩, ?_⟩
  rw [isWay, rank]
  omega

theorem atInode_down (repr : Repr e l) {item way : Nat} (stands : AtInode e l key item way)
    {inode : Inode} (found : e.inode item = some inode) (leads : inode.down ≠ 0) :
    ∃ onward, AtInode e l key inode.down onward ∧ onward < way := by
  obtain ⟨good, inode', found', notPast, isWay⟩ := stands
  obtain rfl : inode' = inode := Option.some.inj (found'.symm.trans found)
  obtain ⟨other, otherFound, ok⟩ := repr.grid.goods item good
  obtain rfl : other = inode' := Option.some.inj (otherFound.symm.trans found)
  obtain ⟨goodDown, rank, below, belowFound, belowKey⟩ := ok.down leads
  refine ⟨_, ⟨goodDown, below, belowFound, by omega, rfl⟩, ?_⟩
  have lower := Nat.mul_le_mul_right (key + 1) (Nat.succ_le_of_lt rank)
  rw [Nat.succ_mul] at lower
  rw [isWay, belowKey]
  omega

theorem atInode_over (repr : Repr e l) {item way : Nat} (stands : AtInode e l key item way) :
    ∃ inode here, e.inode item = some inode ∧ l.Lists inode.intermed here ∧ here ≤ key := by
  obtain ⟨good, inode, found, notPast, _⟩ := stands
  obtain ⟨entry, _, member, sameKey, _⟩ := repr.under good found
  exact ⟨inode, entry.key, found, ⟨entry, member, rfl⟩, by omega⟩

/-- One read: a search that stands rightly still does, nearer to its end. -/
theorem standing_read (repr : Repr e l) (sourced : l.Sourced known) {pc : SearchPc} {left : Nat}
    (stands : Standing known e l key pc left) : ∃ pc' left', e.searchRead key pc = some pc' ∧
      Standing known e l key pc' left' ∧ left' ≤ left - 1 := by
  cases pc with
  | right item =>
      obtain ⟨way, stands, rfl⟩ := stands
      obtain ⟨good, inode, found, notPast, isWay⟩ := stands
      obtain ⟨inode', found', ok⟩ := repr.grid.goods item good
      obtain rfl : inode' = inode := Option.some.inj (found'.symm.trans found)
      have here : AtInode e l key item way := ⟨good, inode', found, notPast, isWay⟩
      by_cases last : inode'.right = 0
      · exact ⟨.down item, _, by simp [Enclave.searchRead, found, last], ⟨way, here, rfl⟩, by omega⟩
      · obtain ⟨goodRight, rank, right, rightFound, greater⟩ := ok.right last
        exact ⟨.rightKey item inode'.right, _, by simp [Enclave.searchRead, found, last],
          ⟨way, here, goodRight, rank, ⟨inode', right, found, rightFound, greater⟩, rfl⟩, by omega⟩
  | rightKey item nextItem =>
      obtain ⟨way, here, good, rank, ⟨inode, nextInode, found, nextFound, greater⟩, rfl⟩ := stands
      by_cases past : key < nextInode.key
      · exact ⟨.down item, _, by simp [Enclave.searchRead, nextFound, past], ⟨way, here, rfl⟩,
          by omega⟩
      · obtain ⟨onward, there, nearer⟩ := atInode_right here good rank found nextFound greater
          (Nat.le_of_not_lt past)
        exact ⟨.rightKeyAgain item nextItem, _, by simp [Enclave.searchRead, nextFound, past],
          ⟨way, onward, here, there, nearer, rfl⟩, by omega⟩
  | rightKeyAgain item nextItem =>
      obtain ⟨way, onward, here, there, nearer, rfl⟩ := stands
      obtain ⟨nextInode, nextFound, _⟩ := there.before
      by_cases same : nextInode.key = key
      · exact ⟨.intermed item, _, by simp [Enclave.searchRead, nextFound, same], ⟨way, here, rfl⟩,
          by omega⟩
      · exact ⟨.right nextItem, _, by simp [Enclave.searchRead, nextFound, same],
          ⟨onward, there, rfl⟩, by omega⟩
  | down item =>
      obtain ⟨way, here, rfl⟩ := stands
      obtain ⟨inode, found, _⟩ := here.before
      by_cases bottom : inode.down = 0
      · exact ⟨.intermed item, _, by simp [Enclave.searchRead, found, bottom], ⟨way, here, rfl⟩,
          by omega⟩
      · obtain ⟨onward, there, nearer⟩ := repr.atInode_down here found bottom
        exact ⟨.right inode.down, _, by simp [Enclave.searchRead, found, bottom],
          ⟨onward, there, rfl⟩, by omega⟩
  | intermed item =>
      obtain ⟨way, stands, rfl⟩ := stands
      obtain ⟨inode, here, found, lists, notPast⟩ := repr.atInode_over stands
      exact ⟨.next inode.intermed, _, by simp [Enclave.searchRead, found], ⟨here, lists, notPast, rfl⟩,
        by omega⟩
  | next mnode =>
      obtain ⟨here, lists, notPast, rfl⟩ := stands
      obtain ⟨entry, next, member, sameKey, stored⟩ := repr.lists_stored lists
      by_cases last : next = 0
      · exact ⟨.node mnode, 1, by simp [Enclave.searchRead, stored, Entry.at, last],
          ⟨here, lists, notPast, rfl⟩, by omega⟩
      · obtain ⟨later, there, listsLater, greater⟩ : ∃ later there, l.Lists later there ∧ here < there := by
          have leads : nextAt e.mnodes mnode = some next := nextAt_found stored
          obtain ⟨there, listsLater, greater⟩ :=
            repr.lists_behind lists ⟨next, leads, last, Relation.ReflTransGen.refl⟩
          exact ⟨next, there, listsLater, greater⟩
        exact ⟨.nextAgain mnode, _, by simp [Enclave.searchRead, stored, Entry.at, last],
          ⟨here, later, there, lists, notPast, listsLater, greater, rfl⟩, by omega⟩
  | nextAgain mnode =>
      obtain ⟨here, later, there, lists, notPast, listsLater, greater, rfl⟩ := stands
      obtain ⟨entry, next, onward, stored, _, listsNext, ahead, _⟩ :=
        repr.lists_next lists listsLater greater
      exact ⟨.nextKey mnode next, _, by simp [Enclave.searchRead, stored, Entry.at],
        ⟨here, onward, lists, notPast, listsNext, ahead, rfl⟩, by omega⟩
  | nextKey mnode next =>
      obtain ⟨here, there, lists, notPast, listsNext, greater, rfl⟩ := stands
      obtain ⟨entry, after, _, sameKey, stored⟩ := repr.lists_stored listsNext
      by_cases within : there ≤ key
      · exact ⟨.advance mnode, _, by simp [Enclave.searchRead, stored, Entry.at, sameKey, within],
          ⟨here, next, there, lists, notPast, listsNext, greater, within, rfl⟩, by omega⟩
      · exact ⟨.node mnode, 1, by simp [Enclave.searchRead, stored, Entry.at, sameKey, within],
          ⟨here, lists, notPast, rfl⟩, by omega⟩
  | advance mnode =>
      obtain ⟨here, later, there, lists, notPast, listsLater, greater, within, rfl⟩ := stands
      obtain ⟨entry, next, onward, stored, _, listsNext, ahead, notBehind⟩ :=
        repr.lists_next lists listsLater greater
      exact ⟨.next next, _, by simp [Enclave.searchRead, stored, Entry.at],
        ⟨onward, listsNext, by omega, rfl⟩, by omega⟩
  | node mnode =>
      obtain ⟨here, lists, notPast, rfl⟩ := stands
      obtain ⟨entry, next, member, sameKey, stored⟩ := repr.lists_stored lists
      obtain ⟨node, nodeFound, nodeKey⟩ := repr.intermed.nodes _ member
      have nodeKey : node.key = entry.key := nodeKey
      exact ⟨.returned entry.node, 0, by simp [Enclave.searchRead, stored, Entry.at],
        ⟨rfl, sourced _ member, node, nodeFound, by omega⟩, Nat.zero_le _⟩
  | returned node => exact ⟨.returned node, left, rfl, stands, by have := stands.1; omega⟩

theorem atInode_kept {held : Nat → Prop} {list : List (Nat × Entry)} (keeps : Keeps held list e l e' l')
    {item way : Nat} (isHeld : held item) (stands : AtInode e l key item way) :
    AtInode e' l' key item way := by
  obtain ⟨good, inode, found, notPast, isWay⟩ := stands
  obtain ⟨good', rank⟩ := keeps.goods item isHeld
  obtain ⟨inode', found', sameKey⟩ := keeps.keys item inode isHeld found
  exact ⟨good', inode', found', by omega, by rw [isWay, rank, sameKey]⟩

theorem lists_kept (repr : Repr e l) {held : Nat → Prop} {call : Call}
    (keeps : Keeps held (l.mnodes.filter fun p => call ≠ .pass || p.2.stays) e l e' l')
    {mnode here : Nat} (lists : l.Lists mnode here) (spared : call = .pass → e.Spared mnode) :
    l'.Lists mnode here := by
  obtain ⟨entry, next, member, sameKey, stored⟩ := repr.lists_stored lists
  have stays : (decide (call ≠ .pass) || entry.stays) = true := by
    by_cases isPass : call = .pass
    · have used := spared isPass _ stored
      simp only [Entry.at] at used
      cases marked : entry.marked <;> simp_all [Entry.stays]
    · simp [isPass]
  obtain ⟨entry', member', key', _⟩ :=
    keeps.listed (mnode, entry) (List.mem_filter.mpr ⟨member, stays⟩)
  exact ⟨entry', member', key'.trans sameKey⟩

/-- One call of the helper: a search that is not disturbed stands as rightly as before. -/
theorem standing_kept (repr : Repr e l) {pc : SearchPc} {left : Nat} {call : Call}
    (keeps : Keeps (· ∈ pc.inodes) (l.mnodes.filter fun p => call ≠ .pass || p.2.stays) e l e' l')
    (levels : LevelsOnly e.nodes e'.nodes) (spared : call = .pass → e.SearchSpared key pc)
    (stands : Standing known e l key pc left) : Standing known e' l' key pc left := by
  cases pc with
  | right item | down item | intermed item =>
      obtain ⟨way, here, isLeft⟩ := stands
      exact ⟨way, atInode_kept keeps List.mem_cons_self here, isLeft⟩
  | rightKey item nextItem =>
      obtain ⟨way, here, good, rank, ⟨inode, nextInode, found, nextFound, greater⟩, isLeft⟩ := stands
      have nextHeld : nextItem ∈ SearchPc.inodes (.rightKey item nextItem) :=
        List.mem_cons_of_mem _ List.mem_cons_self
      obtain ⟨good', nextRank⟩ := keeps.goods nextItem nextHeld
      obtain ⟨_, itemRank⟩ := keeps.goods item List.mem_cons_self
      obtain ⟨inode', found', sameKey⟩ := keeps.keys item inode List.mem_cons_self found
      obtain ⟨nextInode', nextFound', nextKey⟩ := keeps.keys nextItem nextInode nextHeld nextFound
      exact ⟨way, atInode_kept keeps List.mem_cons_self here, good', by omega,
        ⟨inode', nextInode', found', nextFound', by omega⟩, isLeft⟩
  | rightKeyAgain item nextItem =>
      obtain ⟨way, onward, here, there, nearer, isLeft⟩ := stands
      exact ⟨way, onward, atInode_kept keeps List.mem_cons_self here,
        atInode_kept keeps (List.mem_cons_of_mem _ List.mem_cons_self) there, nearer, isLeft⟩
  | next mnode | node mnode =>
      obtain ⟨here, lists, facts⟩ := stands
      exact ⟨here, repr.lists_kept keeps lists spared, facts⟩
  | nextAgain mnode =>
      obtain ⟨here, later, there, lists, notPast, listsLater, greater, isLeft⟩ := stands
      have kept := repr.lists_kept keeps lists fun isPass => (spared isPass).1
      by_cases isPass : call = .pass
      · obtain ⟨_, other, behind, otherSpared⟩ := spared isPass
        obtain ⟨onward, listsOther, ahead⟩ := repr.lists_behind lists behind
        exact ⟨here, other, onward, kept, notPast,
          repr.lists_kept keeps listsOther fun _ => otherSpared, ahead, isLeft⟩
      · exact ⟨here, later, there, kept, notPast,
          repr.lists_kept keeps listsLater fun wrong => absurd wrong isPass, greater, isLeft⟩
  | nextKey mnode next =>
      obtain ⟨here, there, lists, notPast, listsNext, facts⟩ := stands
      exact ⟨here, there, repr.lists_kept keeps lists fun isPass => (spared isPass).1, notPast,
        repr.lists_kept keeps listsNext fun isPass => (spared isPass).2, facts⟩
  | advance mnode =>
      obtain ⟨here, later, there, lists, notPast, listsLater, greater, within, isLeft⟩ := stands
      have kept := repr.lists_kept keeps lists fun isPass => (spared isPass).1
      by_cases isPass : call = .pass
      · obtain ⟨_, other, found, behind, stored, notAfter, otherSpared⟩ := spared isPass
        obtain ⟨onward, listsOther, ahead⟩ := repr.lists_behind lists behind
        obtain ⟨entry, _, _, sameKey, stored'⟩ := repr.lists_stored listsOther
        obtain rfl := Option.some.inj (stored.symm.trans stored')
        have notAfter : entry.key ≤ key := notAfter
        exact ⟨here, other, onward, kept, notPast,
          repr.lists_kept keeps listsOther fun _ => otherSpared, ahead, by omega, isLeft⟩
      · exact ⟨here, later, there, kept, notPast,
          repr.lists_kept keeps listsLater fun wrong => absurd wrong isPass, greater, within, isLeft⟩
  | returned node =>
      obtain ⟨isLeft, isKnown, found, stored, notPast⟩ := stands
      obtain ⟨level, stored'⟩ := levels.found stored
      exact ⟨isLeft, isKnown, _, stored', notPast⟩

theorem standing_good {pc : SearchPc} {left : Nat} (stands : Standing known e l key pc left) :
    ∀ item ∈ pc.inodes, l.good item := by
  intro item isHeld
  cases pc with
  | right _ | down _ | intermed _ =>
      obtain ⟨way, here, _⟩ := stands
      rw [List.mem_singleton.mp isHeld]
      exact here.good
  | rightKey _ nextItem =>
      obtain ⟨way, here, good, _⟩ := stands
      rcases List.mem_cons.mp isHeld with rfl | isNext
      · exact here.good
      · rw [List.mem_singleton.mp isNext]
        exact good
  | rightKeyAgain _ nextItem =>
      obtain ⟨way, onward, here, there, _⟩ := stands
      rcases List.mem_cons.mp isHeld with rfl | isNext
      · exact here.good
      · rw [List.mem_singleton.mp isNext]
        exact there.good
  | next _ | nextAgain _ | nextKey _ _ | advance _ | node _ | returned _ =>
      exact absurd isHeld List.not_mem_nil

end Repr

theorem helps_cons (act : SearchAct) (acts : List SearchAct) :
    helps (act :: acts) = act.call.toList ++ helps acts := by
  cases act <;> rfl

theorem SearchAct.call_ne_reset (act : SearchAct) : act.call ≠ some .reset := by
  cases act <;> simp [SearchAct.call]

theorem help_keeps {known : Nat → Prop} {key left : Nat} {e : Enclave} {l : Layout} {pc : SearchPc}
    {act : SearchAct} {call : Call} {rest : List SearchAct} (isCall : act.call = some call)
    (repr : Repr e l) (tidy : Tidy e.trace) (sourced : l.Sourced known)
    (stands : Standing known e l key pc left)
    (jobs : JobsOk e.nodes (jobsOf (helps (act :: rest))))
    (jobsKnown : ∀ job ∈ jobsOf (helps (act :: rest)), job.node ≠ 0 → known job.node)
    (undisturbed : Enclave.Undisturbed key (some (e, pc)) act) : ∃ e' l',
      Enclave.searchAct key (some (e, pc)) act = some (e', pc) ∧ LevelsOnly e.nodes e'.nodes ∧
      Repr e' l' ∧ Tidy e'.trace ∧ l'.Sourced known ∧ Standing known e' l' key pc left := by
  rw [helps_cons, isCall, Option.toList_some, List.singleton_append] at jobs jobsKnown
  have isPass : call = .pass → act = .pass := by
    rintro rfl
    cases act with
    | read | job _ => simp [SearchAct.call] at isCall
    | pass => rfl
  have notReset : call ≠ .reset := fun wrong => act.call_ne_reset (wrong ▸ isCall)
  have quiet := fun passes => undisturbed e pc rfl (isPass passes)
  obtain ⟨e', l', called, levels, repr', keeps, absEq⟩ := repr.call_keeps numa.guarded_honest call
    jobs.first (fun passes => (repr.cleanPass_iff tidy).mp (quiet passes).1.1)
    (fun root isHeld => ⟨notReset, Repr.standing_good stands root isHeld⟩)
    fun passes => (repr.passesBy_iff tidy _).mp (quiet passes).2.1
  have twins := repr.call_twins tidy call fun passes => (quiet passes).1.2
  have calls : e.call numa call = some e' := twins.same.trans called
  refine ⟨e', l', ?_, levels, repr', twins.ends e' calls, ?_, ?_⟩
  · simp [Enclave.searchAct, isCall, calls]
  · refine repr.call_sourced repr' keeps absEq sourced ?_
    rintro job rfl inserts
    refine jobsKnown job ?_ inserts
    rw [jobsOf_cons]
    exact List.mem_cons_self
  · exact repr.standing_kept keeps levels (fun passes => (quiet passes).2.2) stands

theorem search_run (known : Nat → Prop) (key : Nat) (acts : List SearchAct) : ∀ e l pc left,
      Repr e l → Tidy e.trace → l.Sourced known → Standing known e l key pc left →
      JobsOk e.nodes (jobsOf (helps acts)) →
      (∀ job ∈ jobsOf (helps acts), job.node ≠ 0 → known job.node) →
      Runs.Along (Enclave.searchAct key) (Enclave.Undisturbed key) (some (e, pc)) acts →
      ∃ e' pc' l' left', Runs.run (Enclave.searchAct key) (some (e, pc)) acts = some (e', pc') ∧
        LevelsOnly e.nodes e'.nodes ∧ Standing known e' l' key pc' left' ∧
        left' ≤ left - acts.count .read := by
  induction acts with
  | nil =>
      intro e l pc left _ _ _ stands _ _ _
      exact ⟨e, pc, l, left, rfl, LevelsOnly.refl _, stands, Nat.le_refl _⟩
  | cons act rest ih =>
      intro e l pc left repr tidy sourced stands jobs jobsKnown undisturbed
      obtain ⟨now, later⟩ := undisturbed
      rw [Runs.run_cons]
      cases isCall : act.call with
      | none =>
          have isRead : act = .read := by
            cases act <;> simp [SearchAct.call] at isCall ⊢
          subst isRead
          obtain ⟨pc₁, left₁, read, stands₁, fewer⟩ := repr.standing_read sourced stands
          have acted : Enclave.searchAct key (some (e, pc)) .read = some (e, pc₁) := by
            simp [Enclave.searchAct, SearchAct.call, read]
          rw [acted] at later ⊢
          obtain ⟨e', pc', l', left', ran, levels, stands', bound⟩ :=
            ih e l pc₁ left₁ repr tidy sourced stands₁ jobs jobsKnown later
          refine ⟨e', pc', l', left', ran, levels, stands', ?_⟩
          rw [List.count_cons_self]
          omega
      | some call =>
          obtain ⟨e₁, l₁, acted, levels₁, repr₁, tidy₁, sourced₁, stands₁⟩ :=
            help_keeps isCall repr tidy sourced stands jobs jobsKnown now
          rw [acted] at later ⊢
          have jobsLater := jobs
          rw [helps_cons, isCall, Option.toList_some, List.singleton_append] at jobsLater jobsKnown
          rw [jobsOf_cons] at jobsKnown
          obtain ⟨e', pc', l', left', ran, levels, stands', bound⟩ :=
            ih e₁ l₁ pc left repr₁ tidy₁ sourced₁ stands₁ (jobsLater.later levels₁)
              (fun job member => jobsKnown job (List.mem_append_right _ member)) later
          refine ⟨e', pc', l', left', ran, levels₁.trans levels, stands', ?_⟩
          have notRead : act ≠ .read := by
            rintro rfl
            exact absurd isCall (Option.some_ne_none call).symm
          rw [List.count_cons_of_ne notRead]
          exact bound

/-- However the helper's jobs and passes fall between the reads of a search, as long as no pass
deletes what the search stands on, it reaches its end and returns a node of the data list at or
before its key. -/
theorem search_returns_node_before_key (data : DataNodes) {before : List Call} {e : Enclave}
    (jobs : data.DataJobs (jobsOf before)) (soundly : data.Soundly before)
    (ran : data.run before = some e) (key : Nat) : ∃ bound, ∀ acts,
      data.DataJobs (jobsOf (helps acts)) →
      Runs.Along (Enclave.searchAct key) (Enclave.Undisturbed key) (some (e, .right e.sentinel)) acts →
      ∃ e' pc, Runs.run (Enclave.searchAct key) (some (e, .right e.sentinel)) acts = some (e', pc) ∧
        (bound ≤ acts.count .read → ∃ node, pc = .returned node) ∧
        ∀ node, pc = .returned node → node ≠ 0 ∧ data.Linked e'.nodes node ∧
          keyAt e'.nodes node ≤ key := by
  obtain ⟨_, _, ran', guarded, _, tidy, _, clean⟩ := soundly.run_twins jobs.ok
  obtain rfl := Option.some.inj (ran'.symm.trans ran)
  obtain ⟨e₀, l, ran₀, levels, repr, sourced⟩ := data.guarded.run_sourced jobs clean
  obtain rfl := Option.some.inj (ran₀.symm.trans guarded)
  obtain ⟨_, inode, _, _, good, found, headKey, _⟩ := repr.sentinel
  let way := l.rank e₀.sentinel * (key + 1) + (key - inode.key)
  refine ⟨5 * way + 5 * key + 11, ?_⟩
  intro acts later undisturbed
  have stands : Standing (data.Linked data.nodes) e₀ l key (.right e₀.sentinel)
      (5 * way + 5 * key + 11) := ⟨way, ⟨good, inode, found, by omega, rfl⟩, rfl⟩
  have laterOk : JobsOk e₀.nodes (jobsOf (helps acts)) := by
    refine ⟨later.ok.positive, fun job member inserts => ?_, later.ok.sameNode⟩
    obtain ⟨node, nodeFound, nodeKey⟩ := Option.map_eq_some_iff.mp (later.ok.stored job member inserts)
    obtain ⟨node', nodeFound', same⟩ := levels.keys _ node nodeFound
    rw [nodeFound', Option.map_some, same, nodeKey]
  obtain ⟨e', pc, l', left, ended, levels', stands', bound⟩ := search_run
    (data.Linked data.nodes) key acts e₀ l _ _ repr tidy sourced stands laterOk later.linked undisturbed
  refine ⟨e', pc, ended, ?_, ?_⟩
  · intro enough
    have done : left = 0 := by omega
    cases pc with
    | returned node => exact ⟨node, rfl⟩
    | right _ | down _ | intermed _ | node _ | next _ | nextAgain _ | nextKey _ _ | advance _
    | rightKey _ _ | rightKeyAgain _ _ => simp [Standing, done] at stands'
  · rintro node rfl
    obtain ⟨_, isLinked, stored, nodeFound, notPast⟩ := stands'
    refine ⟨?_, ?_, ?_⟩
    · rintro rfl
      rw [(levels.trans levels').missing data.null] at nodeFound
      exact absurd nodeFound (Option.some_ne_none stored).symm
    · rw [DataNodes.Linked, (levels.trans levels').nextOf]
      exact isLinked
    · rw [keyAt_found nodeFound]
      exact notPast

theorem onList_follows {nodes : Nodes} {target : Nat} (fuel : Nat) : ∀ start,
    onList nodes fuel start target = true → Chain.Follows (nextOf nodes) start target := by
  induction fuel with
  | zero => exact fun start wrong => absurd wrong Bool.false_ne_true
  | succ fuel ih =>
      intro start isOn
      rw [onList] at isOn
      cases found : Store.get nodes start with
      | none => simp [found] at isOn
      | some node =>
          simp only [found, Bool.and_eq_true, Bool.or_eq_true, beq_iff_eq] at isOn
          obtain ⟨_, rfl | later⟩ := isOn
          · exact Relation.ReflTransGen.refl
          · have nonzero : node.next ≠ 0 := by
              intro last
              cases fuel with
              | zero => exact absurd later Bool.false_ne_true
              | succ fuel =>
                  rw [last, onList] at later
                  split at later <;> simp at later
            exact Relation.ReflTransGen.head ⟨nonzero, nextOf_found found⟩ (ih node.next later)

theorem DataNodes.dataJobs_of_onList {data : DataNodes} {jobs : List Job}
    (ok : JobsOk data.nodes jobs) (onLists : ∀ job ∈ jobs, job.node ≠ 0 →
      onList data.nodes data.nodes.length data.sentinel job.node = true) :
    data.DataJobs jobs :=
  ⟨ok, fun job member inserts => onList_follows _ _ (onLists job member inserts)⟩

theorem Enclave.searchSpared_in_index {e : Enclave} {pc : SearchPc} (key : Nat)
    (inIndex : pc.inodes ≠ []) : e.SearchSpared key pc := by
  cases pc with
  | right _ | rightKey _ _ | rightKeyAgain _ _ | down _ | intermed _ => exact trivial
  | next _ | nextAgain _ | nextKey _ _ | advance _ | node _ | returned _ => exact absurd rfl inIndex

theorem Repr.undisturbed_at_sentinel {e : Enclave} {l : Layout} (repr : Repr e l) (tidy : Tidy e.trace)
    (safe : e.SafePass) (stays : ∀ middle ∈ e.beforeLowering numa, middle.sentinel = e.sentinel)
    {pc : SearchPc} (inIndex : pc.inodes = [e.sentinel]) (key : Nat) (act : SearchAct) :
    Enclave.Undisturbed key (some (e, pc)) act := by
  intro e' pc' same isPass
  obtain ⟨rfl, rfl⟩ := Prod.mk.inj (Option.some.inj same)
  have sound := repr.soundPass_of_safe tidy safe
  refine ⟨sound, ?_, Enclave.searchSpared_in_index key (inIndex ▸ List.cons_ne_nil _ _)⟩
  intro inodes middle newLow raised drops root isHeld
  rw [inIndex, List.mem_singleton] at isHeld
  have isBefore : middle ∈ e.beforeLowering numa := by
    simp [Enclave.beforeLowering, raised, drops]
  rw [isHeld, ← stays middle isBefore]
  exact sound.1 inodes middle newLow raised drops

/-- The index is lowered twice while a search for key 5 is at its sentinel inode. -/
def interrupted : List SearchAct := [.read, .pass, .pass] ++ List.replicate 20 .read

theorem interrupted_returns : ∃ e e' node,
    (numaData twiceLoweredKeys).run (twiceLowered.take 40) = some e ∧
    Runs.run (Enclave.searchAct 5) (some (e, .right e.sentinel)) interrupted =
      some (e', .returned node) ∧
    node ≠ 0 ∧ (numaData twiceLoweredKeys).Linked e'.nodes node ∧ keyAt e'.nodes node ≤ 5 := by
  let data := numaData twiceLoweredKeys
  have jobs : ∀ {calls rest}, twiceLowered = calls ++ rest → JobsOk data.nodes (jobsOf calls) :=
    fun split => twiceLowered_ok.1.front split
  have safely : data.Safely (twiceLowered.take 41) := by decide +kernel
  have ended : (data.run (twiceLowered.take 40)).bind (fun e => (e.call numa .pass).map fun e₁ =>
      decide (e.SafePass ∧ e₁.SafePass ∧ e₁.sentinel = e.sentinel ∧ rightAt e.inodes e.sentinel = some 0 ∧
        (∀ middle ∈ e.beforeLowering numa, middle.sentinel = e.sentinel) ∧
        (∀ middle ∈ e₁.beforeLowering numa, middle.sentinel = e₁.sentinel) ∧
        (Runs.run (Enclave.searchAct 5) (some (e, .right e.sentinel)) interrupted).map Prod.snd =
          some (.returned 1004))) = some true := by decide +kernel
  obtain ⟨e, ran, ended⟩ := Option.bind_eq_some_iff.mp ended
  obtain ⟨e₁, passed, isTrue⟩ := Option.map_eq_some_iff.mp ended
  obtain ⟨safe, safe₁, sentinel₁, last, stays, stays₁, returns⟩ := of_decide_eq_true isTrue
  have ran₁ : data.run (twiceLowered.take 41) = some e₁ := by
    rw [show twiceLowered.take 41 = twiceLowered.take 40 ++ [.pass] by decide, DataNodes.run,
      Runs.run_snoc]
    exact (congrArg (Enclave.turn numa · .pass) ran).trans passed
  have safelyFirst : data.Safely (twiceLowered.take 40) := Runs.Along.first
    (show data.Safely (twiceLowered.take 40 ++ [.pass]) from safely)
  obtain ⟨e', l, ran', _, repr, tidy, soundly, _⟩ :=
    safelyFirst.run_twins (jobs (List.take_append_drop 40 twiceLowered).symm)
  obtain rfl : e = e' := Option.some.inj (ran.symm.trans ran')
  obtain ⟨e₁', l₁, ran₁', _, repr₁, tidy₁, _⟩ :=
    safely.run_twins (jobs (List.take_append_drop 41 twiceLowered).symm)
  obtain rfl : e₁ = e₁' := Option.some.inj (ran₁.symm.trans ran₁')
  have reads : ∀ state act, act = .read → Enclave.Undisturbed 5 state act := by
    rintro state act rfl e pc _ isPass
    exact SearchAct.noConfusion isPass
  obtain ⟨inode, found, right⟩ := Option.map_eq_some_iff.mp last
  have first : Enclave.searchAct 5 (some (e, .right e.sentinel)) .read = some (e, .down e.sentinel) := by
    simp [Enclave.searchAct, SearchAct.call, Enclave.searchRead,
      show e.inode e.sentinel = some inode from found, right]
  have second : Enclave.searchAct 5 (some (e, .down e.sentinel)) .pass = some (e₁, .down e.sentinel) := by
    simp [Enclave.searchAct, SearchAct.call, passed]
  have undisturbed : Runs.Along (Enclave.searchAct 5) (Enclave.Undisturbed 5)
      (some (e, .right e.sentinel)) interrupted := by
    refine ⟨reads _ _ rfl, ?_⟩
    rw [first]
    refine ⟨repr.undisturbed_at_sentinel tidy safe stays rfl 5 .pass, ?_⟩
    rw [second]
    refine ⟨repr₁.undisturbed_at_sentinel tidy₁ safe₁ stays₁ (sentinel₁ ▸ rfl) 5 .pass, ?_⟩
    exact Runs.Along.of_mem _ fun state act member => reads state act (List.eq_of_mem_replicate member)
  obtain ⟨bound, always⟩ := search_returns_node_before_key data
    (DataNodes.dataJobs_of_onList (jobs (List.take_append_drop 40 twiceLowered).symm) (by decide +kernel))
    soundly ran 5
  obtain ⟨e', pc, ended, _, answers⟩ := always interrupted
    (DataNodes.dataJobs_of_onList ⟨by decide, by decide, by decide⟩ (by decide)) undisturbed
  rw [ended] at returns
  obtain rfl := Option.some.inj returns
  exact ⟨e, e', 1004, ran, ended, answers 1004 rfl⟩

/-- The mnode of key 1 is deleted and zeroed under a search for key 5; a search for key 5 has tested
the mnode of key 3 when that is deleted, and then steps on to the one of key 9. -/
theorem paused_search_fails :
    (∃ e e', (numaData [1]).DataJobs (jobsOf [insertJob 1]) ∧
      (numaData [1]).Safely [insertJob 1] ∧ (numaData [1]).run [insertJob 1] = some e ∧
      Runs.run (Enclave.searchAct 5) (some (e, .right e.sentinel))
        (List.replicate 7 .read ++ [.job ⟨1, 0⟩, .pass, .read, .read]) = some (e', .returned 0)) ∧
    ∃ e e', (numaData [3, 9]).DataJobs (jobsOf [insertJob 3, insertJob 9]) ∧
      (numaData [3, 9]).Safely [insertJob 3, insertJob 9] ∧
      (numaData [3, 9]).run [insertJob 3, insertJob 9] = some e ∧
      Runs.run (Enclave.searchAct 5) (some (e, .right e.sentinel))
        (List.replicate 6 .read ++ [.job ⟨3, 0⟩, .pass, .read, .read, .read]) =
          some (e', .returned 1009) ∧ keyAt e'.nodes 1009 = 9 := by
  constructor
  · have ended : ((numaData [1]).run [insertJob 1]).bind (fun e =>
        (Runs.run (Enclave.searchAct 5) (some (e, .right e.sentinel))
          (List.replicate 7 .read ++ [.job ⟨1, 0⟩, .pass, .read, .read])).map Prod.snd) =
        some (.returned 0) := by decide +kernel
    obtain ⟨e, ran, ended⟩ := Option.bind_eq_some_iff.mp ended
    obtain ⟨⟨e', pc⟩, ended, rfl⟩ := Option.map_eq_some_iff.mp ended
    exact ⟨e, e', DataNodes.dataJobs_of_onList ⟨by decide, by decide, by decide⟩ (by decide),
      by decide, ran, ended⟩
  · have ended : ((numaData [3, 9]).run [insertJob 3, insertJob 9]).bind (fun e =>
        (Runs.run (Enclave.searchAct 5) (some (e, .right e.sentinel))
          (List.replicate 6 .read ++ [.job ⟨3, 0⟩, .pass, .read, .read, .read])).map
            fun s => (s.2, keyAt s.1.nodes 1009)) = some (.returned 1009, 9) := by decide +kernel
    obtain ⟨e, ran, ended⟩ := Option.bind_eq_some_iff.mp ended
    obtain ⟨⟨e', pc⟩, ended, facts⟩ := Option.map_eq_some_iff.mp ended
    obtain ⟨rfl, key⟩ := Prod.mk.inj facts
    exact ⟨e, e', DataNodes.dataJobs_of_onList ⟨by decide, by decide, by decide⟩ (by decide),
      by decide, ran, ended, key⟩

end Hosk
