import Hosk.EntrySources

/-! `sl_traverse_index` one read at a time, with jobs and passes of the helper between the reads. -/

namespace Hosk

-- the next read, with the local variables; item = obj->get_sentinel() has been read before
inductive SearchPc where
  | right (item : Nat)
  | rightKey (item nextItem : Nat)
  | rightKeyAgain (item nextItem : Nat)
  | down (item : Nat)
  | intermed (item : Nat)
  | next (mnode : Nat)
  | nextAgain (mnode : Nat)
  | nextKey (mnode next : Nat)
  | advance (mnode : Nat)
  | node (mnode : Nat)
  | returned (node : Nat)
  deriving DecidableEq

namespace Enclave

def searchRead (e : Enclave) (key : Nat) : SearchPc → Option SearchPc
  | .right item => do
      let inode ← e.inode item
      some (if inode.right = 0 then .down item else .rightKey item inode.right)
  | .rightKey item nextItem => do
      let inode ← e.inode nextItem
      some (if key < inode.key then .down item else .rightKeyAgain item nextItem)
  | .rightKeyAgain item nextItem => do
      let inode ← e.inode nextItem
      some (if inode.key = key then .intermed item else .right nextItem)
  | .down item => do
      let inode ← e.inode item
      some (if inode.down = 0 then .intermed item else .right inode.down)
  | .intermed item => do
      let inode ← e.inode item
      some (.next inode.intermed)
  -- while(mnode->next && mnode->next->key <= key) mnode = mnode->next;
  | .next mnode => do
      let found ← e.mnode mnode
      some (if found.next = 0 then .node mnode else .nextAgain mnode)
  | .nextAgain mnode => do
      let found ← e.mnode mnode
      some (.nextKey mnode found.next)
  | .nextKey mnode next => do
      let found ← e.mnode next
      some (if found.key ≤ key then .advance mnode else .node mnode)
  | .advance mnode => do
      let found ← e.mnode mnode
      some (.next found.next)
  | .node mnode => do
      let found ← e.mnode mnode
      some (.returned found.node)
  | .returned node => some (.returned node)

def ReadsTo (e : Enclave) (key : Nat) : SearchPc → SearchPc → Prop :=
  Relation.ReflTransGen fun pc pc' => e.searchRead key pc = some pc'

variable {e : Enclave} {key : Nat}

theorem ReadsTo.read {pc pc' last : SearchPc} (read : e.searchRead key pc = some pc')
    (later : e.ReadsTo key pc' last) : e.ReadsTo key pc last :=
  Relation.ReflTransGen.head read later

theorem ReadsTo.last {pc last : SearchPc} (read : e.searchRead key pc = some last) :
    e.ReadsTo key pc last := ReadsTo.read read Relation.ReflTransGen.refl

theorem traverseInodes_reads (fuel : Nat) : ∀ item m, e.traverseInodes key fuel item = some m →
    e.ReadsTo key (.right item) (.next m) := by
  induction fuel with
  | zero => exact fun item m wrong => absurd wrong (Option.some_ne_none m).symm
  | succ fuel ih =>
      intro item m entered
      rw [traverseInodes] at entered
      obtain ⟨inode, found, entered⟩ := Option.bind_eq_some_iff.mp entered
      have atIntermed : e.searchRead key (.intermed item) = some (.next inode.intermed) := by
        simp [searchRead, found]
      have descends : (if inode.down = 0 then some inode.intermed
          else e.traverseInodes key fuel inode.down) = some m →
            e.ReadsTo key (.down item) (.next m) := by
        intro descend
        have atDown : e.searchRead key (.down item) =
            some (if inode.down = 0 then .intermed item else .right inode.down) := by
          simp [searchRead, found]
        by_cases bottom : inode.down = 0
        · rw [if_pos bottom] at descend atDown
          rw [← Option.some.inj descend]
          exact ReadsTo.read atDown (ReadsTo.last atIntermed)
        · rw [if_neg bottom] at descend atDown
          exact ReadsTo.read atDown (ih inode.down m descend)
      have atRight : e.searchRead key (.right item) =
          some (if inode.right = 0 then .down item else .rightKey item inode.right) := by
        simp [searchRead, found]
      by_cases last : inode.right = 0
      · rw [if_pos last] at entered atRight
        exact ReadsTo.read atRight (descends entered)
      · rw [if_neg last] at entered atRight
        obtain ⟨right, rightFound, entered⟩ := Option.bind_eq_some_iff.mp entered
        have atKey : e.searchRead key (.rightKey item inode.right) =
            some (if key < right.key then .down item else .rightKeyAgain item inode.right) := by
          simp [searchRead, rightFound]
        by_cases past : key < right.key
        · rw [if_pos past] at entered atKey
          exact ReadsTo.read atRight (ReadsTo.read atKey (descends entered))
        · rw [if_neg past] at entered atKey
          have atKeyAgain : e.searchRead key (.rightKeyAgain item inode.right) =
              some (if right.key = key then .intermed item else .right inode.right) := by
            simp [searchRead, rightFound]
          refine ReadsTo.read atRight (ReadsTo.read atKey ?_)
          by_cases same : right.key = key
          · rw [if_pos same] at entered atKeyAgain
            rw [← Option.some.inj entered]
            exact ReadsTo.read atKeyAgain (ReadsTo.last atIntermed)
          · rw [if_neg same] at entered atKeyAgain
            exact ReadsTo.read atKeyAgain (ih inode.right m entered)

theorem traverseMnodes_reads (fuel : Nat) : ∀ item m, e.traverseMnodes key fuel item = some m →
    e.ReadsTo key (.next item) (.node m) := by
  induction fuel with
  | zero => exact fun item m wrong => absurd wrong (Option.some_ne_none m).symm
  | succ fuel ih =>
      intro item m ended
      rw [traverseMnodes] at ended
      obtain ⟨mnode, found, ended⟩ := Option.bind_eq_some_iff.mp ended
      have atNext : e.searchRead key (.next item) =
          some (if mnode.next = 0 then .node item else .nextAgain item) := by
        simp [searchRead, found]
      by_cases last : mnode.next = 0
      · rw [if_pos last] at ended atNext
        rw [← Option.some.inj ended]
        exact ReadsTo.last atNext
      · rw [if_neg last] at ended atNext
        obtain ⟨next, nextFound, ended⟩ := Option.bind_eq_some_iff.mp ended
        have atNextAgain : e.searchRead key (.nextAgain item) = some (.nextKey item mnode.next) := by
          simp [searchRead, found]
        have atKey : e.searchRead key (.nextKey item mnode.next) =
            some (if next.key ≤ key then .advance item else .node item) := by
          simp [searchRead, nextFound]
        have atAdvance : e.searchRead key (.advance item) = some (.next mnode.next) := by
          simp [searchRead, found]
        refine ReadsTo.read atNext (ReadsTo.read atNextAgain ?_)
        by_cases past : key < next.key
        · rw [if_pos past] at ended
          rw [if_neg (Nat.not_le_of_lt past)] at atKey
          rw [← Option.some.inj ended]
          exact ReadsTo.last atKey
        · rw [if_neg past] at ended
          rw [if_pos (Nat.le_of_not_lt past)] at atKey
          exact ReadsTo.read atKey (ReadsTo.read atAdvance (ih mnode.next m ended))

theorem slTraverseIndex_reads {node : Nat} (returns : e.slTraverseIndex key = some node) :
    e.ReadsTo key (.right e.sentinel) (.returned node) := by
  obtain ⟨m, searched, returns⟩ := Option.bind_eq_some_iff.mp returns
  obtain ⟨mnode, found, returns⟩ := Option.bind_eq_some_iff.mp returns
  obtain ⟨entry, entered, ended⟩ := Option.bind_eq_some_iff.mp searched
  have atNode : e.searchRead key (.node m) = some (.returned mnode.node) := by
    simp [searchRead, found]
  rw [← Option.some.inj returns]
  exact ((traverseInodes_reads _ _ _ entered).trans (traverseMnodes_reads _ _ _ ended)).tail atNode

end Enclave

end Hosk
