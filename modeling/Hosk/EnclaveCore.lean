import Hosk.DataLayerCore

/-!
One enclave: its index layer of inodes, its intermediate layer of mnodes, and what its helper does
to them in `update_intermediate_layer`, `update_index_layer` and `reset_index`. NULL is 0. A
result of `none` stands for an access through NULL or through an address that holds no such node,
for a failed assertion, for a level decremented below 0, or for a loop that does not end.
-/

namespace Hosk

structure Inode where
  right : Nat
  down : Nat
  intermed : Nat
  key : Nat
  deriving DecidableEq, Repr

structure Mnode where
  next : Nat
  node : Nat
  key : Nat
  level : Nat
  marked : Bool
  deriving DecidableEq, Repr

structure Job where
  key : Nat
  node : Nat
  deriving DecidableEq, Repr

/-- What the helper has done, for the statements about its runs and for the allocator. A delete comes
with the block that it zeroed, if any. -/
inductive Event where
  | inodeNew (address : Nat) (marked : Bool)
  | mnodeNew (address : Nat)
  | inodeDelete (address : Nat) (zeroed : Option Nat)
  | mnodeDelete (address : Nat) (zeroed : Option Nat)
  | unlink (address : Nat)
  | lower
  deriving DecidableEq, Repr

/-- The trace has the newest event first. -/
structure Enclave where
  inodes : Store Inode
  mnodes : Store Mnode
  nodes : Nodes
  sentinel : Nat
  nonDel : Int
  tallDel : Int
  trace : List Event
  deriving DecidableEq, Repr

/-- What lies outside the helper: where the next block is placed, which block is zeroed when it
deletes one, and what `int` makes of the result of an operation. -/
structure Platform where
  place : Enclave → Nat
  zeroes : Enclave → Nat → Option Nat
  int : Int → Int

def live : List Event → List Nat
  | [] => []
  | .inodeNew address _ :: older => address :: live older
  | .mnodeNew address :: older => address :: live older
  | .inodeDelete address _ :: older => (live older).filter (· ≠ address)
  | .mnodeDelete address _ :: older => (live older).filter (· ≠ address)
  | .unlink _ :: older => live older
  | .lower :: older => live older

def dead : List Event → List Nat
  | [] => []
  | .inodeNew address _ :: older => (dead older).filter (· ≠ address)
  | .mnodeNew address :: older => (dead older).filter (· ≠ address)
  | .inodeDelete address _ :: older => address :: dead older
  | .mnodeDelete address _ :: older => address :: dead older
  | .unlink _ :: older => dead older
  | .lower :: older => dead older

namespace Enclave

def inode (e : Enclave) (address : Nat) : Option Inode := Store.get e.inodes address

def mnode (e : Enclave) (address : Nat) : Option Mnode := Store.get e.mnodes address

def setInode (e : Enclave) (address : Nat) (inode : Inode) : Enclave :=
  { e with inodes := Store.set e.inodes address inode }

def setMnode (e : Enclave) (address : Nat) (mnode : Mnode) : Enclave :=
  { e with mnodes := Store.set e.mnodes address mnode }

def record (e : Enclave) (event : Event) : Enclave := { e with trace := event :: e.trace }

def setRight (e : Enclave) (address right : Nat) : Option Enclave := do
  let inode ← e.inode address
  some (e.setInode address { inode with right := right })

def setDown (e : Enclave) (address down : Nat) : Option Enclave := do
  let inode ← e.inode address
  some (e.setInode address { inode with down := down })

def setNext (e : Enclave) (address next : Nat) : Option Enclave := do
  let mnode ← e.mnode address
  some (e.setMnode address { mnode with next := next })

def setLevel (e : Enclave) (address level : Nat) : Option Enclave := do
  let mnode ← e.mnode address
  some (e.setMnode address { mnode with level := level })

def setMarked (e : Enclave) (address : Nat) (marked : Bool) : Option Enclave := do
  let mnode ← e.mnode address
  some (e.setMnode address { mnode with marked := marked })

def setNodeLevel (e : Enclave) (address level : Nat) : Option Enclave := do
  let node ← Store.get e.nodes address
  some { e with nodes := Store.set e.nodes address { node with level := level } }

-- if(node->level < level){ node->level = level; }
def raiseNodeLevel (e : Enclave) (address level : Nat) : Option Enclave := do
  let node ← Store.get e.nodes address
  if node.level < level then e.setNodeLevel address level else some e

def inodeNew (platform : Platform) (e : Enclave) (right down intermed : Nat) :
    Option (Nat × Enclave) := do
  let address := platform.place e
  let mnode ← e.mnode intermed
  some (address, { e with
    inodes := Store.set e.inodes address ⟨right, down, intermed, mnode.key⟩
    mnodes := Store.erase e.mnodes address
    trace := .inodeNew address mnode.marked :: e.trace })

def mnodeNew (platform : Platform) (e : Enclave) (next node level : Nat) :
    Option (Nat × Enclave) := do
  let address := platform.place e
  let found ← Store.get e.nodes node
  some (address, { e with
    inodes := Store.erase e.inodes address
    mnodes := Store.set e.mnodes address ⟨next, node, found.key, level, false⟩
    trace := .mnodeNew address :: e.trace })

-- memset(buf_cur, 0, aligned_size): nfree takes an inode only for an inode, an mnode only for an mnode
def inodeDelete (platform : Platform) (e : Enclave) (address : Nat) : Enclave :=
  let zeroed := platform.zeroes e address
  (zeroed.elim e fun block => e.setInode block ⟨0, 0, 0, 0⟩).record (.inodeDelete address zeroed)

def mnodeDelete (platform : Platform) (e : Enclave) (address : Nat) : Enclave :=
  let zeroed := platform.zeroes e address
  (zeroed.elim e fun block => e.setMnode block ⟨0, 0, 0, 0, false⟩).record
    (.mnodeDelete address zeroed)

/-- The index part of a search, the same in `sl_traverse_index` and in
`update_intermediate_layer`: the mnode where it leaves the index. -/
def traverseInodes (e : Enclave) (key : Nat) : Nat → Nat → Option Nat
  | 0, _ => none
  | fuel + 1, item => do
      let inode ← e.inode item
      let descend := if inode.down = 0 then some inode.intermed
        else traverseInodes e key fuel inode.down
      if inode.right = 0 then descend
      else do
        let right ← e.inode inode.right
        if key < right.key then descend
        else if right.key = key then some inode.intermed
        else traverseInodes e key fuel inode.right

def traverseMnodes (e : Enclave) (key : Nat) : Nat → Nat → Option Nat
  | 0, _ => none
  | fuel + 1, item => do
      let mnode ← e.mnode item
      if mnode.next = 0 then some item
      else do
        let next ← e.mnode mnode.next
        if key < next.key then some item else traverseMnodes e key fuel mnode.next

def search (e : Enclave) (key : Nat) : Option Nat := do
  let entry ← e.traverseInodes key (e.inodes.length + 1) e.sentinel
  e.traverseMnodes key (e.mnodes.length + 1) entry

def slTraverseIndex (e : Enclave) (key : Nat) : Option Nat := do
  let found ← e.search key
  let mnode ← e.mnode found
  some mnode.node

def updateIntermediateLayer (platform : Platform) (e : Enclave) (job : Job) : Option Enclave := do
  let found ← e.search job.key
  let mnode ← e.mnode found
  if job.node ≠ 0 then
    if mnode.key = job.key then
      if mnode.marked then e.setMarked found false else some e
    else do
      let (fresh, e) ← mnodeNew platform e mnode.next job.node 0
      e.setNext found fresh
  else if mnode.key = job.key then e.setMarked found true
  else some e

def bgMremove (platform : Platform) (e : Enclave) (prev mnode : Nat) : Option (Bool × Enclave) := do
  let found ← e.mnode mnode
  if found.level = 0 ∧ found.marked then
    let e ← e.setNext prev found.next
    some (true, mnodeDelete platform e mnode)
  else some (false, e)

def countMnode (platform : Platform) (e : Enclave) (mnode : Mnode) : Enclave :=
  if mnode.marked = false then { e with nonDel := platform.int (e.nonDel + 1) }
  else if 1 ≤ mnode.level then { e with tallDel := platform.int (e.tallDel + 1) }
  else e

def travMnodesLoop (platform : Platform) : Nat → Enclave → Nat → Nat → Option Enclave
  | 0, _, _, _ => none
  | fuel + 1, e, prev, node =>
      if node = 0 then some e
      else do
        let (removed, e) ← bgMremove platform e prev node
        if removed then
          let before ← e.mnode prev
          travMnodesLoop platform fuel e prev before.next
        else
          let found ← e.mnode node
          travMnodesLoop platform fuel (countMnode platform e found) node found.next

def bgTravMnodes (platform : Platform) (e : Enclave) : Option Enclave := do
  let sentinel ← e.inode e.sentinel
  let prev ← e.mnode sentinel.intermed
  travMnodesLoop platform (e.mnodes.length + 1) e sentinel.intermed prev.next

/-- "Get the correct index above and behind": `above` runs ahead while its key is smaller,
`above_prev` follows one behind it. -/
def seekAbove (e : Enclave) (start key : Nat) : Nat → Nat → Nat → Option (Nat × Nat)
  | 0, _, _ => none
  | fuel + 1, above, abovePrev =>
      if above = 0 then some (above, abovePrev)
      else do
        let inode ← e.inode above
        let mnode ← e.mnode inode.intermed
        if mnode.key < key then
          let first ← e.inode start
          let behind ← e.inode abovePrev
          let follow := if inode.right = first.right then abovePrev else behind.right
          seekAbove e start key fuel inode.right follow
        else some (above, abovePrev)

def raiseAt (platform : Platform) (e : Enclave) (abovePrev down intermed level : Nat) :
    Option (Nat × Enclave) := do
  let behind ← e.inode abovePrev
  let (fresh, e) ← inodeNew platform e behind.right down intermed
  let e ← e.setRight abovePrev fresh
  let e ← e.setLevel intermed level
  let mnode ← e.mnode intermed
  let e ← e.raiseNodeLevel mnode.node level
  some (fresh, e)

def raiseMlevelLoop (platform : Platform) (mnode : Nat) :
    Nat → Enclave → (inode above abovePrev prev node next : Nat) → Bool → Option (Bool × Enclave)
  | 0, _, _, _, _, _, _, _, _ => none
  | fuel + 1, e, inode, above, abovePrev, prev, node, next, raised =>
      if next = 0 then some (raised, e)
      else do
        let start ← e.mnode mnode
        let before ← e.mnode prev
        let middle ← e.mnode node
        let after ← e.mnode next
        if start.marked = false ∧ before.level = 0 ∧ middle.level = 0 ∧ after.level = 0 then
          let (_, abovePrev) ←
            seekAbove e inode middle.key (e.inodes.length + 1) above abovePrev
          let (inew, e) ← raiseAt platform e abovePrev 0 node 1
          raiseMlevelLoop platform mnode fuel e inew inew inew node next after.next true
        else
          raiseMlevelLoop platform mnode fuel e inode above abovePrev node next after.next raised

def bgRaiseMlevel (platform : Platform) (e : Enclave) (mnode inode : Nat) :
    Option (Bool × Enclave) := do
  let start ← e.mnode mnode
  if start.next = 0 then some (false, e)
  else do
    let node ← e.mnode start.next
    raiseMlevelLoop platform mnode (e.mnodes.length + 1) e inode inode inode mnode start.next
      node.next false

/-- "Skip deleted nodes": the inner loop of `bg_raise_ilevel`, with its `index` and `inext`. -/
def skipMarked (iprev : Nat) : Nat → Enclave → Nat → Nat → Option (Enclave × Nat × Nat)
  | 0, _, _, _ => none
  | fuel + 1, e, index, inext => do
      let inode ← e.inode index
      let mnode ← e.mnode inode.intermed
      if mnode.marked then
        let e ← (e.record (.unlink index)).setRight iprev inext
        if inext = 0 then some (e, index, inext)
        else
          let next ← e.inode inext
          skipMarked iprev fuel e inext next.right
      else some (e, index, inext)

def levelOver (e : Enclave) (address : Nat) : Option Nat := do
  let inode ← e.inode address
  let mnode ← e.mnode inode.intermed
  some mnode.level

def raiseIlevelLoop (platform : Platform) (height : Nat) :
    Nat → Enclave → (iprev iprevTall above abovePrev index : Nat) → Bool → Option (Bool × Enclave)
  | 0, _, _, _, _, _, _, _ => none
  | fuel + 1, e, iprev, iprevTall, above, abovePrev, index, raised =>
      if index = 0 then some (raised, e)
      else do
        let first ← e.inode index
        if first.right = 0 then some (raised, e)
        else do
          let (e, index, inext) ← skipMarked iprev (e.inodes.length + 1) e index first.right
          if inext = 0 then some (raised, e)
          else do
            let before ← levelOver e iprev
            let middle ← levelOver e index
            let after ← levelOver e inext
            if before ≤ height ∧ middle ≤ height ∧ after ≤ height then
              let inode ← e.inode index
              let mnode ← e.mnode inode.intermed
              let (_, abovePrev) ←
                seekAbove e iprevTall mnode.key (e.inodes.length + 1) above abovePrev
              let (inew, e) ← raiseAt platform e abovePrev index inode.intermed (height + 1)
              raiseIlevelLoop platform height fuel e index inew inew inew inext true
            else
              raiseIlevelLoop platform height fuel e index iprevTall above abovePrev inext raised

def bgRaiseIlevel (platform : Platform) (e : Enclave) (iprev iprevTall height : Nat) :
    Option (Bool × Enclave) := do
  let first ← e.inode iprev
  raiseIlevelLoop platform height (e.inodes.length + 1) e iprev iprevTall iprevTall iprevTall
    first.right false

/-- "Remove the lowest index level". -/
def detachLoop : Nat → Enclave → Nat → Option Enclave
  | 0, _, _ => none
  | fuel + 1, e, newLow =>
      if newLow = 0 then some e
      else do
        let e ← e.setDown newLow 0
        let inode ← e.inode newLow
        let mnode ← e.mnode inode.intermed
        if mnode.level = 0 then none
        else do
          let e ← e.setLevel inode.intermed (mnode.level - 1)
          let node ← Store.get e.nodes mnode.node
          let e ← if 0 < node.level then e.setNodeLevel mnode.node (node.level - 1) else some e
          detachLoop fuel e inode.right

/-- "Garbage collect the old low level". -/
def collectLoop (platform : Platform) : Nat → Enclave → Nat → Option Enclave
  | 0, _, _ => none
  | fuel + 1, e, oldLow =>
      if oldLow = 0 then some e
      else do
        let inode ← e.inode oldLow
        collectLoop platform fuel (inodeDelete platform e oldLow) inode.right

def bgLowerIlevel (platform : Platform) (e : Enclave) (newLow : Nat) : Option Enclave := do
  let inode ← e.inode newLow
  let e ← detachLoop (e.inodes.length + 1) (e.record .lower) newLow
  collectLoop platform (e.inodes.length + 1) e inode.down

/-- The first inode of each row, bottom first, found from the sentinel downwards; the assertions
that there are exactly `level` of them are part of it. -/
def firstInodes (e : Enclave) : Nat → Nat → List Nat → Option (List Nat)
  | 0, item, found => if item = 0 then some found else none
  | level + 1, item, found => do
      let inode ← e.inode item
      firstInodes e level inode.down (item :: found)

def growSentinel (platform : Platform) (e : Enclave) : Option Enclave := do
  let old ← e.inode e.sentinel
  let (fresh, e) ← inodeNew platform e 0 e.sentinel old.intermed
  let e := { e with sentinel := fresh }
  let mnode ← e.mnode old.intermed
  let e ← e.setLevel old.intermed (mnode.level + 1)
  e.raiseNodeLevel mnode.node (mnode.level + 1)

def sentinelLevel (e : Enclave) : Option Nat := levelOver e e.sentinel

def raiseRows (platform : Platform) (inodes : List Nat) :
    Nat → Enclave → Nat → Bool → Option (Bool × Enclave)
  | 0, _, _, _ => none
  | fuel + 1, e, i, raised => do
      let level ← e.sentinelLevel
      if i + 1 < level then
        let low ← inodes[i]?
        let high ← inodes[i + 1]?
        let (raised, e) ← bgRaiseIlevel platform e low high (i + 1)
        raiseRows platform inodes fuel e (i + 1) raised
      else some (raised, e)

/-- `update_index_layer` up to the test for lowering, with the first inodes it works on. -/
def raiseIndexLayer (platform : Platform) (e : Enclave) : Option (List Nat × Enclave) := do
  let e ← bgTravMnodes platform e
  let level ← e.sentinelLevel
  let inodes ← firstInodes e level e.sentinel []
  let lowest ← inodes.head?
  let bottom ← e.inode lowest
  let (raised, e) ← bgRaiseMlevel platform e bottom.intermed lowest
  let level ← e.sentinelLevel
  let (inodes, e) ←
    if raised ∧ level = 1 then do
      let e ← growSentinel platform e
      some (inodes ++ [e.sentinel], e)
    else some (inodes, e)
  let (raised, e) ← raiseRows platform inodes (e.inodes.length + 1) e 0 raised
  let e ← if raised then growSentinel platform e else some e
  some (inodes, e)

def lowers (platform : Platform) (inodes : List Nat) (e : Enclave) : Option Nat :=
  if platform.int (e.nonDel * 10) < e.tallDel then inodes[1]? else none

def updateIndexLayer (platform : Platform) (e : Enclave) : Option Enclave := do
  let (inodes, e) ← raiseIndexLayer platform e
  match lowers platform inodes e with
  | some newLow => bgLowerIlevel platform e newLow
  | none => some e

def clearLevelsLoop : Nat → Enclave → Nat → Option Enclave
  | 0, _, _ => none
  | fuel + 1, e, next =>
      if next = 0 then some e
      else do
        let mnode ← e.mnode next
        let e ← e.setNodeLevel mnode.node 0
        let e ← e.setLevel next 0
        clearLevelsLoop fuel e mnode.next

def resetIndex (platform : Platform) (e : Enclave) : Option Enclave := do
  let sentinel ← e.inode e.sentinel
  let node ← e.mnode sentinel.intermed
  let e ← e.setNodeLevel node.node 1
  let e ← e.setLevel sentinel.intermed 1
  let e ← clearLevelsLoop (e.mnodes.length + 1) e node.next
  let (fresh, e) ← inodeNew platform e 0 0 sentinel.intermed
  some { e with sentinel := fresh }

end Enclave

end Hosk
