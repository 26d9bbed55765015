import Mathlib.Data.List.Sort
import Mathlib.Tactic.Common
import Hosk.EnclaveCore

/-!
The intermediate and index layers without their addresses: the entries after the sentinel in key
order, and for each row, bottom first, the keys it links. Each helper operation is a function of
these lists.
-/

namespace Hosk

structure Entry where
  key : Nat
  node : Nat
  level : Nat
  marked : Bool
  deriving DecidableEq, Repr

/-- `unlinks` counts the inodes that `bg_raise_ilevel` has taken out of their row. -/
structure Index where
  entries : List Entry
  rows : List (List Nat)
  nonDel : Int
  tallDel : Int
  unlinks : Nat
  deriving DecidableEq, Repr

def entryOf (entries : List Entry) (key : Nat) : Option Entry :=
  entries.find? fun entry => entry.key = key

def levelOf (entries : List Entry) (key : Nat) : Nat := (entryOf entries key).elim 0 Entry.level

def markedOf (entries : List Entry) (key : Nat) : Bool :=
  (entryOf entries key).elim false Entry.marked

/-- A job applied at its place in key order. -/
def applyJob (job : Job) : List Entry → List Entry
  | [] => if job.node ≠ 0 then [⟨job.key, job.node, 0, false⟩] else []
  | entry :: rest =>
      if entry.key < job.key then entry :: applyJob job rest
      else if entry.key = job.key then { entry with marked := decide (job.node = 0) } :: rest
      else if job.node ≠ 0 then ⟨job.key, job.node, 0, false⟩ :: entry :: rest
      else entry :: rest

def Entry.stays (entry : Entry) : Bool := !(entry.level == 0 && entry.marked)

def setLevels (keys : List Nat) (level : Nat) (entries : List Entry) : List Entry :=
  entries.map fun entry => if entry.key ∈ keys then { entry with level := level } else entry

def insertKeys (row keys : List Nat) : List Nat :=
  keys.foldl (fun row key => row.orderedInsert (· ≤ ·) key) row

/-- The keys raised from the intermediate layer, `prev` being the level before. -/
def raisedM : Nat → List Entry → List Nat
  | prev, node :: next :: rest =>
      if prev = 0 ∧ node.level = 0 ∧ next.level = 0 then node.key :: raisedM 1 (next :: rest)
      else raisedM node.level (next :: rest)
  | _, _ => []

/-- A row without its marked keys; the last one goes only together with the one before it. -/
def dropMarked (marked : Nat → Bool) : Bool → List Nat → List Nat
  | _, index :: inext :: rest =>
      if marked index then dropMarked marked true (inext :: rest)
      else index :: dropMarked marked false (inext :: rest)
  | skipping, [last] => if skipping && marked last then [] else [last]
  | _, [] => []

def raisedI (level : Nat → Nat) (marked : Nat → Bool) (height : Nat) : Nat → List Nat → List Nat
  | prev, index :: inext :: rest =>
      if marked index then raisedI level marked height prev (inext :: rest)
      else if prev ≤ height ∧ level index ≤ height ∧ level inext ≤ height then
        index :: raisedI level marked height (height + 1) (inext :: rest)
      else raisedI level marked height (level index) (inext :: rest)
  | _, _ => []

namespace Index

def keepsIndex (index : Index) (entries : List Entry) : Index := { index with entries := entries }

def count (int : Int → Int) (index : Index) (entry : Entry) : Index :=
  if entry.marked = false then { index with nonDel := int (index.nonDel + 1) }
  else if 1 ≤ entry.level then { index with tallDel := int (index.tallDel + 1) }
  else index

def trav (int : Int → Int) (index : Index) : Index :=
  let kept := index.entries.filter Entry.stays
  { kept.foldl (count int) index with entries := kept }

def raise (index : Index) (height : Nat) (keys : List Nat) : Index :=
  { index with
    entries := setLevels keys (height + 1) index.entries
    rows := index.rows.modify height fun row => insertKeys row keys }

def grow (index : Index) : Index := { index with rows := index.rows ++ [[]] }

def unlinkMarked (index : Index) (i : Nat) : Index :=
  let row := index.rows.getD i []
  let kept := dropMarked (markedOf index.entries) false row
  { index with
    rows := index.rows.set i kept
    unlinks := index.unlinks + (row.length - kept.length) }

def raiseIlevel (index : Index) (i : Nat) : Index × List Nat :=
  let keys := raisedI (levelOf index.entries) (markedOf index.entries) (i + 1) index.rows.length
    (index.rows.getD i [])
  ((index.unlinkMarked i).raise (i + 1) keys, keys)

def raiseRows : Nat → Nat → Index → Bool → Index × Bool
  | 0, _, index, raised => (index, raised)
  | count + 1, i, index, _ =>
      let (next, keys) := index.raiseIlevel i
      raiseRows count (i + 1) next (!keys.isEmpty)

def raiseIndexLayer (int : Int → Int) (index : Index) : Index :=
  let index := index.trav int
  let keys := raisedM index.rows.length index.entries
  let index := index.raise 0 keys
  let index := if !keys.isEmpty ∧ index.rows.length = 1 then index.grow else index
  let (index, raised) := raiseRows (index.rows.length - 1) 0 index (!keys.isEmpty)
  if raised then index.grow else index

def lower (index : Index) : Index :=
  { index with
    entries := index.entries.map fun entry =>
      if entry.key ∈ index.rows.getD 1 [] then { entry with level := entry.level - 1 } else entry
    rows := index.rows.tail }

def lowers (int : Int → Int) (index : Index) : Bool :=
  int (index.nonDel * 10) < index.tallDel && 2 ≤ index.rows.length

def updateIndexLayer (int : Int → Int) (index : Index) : Index :=
  let raised := index.raiseIndexLayer int
  if raised.lowers int then raised.lower else raised

def updateIntermediateLayer (index : Index) (job : Job) : Index :=
  { index with entries := applyJob job index.entries }

def reset (index : Index) : Index :=
  { index with
    entries := index.entries.map fun entry => { entry with level := 0 }
    rows := [[]] }

end Index

end Hosk
