import Mathlib.Algebra.Group.Nat.Defs
import Hosk.IndexRuns

/-!
The blocks of an enclave as `nalloc` and `nfree` place and release them, all of one size, numbered in
the order of their addresses.
-/

namespace Hosk

/-- `buf_cur` and `buf_old`: where the next block is placed, and the last one handed out. -/
def bump : List Event → Nat × Nat
  | [] => (1, 0)
  | .inodeNew address _ :: _ => (address + 1, address)
  | .mnodeNew address :: _ => (address + 1, address)
  | .inodeDelete _ (some block) :: _ => (block, block)
  | .mnodeDelete _ (some block) :: _ => (block, block)
  | .inodeDelete _ none :: older => bump older
  | .mnodeDelete _ none :: older => bump older
  | .unlink _ :: older => bump older
  | .lower :: older => bump older

/-- What `memcmp` sees of a block. An inode and an mnode differ: where one has its down pointer the
other has the pointer to a data node. -/
def Enclave.contents (e : Enclave) (address : Nat) : Option (Inode ⊕ Mnode) :=
  match e.inode address with
  | some inode => some (.inl inode)
  | none => (e.mnode address).map .inr

-- if(!memcmp(ptr, buf_old, aligned_size)){ buf_cur = buf_old; memset(buf_cur, 0, aligned_size); }
def numa : Platform where
  place e := (bump e.trace).1
  zeroes e address :=
    let old := (bump e.trace).2
    if e.contents address = e.contents old then some old else none
  int value := value.bmod (2 ^ 32)

def pastLive (trace : List Event) : Nat := (live trace).foldr max 0 + 1

/-- The platform with an `nfree` that takes only a block itself for it, and no live block reused. -/
def Platform.guarded (platform : Platform) : Platform where
  place e :=
    let address := platform.place e
    if address = 0 ∨ address ∈ live e.trace then pastLive e.trace else address
  zeroes e address := if platform.zeroes e address = some address then some address else none
  int := platform.int

theorem le_foldr_max {addresses : List Nat} {address : Nat} (member : address ∈ addresses) :
    address ≤ addresses.foldr max 0 := by
  induction addresses with
  | nil => exact absurd member List.not_mem_nil
  | cons head rest ih =>
      rcases List.mem_cons.mp member with rfl | inRest
      · exact Nat.le_max_left _ _
      · exact Nat.le_trans (ih inRest) (Nat.le_max_right _ _)

theorem pastLive_not_live (trace : List Event) : pastLive trace ∉ live trace := by
  intro member
  have bound := le_foldr_max member
  rw [pastLive] at bound
  omega

theorem Platform.guarded_honest (platform : Platform) : platform.guarded.Honest where
  places e := by
    dsimp only [Platform.guarded]
    split
    · exact ⟨Nat.succ_ne_zero _, pastLive_not_live e.trace⟩
    · rename_i free
      exact not_or.mp free
  spares e address block zeroes := by
    dsimp only [Platform.guarded] at zeroes
    split at zeroes
    · exact (Option.some.inj zeroes).symm
    · exact absurd zeroes (Option.some_ne_none block).symm

/-- On a platform that is honest the guards change nothing. -/
theorem Platform.Honest.guarded_eq {platform : Platform} (honest : platform.Honest) :
    platform.guarded = platform := by
  have places : platform.guarded.place = platform.place := by
    funext e
    exact if_neg (not_or.mpr (honest.places e))
  have zeroes : platform.guarded.zeroes = platform.zeroes := by
    funext e address
    dsimp only [Platform.guarded]
    cases found : platform.zeroes e address with
    | none => rfl
    | some block => rw [honest.spares e address block found, if_pos rfl]
  calc platform.guarded
      = ⟨platform.guarded.place, platform.guarded.zeroes, platform.int⟩ := rfl
    _ = platform := by rw [places, zeroes]

/-- The data node of a key lies at 1000 plus the key, the sentinel's at 1000; they are linked in the
order given. -/
def dataNodes (keys : List Nat) : Nodes :=
  ((0 :: keys).zip (keys.map (1000 + ·) ++ [0])).map fun (key, next) =>
    (1000 + key, ⟨if key = 0 then 0 else 1000, next, key, key, 0⟩)

theorem get_map_null {cells : List (Nat × Nat)} (make : Nat × Nat → Node) :
    Store.get (cells.map fun cell => (1000 + cell.1, make cell)) 0 = none := by
  induction cells with
  | nil => rfl
  | cons cell rest ih =>
      rw [List.map_cons, Store.get, if_neg (by omega)]
      exact ih

def numaData (keys : List Nat) : DataNodes where
  nodes := dataNodes keys
  null := get_map_null _
  sentinel := 1000
  isSentinel := by cases keys <;> rfl

def DataNodes.guarded (data : DataNodes) : Setting where
  toDataNodes := data
  platform := numa.guarded
  honest := numa.guarded_honest

def numaSetting (keys : List Nat) : Setting := (numaData keys).guarded

def insertJob (key : Nat) : Call := .job ⟨key, 1000 + key⟩

def deleteJob (key : Nat) : Call := .job ⟨key, 0⟩

end Hosk
