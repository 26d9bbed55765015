import Mathlib.Algebra.Group.Nat.Defs
import Hosk.Runs

/-!
The linear NUMA allocator of one thread, over a flat memory of bytes. `numa_alloc_local` is a
parameter: the address of the n-th region it hands out. Sizes are 32-bit, as in the source.
-/

namespace Hosk

structure NumaAllocator where
  bufStart : Nat
  bufSize : Nat
  bufCur : Nat
  bufOld : Nat
  lastAllocHalf : Bool
  otherBuffers : List Nat
  deriving DecidableEq, Repr

def cacheSize : Nat := 64

def alignmentOf (ssize : Nat) : Nat :=
  if ssize ≤ cacheSize / 2 then cacheSize / 2 else cacheSize

def align (old alignment : Nat) : Nat :=
  (old + (alignment - old % alignment) % alignment) % 2 ^ 32

def alignedSize (ssize : Nat) : Nat :=
  align ssize (alignmentOf ssize)

abbrev Memory := Nat → UInt8

/-- `memcmp` over `count` bytes finds no difference. -/
def sameBytes (memory : Memory) (first second count : Nat) : Bool :=
  (List.range count).all fun offset => memory (first + offset) == memory (second + offset)

def zeroBytes (memory : Memory) (start count : Nat) : Memory := fun address =>
  if start ≤ address ∧ address < start + count then 0 else memory address

structure Block where
  start : Nat
  size : Nat
  deriving DecidableEq, Repr

namespace Block

def stop (block : Block) : Nat :=
  block.start + alignedSize block.size

def Covers (block : Block) (address : Nat) : Prop :=
  block.start ≤ address ∧ address < block.stop

def Disjoint (first second : Block) : Prop :=
  ∀ address, first.Covers address → ¬ second.Covers address

end Block

/-- The allocator, the memory it manages, and the blocks its clients hold. -/
structure Arena where
  allocator : NumaAllocator
  memory : Memory
  live : List Block

inductive Request where
  | nalloc (ssize : Nat)
  | write (index offset : Nat) (byte : UInt8)
  | nfree (index : Nat)
  deriving DecidableEq, Repr

namespace Arena

variable (numaAllocLocal : Nat → Nat)

def new (ssize : Nat) : Arena where
  allocator := ⟨numaAllocLocal 0, ssize, numaAllocLocal 0, 0, false, []⟩
  memory := fun _ => 0
  live := []

/-- The old buffer is kept aside and a zeroed one of the same size takes its place. -/
def nrealloc (arena : Arena) : Arena :=
  let old := arena.allocator
  let buffer := numaAllocLocal (old.otherBuffers.length + 1)
  { arena with
    allocator := { old with
      bufStart := buffer
      bufCur := buffer
      otherBuffers := old.otherBuffers ++ [old.bufStart] }
    memory := zeroBytes arena.memory buffer old.bufSize }

def settle (allocator : NumaAllocator) (alignment : Nat) : NumaAllocator :=
  if allocator.lastAllocHalf ∧ alignment = cacheSize then
    { allocator with bufCur := allocator.bufCur + cacheSize / 2, lastAllocHalf := false }
  else if ¬ allocator.lastAllocHalf ∧ alignment = cacheSize / 2 then
    { allocator with lastAllocHalf := true }
  else allocator

def nalloc (arena : Arena) (ssize : Nat) : Arena :=
  let settled := { arena with allocator := settle arena.allocator (alignmentOf ssize) }
  let aligned := alignedSize ssize
  let roomy :=
    if settled.allocator.bufCur + aligned > settled.allocator.bufStart + settled.allocator.bufSize
    then nrealloc numaAllocLocal settled else settled
  let start := roomy.allocator.bufCur
  { roomy with
    allocator := { roomy.allocator with bufOld := start, bufCur := start + aligned }
    live := roomy.live ++ [⟨start, ssize⟩] }

-- the test compares the bytes of the two blocks, not their addresses
def nfree (arena : Arena) (block : Block) : Arena :=
  let allocator := arena.allocator
  let alignment := alignmentOf block.size
  let aligned := alignedSize block.size
  if sameBytes arena.memory block.start allocator.bufOld aligned then
    { arena with
      allocator := { allocator with
        bufCur := allocator.bufOld
        lastAllocHalf :=
          if allocator.lastAllocHalf ∧ alignment = cacheSize / 2 then false
          else allocator.lastAllocHalf }
      memory := zeroBytes arena.memory allocator.bufOld aligned }
  else arena

def Fits (arena : Arena) (ssize : Nat) : Prop :=
  ssize ≤ alignedSize ssize ∧ alignedSize ssize ≤ arena.allocator.bufSize

instance (arena : Arena) (ssize : Nat) : Decidable (arena.Fits ssize) :=
  inferInstanceAs (Decidable (_ ∧ _))

-- a size that does not fit any buffer, or a block that is not held, leaves all unchanged
def serve (arena : Arena) : Request → Arena
  | .nalloc ssize => if arena.Fits ssize then arena.nalloc numaAllocLocal ssize else arena
  | .write index offset byte =>
      match arena.live[index]? with
      | some block =>
          if offset < block.size then
            { arena with memory := fun address =>
                if address = block.start + offset then byte else arena.memory address }
          else arena
      | none => arena
  | .nfree index =>
      match arena.live[index]? with
      | some block => { arena.nfree block with live := arena.live.eraseIdx index }
      | none => arena

def serveAll (ssize : Nat) (requests : List Request) : Arena :=
  Runs.run (serve numaAllocLocal) (new numaAllocLocal ssize) requests

end Arena

end Hosk
