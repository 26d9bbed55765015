import Hosk.AllocatorIsolation
import Hosk.ApplicationLoop

/-!
The size that `main` gives the allocators, and what it means for node requests: `nalloc` takes a new
buffer when the old one is full, but does not look again whether the new one is large enough.
-/

namespace Hosk

def wrapInt (value : Int) : Int := value.bmod (2 ^ 32)

/-- `(2 * initial * (1.0 + (update/100.0))) / nb_threads`, cut off behind the point. -/
def expectedNodes (initial update nbThreads : Nat) : Int :=
  (wrapInt (2 * initial) * (100 + update)).tdiv (100 * nbThreads)

def numExpectedNodes (initial update nbThreads : Nat) : Nat :=
  asUint (expectedNodes initial update nbThreads)

def bufferSize (initial update nbThreads : Nat) : Nat :=
  cacheSize * numExpectedNodes initial update nbThreads % 2 ^ 32

-- INODE_SZ and MNODE_SZ
def nodeSize : Nat := 32

namespace Arena

variable (numaAllocLocal : Nat → Nat)

def nodeTurn (arena : Arena) : Request → Arena
  | .nalloc _ => arena.nalloc numaAllocLocal nodeSize
  | .write index offset byte => arena.serve numaAllocLocal (.write index offset byte)
  | .nfree index => arena.serve numaAllocLocal (.nfree index)

/-- A block that `nalloc` returns lies inside the buffer that is then the current one. -/
def NodeInside (arena : Arena) (request : Request) : Prop :=
  ∀ ssize, request = .nalloc ssize →
    let after := arena.nalloc numaAllocLocal nodeSize
    after.allocator.bufStart ≤ after.allocator.bufOld ∧
      after.allocator.bufOld + nodeSize ≤ after.bufEnd

variable {numaAllocLocal : Nat → Nat} {arena : Arena}

theorem aligned_nodeSize : alignedSize nodeSize = nodeSize := rfl

structure RoomOk (ssize : Nat) (arena : Arena) : Prop where
  size : arena.allocator.bufSize = ssize
  low : arena.allocator.bufStart ≤ arena.allocator.bufCur
  old : arena.live ≠ [] → arena.allocator.bufStart ≤ arena.allocator.bufOld

theorem RoomOk.inside {ssize : Nat} (ok : arena.RoomOk ssize) (enough : nodeSize ≤ ssize) :
    let after := arena.nalloc numaAllocLocal nodeSize
    after.allocator.bufStart ≤ after.allocator.bufOld ∧
      after.allocator.bufOld + nodeSize ≤ after.bufEnd := by
  have served : Served numaAllocLocal arena (arena.nalloc numaAllocLocal nodeSize) nodeSize :=
    nalloc_served arena nodeSize
  have low := ok.low
  have cur := served.cur
  have size := served.size.trans ok.size
  rw [aligned_nodeSize] at cur
  simp only [bufEnd]
  rcases served.place with ⟨same, _, above, within⟩ | ⟨_, _, atStart⟩
  · rw [bufEnd, ok.size] at within
    omega
  · omega

theorem RoomOk.nodeTurn {ssize : Nat} (ok : arena.RoomOk ssize) (enough : nodeSize ≤ ssize)
    (request : Request) : (arena.nodeTurn numaAllocLocal request).RoomOk ssize := by
  cases request with
  | nalloc =>
      have served : Served numaAllocLocal arena (arena.nalloc numaAllocLocal nodeSize) nodeSize :=
        nalloc_served arena nodeSize
      obtain ⟨lower, upper⟩ := @RoomOk.inside numaAllocLocal arena ssize ok enough
      refine ⟨served.size.trans ok.size, ?_, fun _ => lower⟩
      have cur := served.cur
      simp only [Arena.nodeTurn]
      omega
  | write index offset byte =>
      unfold Arena.nodeTurn serve
      simp only
      split
      · split
        · exact ⟨ok.size, ok.low, ok.old⟩
        · exact ok
      · exact ok
  | nfree index =>
      unfold Arena.nodeTurn serve
      simp only
      split
      · rename_i block held
        have old := ok.old (List.ne_nil_of_mem (List.mem_of_getElem? held))
        unfold nfree
        simp only
        split
        · exact ⟨ok.size, old, fun _ => old⟩
        · exact ⟨ok.size, ok.low, fun _ => old⟩
      · exact ok

theorem bufferSize_empty {initial update nbThreads : Nat}
    (multiple : (2 ^ 26 : Int) ∣ expectedNodes initial update nbThreads) :
    bufferSize initial update nbThreads = 0 := by
  unfold bufferSize numExpectedNodes asUint cacheSize
  omega

theorem bufferSize_enough {initial update nbThreads : Nat}
    (notMultiple : ¬ (2 ^ 26 : Int) ∣ expectedNodes initial update nbThreads) :
    nodeSize ≤ bufferSize initial update nbThreads := by
  unfold bufferSize numExpectedNodes asUint cacheSize nodeSize
  omega

/-- Whatever is requested, every node lies inside its buffer exactly if the number of nodes that the
parameters come to is no multiple of `2 ^ 26`; otherwise the buffers are empty. -/
theorem nodes_inside_iff_buffer (numaAllocLocal : Nat → Nat) (initial update nbThreads : Nat) :
    (∀ requests, Runs.Along (nodeTurn numaAllocLocal) (NodeInside numaAllocLocal)
        (new numaAllocLocal (bufferSize initial update nbThreads)) requests) ↔
      ¬ (2 ^ 26 : Int) ∣ (wrapInt (2 * initial) * (100 + update)).tdiv (100 * nbThreads) := by
  rw [← expectedNodes]
  constructor
  · intro all multiple
    obtain ⟨inside, _⟩ := all [.nalloc 0]
    obtain ⟨_, upper⟩ := inside 0 rfl
    rw [bufferSize_empty multiple] at upper
    have started : (new numaAllocLocal 0).allocator.bufSize = 0 := rfl
    have served : Served numaAllocLocal (new numaAllocLocal 0)
        ((new numaAllocLocal 0).nalloc numaAllocLocal nodeSize) nodeSize := nalloc_served _ _
    have size := served.size.trans started
    have cur := served.cur
    rw [aligned_nodeSize] at cur
    rw [bufEnd, size] at upper
    unfold nodeSize at *
    rcases served.place with ⟨_, _, above, within⟩ | ⟨_, _, atStart⟩
    · have first : (new numaAllocLocal 0).bufEnd = (new numaAllocLocal 0).allocator.bufCur := rfl
      omega
    · omega
  · intro notMultiple requests
    have enough := bufferSize_enough notMultiple
    have started : (new numaAllocLocal (bufferSize initial update nbThreads)).RoomOk
        (bufferSize initial update nbThreads) :=
      ⟨rfl, Nat.le_refl _, fun held => absurd rfl held⟩
    refine (Runs.along_iff (RoomOk (bufferSize initial update nbThreads)) ?_ ?_ requests started).mpr
      (Runs.Along.of_all (fun _ _ => trivial) requests)
    · exact fun arena request ok => ⟨fun _ => trivial, fun _ _ _ => ok.inside enough⟩
    · exact fun arena request ok _ => ok.nodeTurn enough request

/-- No initial nodes; and so many that the size in bytes is `2 ^ 32`. -/
theorem buffers_empty :
    ¬ (∀ requests, Runs.Along (nodeTurn pages) (NodeInside pages)
        (new pages (bufferSize 0 20 2)) requests) ∧
    ¬ (∀ requests, Runs.Along (nodeTurn pages) (NodeInside pages)
        (new pages (bufferSize 67108864 0 2)) requests) := by
  have empty : ∀ size, size = 0 → ¬ (∀ requests, Runs.Along (nodeTurn pages) (NodeInside pages)
      (new pages size) requests) := by
    rintro size rfl all
    obtain ⟨inside, _⟩ := all [.nalloc 0]
    exact absurd (inside 0 rfl).2 (by decide)
  exact ⟨empty _ (by decide), empty _ (by decide)⟩

end Arena

end Hosk
