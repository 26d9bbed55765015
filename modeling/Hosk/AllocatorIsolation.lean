import Mathlib.Data.List.Basic
import Hosk.AllocatorCore

/-!
Which frees keep the live blocks apart. `nfree` takes its block for the last allocation whenever
the bytes of the two agree; it is harmless exactly when no other live block is hit by that.
-/

namespace Hosk

namespace Arena

def bufEnd (arena : Arena) : Nat :=
  arena.allocator.bufStart + arena.allocator.bufSize

def regions (arena : Arena) : List Nat :=
  arena.allocator.otherBuffers ++ [arena.allocator.bufStart]

/-- Live blocks share no byte, and each lies inside one buffer. -/
structure Separated (arena : Arena) : Prop where
  apart : arena.live.Pairwise Block.Disjoint
  inside : ∀ block ∈ arena.live, ∃ region ∈ arena.regions,
    region ≤ block.start ∧ block.stop ≤ region + arena.allocator.bufSize

def Available (arena : Arena) (address : Nat) : Prop :=
  arena.allocator.bufCur ≤ address ∧ address < arena.bufEnd

/-- Freeing `block` changes no byte of the blocks that stay live and offers none of them. -/
def FreesOnly (arena : Arena) (block : Block) (others : List Block) : Prop :=
  ∀ other ∈ others, ∀ address, other.Covers address →
    (arena.nfree block).memory address = arena.memory address ∧
      ¬ (arena.nfree block).Available address

/-- The block's bytes differ from those at `buf_old`; or no other live block of the current buffer
begins there and the bytes of other live blocks in the compared range are zero already. -/
def SafeFree (arena : Arena) (block : Block) (others : List Block) : Prop :=
  sameBytes arena.memory block.start arena.allocator.bufOld (alignedSize block.size) = true →
    ∀ other ∈ others,
      (other.start = arena.allocator.bufOld → other.stop ≤ arena.bufEnd →
        other.stop = other.start) ∧
      ∀ address, other.Covers address → arena.allocator.bufOld ≤ address →
        address < arena.allocator.bufOld + alignedSize block.size → arena.memory address = 0

def IsolatesStep (numaAllocLocal : Nat → Nat) (arena : Arena) (request : Request) : Prop :=
  (arena.serve numaAllocLocal request).Separated ∧
  ∀ index block, request = .nfree index → arena.live[index]? = some block →
    arena.FreesOnly block (arena.live.eraseIdx index)

def SafeStep (arena : Arena) (request : Request) : Prop :=
  ∀ index block, request = .nfree index → arena.live[index]? = some block →
    arena.SafeFree block (arena.live.eraseIdx index)

def FreshRegions (numaAllocLocal : Nat → Nat) (ssize : Nat) : Prop :=
  ∀ first second, first ≠ second →
    numaAllocLocal first + ssize ≤ numaAllocLocal second ∨
      numaAllocLocal second + ssize ≤ numaAllocLocal first

/-- Where a live block may stand: below the last allocation, at it, or in an older buffer. -/
def Placed (arena : Arena) (block : Block) : Prop :=
  (arena.allocator.bufStart ≤ block.start ∧ block.stop ≤ arena.allocator.bufOld) ∨
  (block.start = arena.allocator.bufOld ∧ block.stop ≤ arena.allocator.bufCur) ∨
  (∃ region ∈ arena.allocator.otherBuffers,
    region ≤ block.start ∧ block.stop ≤ region + arena.allocator.bufSize)

structure BuffersOk (numaAllocLocal : Nat → Nat) (ssize : Nat) (arena : Arena) : Prop where
  size : arena.allocator.bufSize = ssize
  regions : arena.regions =
    (List.range (arena.allocator.otherBuffers.length + 1)).map numaAllocLocal

structure ArenaOk (numaAllocLocal : Nat → Nat) (ssize : Nat) (arena : Arena) : Prop
    extends BuffersOk numaAllocLocal ssize arena where
  low : arena.allocator.bufStart ≤ arena.allocator.bufCur
  high : arena.allocator.bufCur ≤ arena.bufEnd
  old : arena.live ≠ [] → arena.allocator.bufStart ≤ arena.allocator.bufOld ∧
    arena.allocator.bufOld ≤ arena.allocator.bufCur
  apart : arena.live.Pairwise Block.Disjoint
  placed : ∀ block ∈ arena.live, arena.Placed block

variable {numaAllocLocal : Nat → Nat} {ssize : Nat} {arena : Arena}

theorem new_ok (numaAllocLocal : Nat → Nat) (ssize : Nat) :
    ArenaOk numaAllocLocal ssize (new numaAllocLocal ssize) where
  size := rfl
  regions := rfl
  low := Nat.le_refl _
  high := Nat.le_add_right _ _
  old := fun absurdity => absurd rfl absurdity
  apart := List.Pairwise.nil
  placed := fun _ member => absurd member List.not_mem_nil

theorem BuffersOk.bufStart_eq (ok : BuffersOk numaAllocLocal ssize arena) :
    arena.allocator.bufStart = numaAllocLocal arena.allocator.otherBuffers.length := by
  have regions := ok.regions
  rw [List.range_succ, List.map_append] at regions
  have last := List.append_inj_right' regions rfl
  simpa using last

theorem BuffersOk.other_eq (ok : BuffersOk numaAllocLocal ssize arena) {region : Nat}
    (member : region ∈ arena.allocator.otherBuffers) :
    ∃ index < arena.allocator.otherBuffers.length, region = numaAllocLocal index := by
  have regions := ok.regions
  rw [List.range_succ, List.map_append] at regions
  have others := List.append_inj_left' regions rfl
  rw [others] at member
  obtain ⟨index, bound, same⟩ := List.mem_map.mp member
  exact ⟨index, List.mem_range.mp bound, same.symm⟩

theorem BuffersOk.other_apart (ok : BuffersOk numaAllocLocal ssize arena)
    (fresh : FreshRegions numaAllocLocal ssize) {region : Nat}
    (member : region ∈ arena.allocator.otherBuffers) :
    region + arena.allocator.bufSize ≤ arena.allocator.bufStart ∨
      arena.bufEnd ≤ region := by
  obtain ⟨index, bound, same⟩ := ok.other_eq member
  rw [bufEnd, ok.size, same, ok.bufStart_eq]
  exact fresh index arena.allocator.otherBuffers.length (by omega)

theorem ArenaOk.separated (ok : ArenaOk numaAllocLocal ssize arena) : arena.Separated where
  apart := ok.apart
  inside := by
    intro block member
    have old := ok.old (List.ne_nil_of_mem member)
    have high := ok.high
    unfold bufEnd at high
    rcases ok.placed block member with ⟨lower, upper⟩ | ⟨atOld, upper⟩ | ⟨region, mem, inside⟩
    · exact ⟨_, List.mem_append_right _ (List.mem_singleton_self _), lower, by omega⟩
    · exact ⟨_, List.mem_append_right _ (List.mem_singleton_self _), by omega, by omega⟩
    · exact ⟨region, List.mem_append_left _ mem, inside⟩

theorem freesOnly_of_different {block : Block} {others : List Block}
    (ok : ArenaOk numaAllocLocal ssize arena) (fresh : FreshRegions numaAllocLocal ssize)
    (members : ∀ other ∈ others, other ∈ arena.live)
    (different : sameBytes arena.memory block.start arena.allocator.bufOld
      (alignedSize block.size) = false) : arena.FreesOnly block others := by
  intro other member address covers
  have unchanged : arena.nfree block = arena := by simp [nfree, different]
  rw [unchanged]
  refine ⟨rfl, ?_⟩
  rintro ⟨low, high⟩
  have old := ok.old (List.ne_nil_of_mem (members other member))
  obtain ⟨lower, upper⟩ := covers
  rcases ok.placed other (members other member) with place | place | ⟨region, mem, inside⟩
  · omega
  · omega
  · have apart := ok.toBuffersOk.other_apart fresh mem
    have start := ok.low
    omega

/-- Under the invariant, a free leaves the other live blocks alone exactly when it is safe. -/
theorem freesOnly_iff_safeFree {block : Block} {others : List Block}
    (ok : ArenaOk numaAllocLocal ssize arena) (fresh : FreshRegions numaAllocLocal ssize)
    (members : ∀ other ∈ others, other ∈ arena.live) :
    arena.FreesOnly block others ↔ arena.SafeFree block others := by
  cases same : sameBytes arena.memory block.start arena.allocator.bufOld (alignedSize block.size) with
  | false =>
      refine ⟨fun _ => ?_, fun _ => freesOnly_of_different ok fresh members same⟩
      intro agree
      rw [same] at agree
      exact absurd agree Bool.false_ne_true
  | true =>
      have memoryEq : (arena.nfree block).memory =
          zeroBytes arena.memory arena.allocator.bufOld (alignedSize block.size) := by
        simp [nfree, same]
      have availableIff (address : Nat) : (arena.nfree block).Available address ↔
          arena.allocator.bufOld ≤ address ∧ address < arena.bufEnd := by
        simp [nfree, same, Available, bufEnd]
      unfold FreesOnly SafeFree
      simp only [memoryEq, availableIff, same, true_implies]
      constructor
      · intro only other member
        refine ⟨?_, ?_⟩
        · intro atOld inBuffer
          by_contra occupied
          have stopLow : other.start ≤ other.stop := Nat.le_add_right _ _
          have hit := only other member other.start ⟨Nat.le_refl _, by omega⟩
          exact hit.2 ⟨by omega, by omega⟩
        · intro address covers lower upper
          have kept := (only other member address covers).1
          rw [zeroBytes, if_pos ⟨lower, upper⟩] at kept
          exact kept.symm
      · intro safe other member address covers
        obtain ⟨empty, zero⟩ := safe other member
        refine ⟨?_, ?_⟩
        · rw [zeroBytes]
          split
          · rename_i range
            exact (zero address covers range.1 range.2).symm
          · rfl
        · rintro ⟨lower, upper⟩
          have old := ok.old (List.ne_nil_of_mem (members other member))
          have high := ok.high
          obtain ⟨first, last⟩ := covers
          rcases ok.placed other (members other member) with place | place | ⟨region, mem, inside⟩
          · omega
          · have none := empty place.1 (by omega)
            omega
          · have apart := ok.toBuffersOk.other_apart fresh mem
            omega

theorem settle_bufSize (allocator : NumaAllocator) (alignment : Nat) :
    (settle allocator alignment).bufSize = allocator.bufSize := by
  unfold settle
  split
  · rfl
  · split <;> rfl

theorem settle_bufStart (allocator : NumaAllocator) (alignment : Nat) :
    (settle allocator alignment).bufStart = allocator.bufStart := by
  unfold settle
  split
  · rfl
  · split <;> rfl

theorem settle_otherBuffers (allocator : NumaAllocator) (alignment : Nat) :
    (settle allocator alignment).otherBuffers = allocator.otherBuffers := by
  unfold settle
  split
  · rfl
  · split <;> rfl

theorem settle_bufCur (allocator : NumaAllocator) (alignment : Nat) :
    allocator.bufCur ≤ (settle allocator alignment).bufCur := by
  unfold settle
  split
  · exact Nat.le_add_right _ _
  · split <;> exact Nat.le_refl _

/-- What an allocation leaves: the new block at the end of the list, either after the old free
pointer or at the start of a fresh buffer. -/
structure Served (numaAllocLocal : Nat → Nat) (before after : Arena) (size : Nat) : Prop where
  live : after.live = before.live ++ [⟨after.allocator.bufOld, size⟩]
  cur : after.allocator.bufCur = after.allocator.bufOld + alignedSize size
  size : after.allocator.bufSize = before.allocator.bufSize
  place :
    (after.allocator.bufStart = before.allocator.bufStart ∧
      after.allocator.otherBuffers = before.allocator.otherBuffers ∧
      before.allocator.bufCur ≤ after.allocator.bufOld ∧
      after.allocator.bufCur ≤ before.bufEnd) ∨
    (after.allocator.bufStart = numaAllocLocal (before.allocator.otherBuffers.length + 1) ∧
      after.allocator.otherBuffers = before.allocator.otherBuffers ++ [before.allocator.bufStart] ∧
      after.allocator.bufOld = after.allocator.bufStart)

theorem nalloc_served (arena : Arena) (size : Nat) :
    Served numaAllocLocal arena (arena.nalloc numaAllocLocal size) size := by
  unfold nalloc
  simp only
  split
  · refine ⟨?_, rfl, ?_, Or.inr ⟨?_, ?_, rfl⟩⟩
    · simp [nrealloc]
    · simp [nrealloc, settle_bufSize]
    · simp [nrealloc, settle_otherBuffers]
    · simp [nrealloc, settle_otherBuffers, settle_bufStart]
  · rename_i roomy
    rw [settle_bufStart, settle_bufSize] at roomy
    refine ⟨rfl, rfl, settle_bufSize _ _, Or.inl ⟨settle_bufStart _ _,
      settle_otherBuffers _ _, settle_bufCur _ _, ?_⟩⟩
    simp only [bufEnd]
    omega

theorem ArenaOk.placed_below (ok : ArenaOk numaAllocLocal ssize arena) {block : Block}
    (member : block ∈ arena.live) :
    (arena.allocator.bufStart ≤ block.start ∧ block.stop ≤ arena.allocator.bufCur) ∨
    (∃ region ∈ arena.allocator.otherBuffers,
      region ≤ block.start ∧ block.stop ≤ region + arena.allocator.bufSize) := by
  have old := ok.old (List.ne_nil_of_mem member)
  rcases ok.placed block member with place | place | place
  · exact Or.inl ⟨place.1, by omega⟩
  · exact Or.inl ⟨by omega, place.2⟩
  · exact Or.inr place

theorem Served.buffers {after : Arena} {size : Nat}
    (served : Served numaAllocLocal arena after size) (ok : BuffersOk numaAllocLocal ssize arena) :
    BuffersOk numaAllocLocal ssize after := by
  refine ⟨by rw [served.size, ok.size], ?_⟩
  rcases served.place with ⟨sameStart, sameOthers, _⟩ | ⟨newStart, newOthers, _⟩
  · simpa [regions, sameOthers, sameStart] using ok.regions
  · have old : arena.allocator.otherBuffers ++ [arena.allocator.bufStart] =
        (List.range (arena.allocator.otherBuffers.length + 1)).map numaAllocLocal := ok.regions
    rw [regions, newOthers, newStart, old, List.length_map, List.length_range,
      @List.range_succ (arena.allocator.otherBuffers.length + 1), List.map_append]
    rfl

theorem Served.kept {after : Arena} {size : Nat} (served : Served numaAllocLocal arena after size)
    (ok : ArenaOk numaAllocLocal ssize arena) {block : Block} (member : block ∈ arena.live) :
    (after.allocator.bufStart ≤ block.start ∧ block.stop ≤ after.allocator.bufOld) ∨
    (∃ region ∈ after.allocator.otherBuffers,
      region ≤ block.start ∧ block.stop ≤ region + after.allocator.bufSize) := by
  have high := ok.high
  unfold bufEnd at high
  rw [served.size]
  rcases served.place with ⟨sameStart, sameOthers, above, _⟩ | ⟨_, newOthers, _⟩
  · rw [sameStart, sameOthers]
    rcases ok.placed_below member with ⟨lower, upper⟩ | older
    · exact Or.inl ⟨lower, by omega⟩
    · exact Or.inr older
  · rw [newOthers]
    rcases ok.placed_below member with ⟨lower, upper⟩ | ⟨region, mem, inside⟩
    · exact Or.inr ⟨_, List.mem_append_right _ (List.mem_singleton_self _), lower, by omega⟩
    · exact Or.inr ⟨region, List.mem_append_left _ mem, inside⟩

theorem Served.ok {after : Arena} {size : Nat} (served : Served numaAllocLocal arena after size)
    (ok : ArenaOk numaAllocLocal ssize arena) (fresh : FreshRegions numaAllocLocal ssize)
    (fits : arena.Fits size) : ArenaOk numaAllocLocal ssize after := by
  have low := ok.low
  have curEq := served.cur
  have sizeEq := served.size
  have fitsSize : alignedSize size ≤ arena.allocator.bufSize := fits.2
  have buffers := served.buffers ok.toBuffersOk
  have range : after.allocator.bufStart ≤ after.allocator.bufOld ∧
      after.allocator.bufCur ≤ after.bufEnd := by
    unfold bufEnd
    rcases served.place with ⟨sameStart, _, above, within⟩ | ⟨_, _, atStart⟩
    · unfold bufEnd at within
      omega
    · omega
  refine ⟨buffers, by omega, range.2, fun _ => by omega, ?_, ?_⟩
  · rw [served.live, List.pairwise_append]
    refine ⟨ok.apart, List.pairwise_singleton _ _, ?_⟩
    intro block member new isNew address inOld inNew
    rw [List.mem_singleton] at isNew
    subst isNew
    obtain ⟨lower, upper⟩ := inOld
    have newLower : after.allocator.bufOld ≤ address := inNew.1
    have newUpper : address < after.allocator.bufOld + alignedSize size := inNew.2
    rcases served.kept ok member with below | ⟨region, mem, inside⟩
    · omega
    · have apart := buffers.other_apart fresh mem
      omega
  · intro block member
    rw [served.live, List.mem_append, List.mem_singleton] at member
    rcases member with held | new
    · rcases served.kept ok held with below | older
      · exact Or.inl below
      · exact Or.inr (Or.inr older)
    · subst new
      refine Or.inr (Or.inl ⟨rfl, ?_⟩)
      rw [curEq]
      exact Nat.le_refl _

theorem nfree_ok {index : Nat} {block : Block} (ok : ArenaOk numaAllocLocal ssize arena)
    (held : arena.live[index]? = some block)
    (safe : arena.SafeFree block (arena.live.eraseIdx index)) :
    ArenaOk numaAllocLocal ssize
      { arena.nfree block with live := arena.live.eraseIdx index } := by
  have member : block ∈ arena.live := List.mem_of_getElem? held
  have subset (other : Block) (kept : other ∈ arena.live.eraseIdx index) : other ∈ arena.live :=
    List.mem_of_mem_eraseIdx kept
  have old := ok.old (List.ne_nil_of_mem member)
  have high := ok.high
  have apart := ok.apart.sublist (List.eraseIdx_sublist arena.live index)
  cases same : sameBytes arena.memory block.start arena.allocator.bufOld (alignedSize block.size) with
  | false =>
      have unchanged : arena.nfree block = arena := by simp [nfree, same]
      rw [unchanged]
      exact ⟨⟨ok.size, ok.regions⟩, ok.low, ok.high, fun _ => old, apart,
        fun other kept => ok.placed other (subset other kept)⟩
  | true =>
      simp only [nfree, same, if_true]
      refine ⟨⟨ok.size, ok.regions⟩, old.1, Nat.le_trans old.2 high, fun _ => ⟨old.1, Nat.le_refl _⟩,
        apart, ?_⟩
      intro other kept
      have empty := (safe same other kept).1
      rcases ok.placed other (subset other kept) with below | ⟨atOld, upper⟩ | older
      · exact Or.inl below
      · have none := empty atOld (by omega)
        exact Or.inl ⟨by show arena.allocator.bufStart ≤ _; omega,
          by show _ ≤ arena.allocator.bufOld; omega⟩
      · exact Or.inr (Or.inr older)

theorem serve_ok {request : Request} (ok : ArenaOk numaAllocLocal ssize arena)
    (fresh : FreshRegions numaAllocLocal ssize) (safe : arena.SafeStep request) :
    ArenaOk numaAllocLocal ssize (arena.serve numaAllocLocal request) := by
  cases request with
  | nalloc size =>
      unfold serve
      simp only
      split
      · rename_i fits
        exact (nalloc_served arena size).ok ok fresh fits
      · exact ok
  | write index offset byte =>
      unfold serve
      simp only
      split
      · split
        · exact ⟨⟨ok.size, ok.regions⟩, ok.low, ok.high, ok.old, ok.apart, ok.placed⟩
        · exact ok
      · exact ok
  | nfree index =>
      unfold serve
      simp only
      split
      · rename_i block held
        exact nfree_ok ok held (safe index block rfl held)
      · exact ok

theorem isolatesStep_iff {request : Request} (ok : ArenaOk numaAllocLocal ssize arena)
    (fresh : FreshRegions numaAllocLocal ssize) :
    arena.SafeStep request ↔ arena.IsolatesStep numaAllocLocal request := by
  constructor
  · intro safe
    refine ⟨(serve_ok ok fresh safe).separated, fun index block isFree held => ?_⟩
    exact (freesOnly_iff_safeFree ok fresh (fun _ => List.mem_of_mem_eraseIdx)).mpr
      (safe index block isFree held)
  · rintro ⟨_, frees⟩ index block isFree held
    exact (freesOnly_iff_safeFree ok fresh (fun _ => List.mem_of_mem_eraseIdx)).mp
      (frees index block isFree held)

/-- Over every sequence of requests, the allocator isolates its live blocks all along exactly
when every free is safe all along. -/
theorem isolates_iff_safe_frees (numaAllocLocal : Nat → Nat) (ssize : Nat)
    (fresh : FreshRegions numaAllocLocal ssize) (requests : List Request) :
    Runs.Along (serve numaAllocLocal) (IsolatesStep numaAllocLocal) (new numaAllocLocal ssize)
        requests ↔
      Runs.Along (serve numaAllocLocal) SafeStep (new numaAllocLocal ssize) requests := by
  symm
  apply Runs.along_iff (ArenaOk numaAllocLocal ssize)
  · intro arena request ok
    exact isolatesStep_iff ok fresh
  · intro arena request ok safe
    exact serve_ok ok fresh safe
  · exact new_ok numaAllocLocal ssize

def pages (index : Nat) : Nat :=
  4096 * (index + 1)

theorem pages_fresh : FreshRegions pages 128 := by
  intro first second different
  unfold pages
  omega

def twoBlocks : List Request :=
  [.nalloc 32, .nalloc 32, .write 0 3 7, .nfree 0, .nalloc 32, .nfree 1]

theorem twoBlocks_safe : Runs.Along (serve pages) SafeStep (new pages 128) twoBlocks := by
  have quiet {arena : Arena} {request : Request} (notFree : ∀ index, request ≠ .nfree index) :
      SafeStep arena request := fun index _ isFree => absurd isFree (notFree index)
  refine ⟨quiet (by simp), quiet (by simp), quiet (by simp), ?_, quiet (by simp), ?_, trivial⟩
  -- the byte that was written is not in the block handed out last
  · intro index block isFree held same
    obtain rfl := Request.nfree.inj isFree
    obtain rfl := Option.some.inj ((rfl : some (⟨4096, 32⟩ : Block) = _).trans held)
    exact absurd same (by decide)
  -- the block itself is the one handed out last, at 4160
  · intro index block isFree held same other member
    obtain rfl := Request.nfree.inj isFree
    obtain rfl : other = ⟨4128, 32⟩ := List.mem_singleton.mp member
    exact ⟨fun wrong => absurd wrong (by decide), fun address covers above _ =>
      absurd (Nat.lt_of_lt_of_le covers.2 above) (Nat.lt_irrefl _)⟩

theorem twoBlocks_isolated : Runs.Along (serve pages) (IsolatesStep pages) (new pages 128) twoBlocks :=
  (isolates_iff_safe_frees pages 128 pages_fresh twoBlocks).mpr twoBlocks_safe

/-- Two equal blocks: freeing the first releases the second, which the next request is given. -/
theorem equal_blocks_not_isolated :
    ¬ Runs.Along (serve pages) (IsolatesStep pages) (new pages 128)
      [.nalloc 32, .nalloc 32, .nfree 0, .nalloc 32] := by
  rintro ⟨_, _, _, ⟨separated, _⟩, _⟩
  have live : (serveAll pages 128 [.nalloc 32, .nalloc 32, .nfree 0, .nalloc 32]).live =
      [⟨4128, 32⟩, ⟨4128, 32⟩] := by rfl
  have apart : (serveAll pages 128 [.nalloc 32, .nalloc 32, .nfree 0, .nalloc 32]).live.Pairwise
      Block.Disjoint := separated.apart
  rw [live] at apart
  have covers : Block.Covers ⟨4128, 32⟩ 4128 := by
    constructor <;> decide
  exact (List.pairwise_cons.mp apart).1 _ (List.mem_singleton_self _) 4128 covers covers

end Arena

end Hosk
