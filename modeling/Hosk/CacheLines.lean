import Hosk.AllocatorIsolation

/-!
Blocks and cache lines. The allocator keeps its free pointer at a multiple of half a line, and one
flag tells it whether that is a whole line; only requests of more than half a line depend on it.
-/

namespace Hosk

/-- Up to a line, inside one line; beyond that, from the start of one. -/
def Block.Unspilled (block : Block) : Prop :=
  (block.size ≤ cacheSize → ∃ line, cacheSize * line ≤ block.start ∧
    block.start + block.size ≤ cacheSize * (line + 1)) ∧
  (cacheSize < block.size → cacheSize ∣ block.start)

theorem Block.unspilled_iff {block : Block} (half : cacheSize / 2 ∣ block.start) :
    block.Unspilled ↔ block.size ≤ cacheSize / 2 ∨ cacheSize ∣ block.start := by
  unfold Unspilled cacheSize at *
  constructor
  · rintro ⟨inLine, fromLine⟩
    by_cases large : 64 < block.size
    · exact .inr (fromLine large)
    · obtain ⟨line, lower, upper⟩ := inLine (Nat.le_of_not_lt large)
      omega
  · intro fits
    refine ⟨fun small => ⟨block.start / 64, ?_, ?_⟩, fun large => ?_⟩
    · omega
    · omega
    · omega

namespace Arena

section Request

variable (numaAllocLocal : Nat → Nat) (arena : Arena)

def returned (ssize : Nat) : Block := ⟨(arena.nalloc numaAllocLocal ssize).allocator.bufOld, ssize⟩

def KeepsLines (request : Request) : Prop :=
  ∀ ssize, request = .nalloc ssize → arena.Fits ssize →
    (arena.returned numaAllocLocal ssize).Unspilled

def AtHalf : Prop := arena.allocator.bufCur % cacheSize = cacheSize / 2

instance : Decidable arena.AtHalf := inferInstanceAs (Decidable (_ = _))

def NoRoom (ssize : Nat) : Prop :=
  arena.bufEnd < (settle arena.allocator cacheSize).bufCur + alignedSize ssize

instance (ssize : Nat) : Decidable (arena.NoRoom ssize) := inferInstanceAs (Decidable (_ < _))

/-- A request of more than half a line comes while the flag is right, or while there is no room. -/
def HalfKnown (request : Request) : Prop :=
  ∀ ssize, request = .nalloc ssize → arena.Fits ssize → cacheSize / 2 < ssize →
    (arena.allocator.lastAllocHalf = true ↔ arena.AtHalf) ∨ arena.NoRoom ssize

structure LinesOk : Prop where
  start : cacheSize ∣ arena.allocator.bufStart
  cur : cacheSize / 2 ∣ arena.allocator.bufCur
  old : cacheSize / 2 ∣ arena.allocator.bufOld

end Request

variable {numaAllocLocal : Nat → Nat} {arena : Arena}

theorem alignedSize_half (ssize : Nat) : cacheSize / 2 ∣ alignedSize ssize := by
  unfold alignedSize align alignmentOf cacheSize
  split <;> omega

theorem settle_half {allocator : NumaAllocator} (half : cacheSize / 2 ∣ allocator.bufCur)
    (alignment : Nat) : cacheSize / 2 ∣ (settle allocator alignment).bufCur := by
  unfold settle
  split
  · exact Nat.dvd_add half (Nat.dvd_refl _)
  · split <;> exact half

theorem nalloc_bufOld (arena : Arena) (ssize : Nat) :
    (arena.nalloc numaAllocLocal ssize).allocator.bufOld =
      if arena.bufEnd < (settle arena.allocator (alignmentOf ssize)).bufCur + alignedSize ssize
      then numaAllocLocal (arena.allocator.otherBuffers.length + 1)
      else (settle arena.allocator (alignmentOf ssize)).bufCur := by
  unfold nalloc bufEnd
  simp only [settle_bufStart, settle_bufSize, gt_iff_lt]
  split
  · simp only [nrealloc, settle_otherBuffers]
  · rfl

theorem LinesOk.returned (ok : arena.LinesOk) (aligned : ∀ index, cacheSize ∣ numaAllocLocal index)
    (ssize : Nat) : cacheSize / 2 ∣ (arena.returned numaAllocLocal ssize).start := by
  rw [Arena.returned, nalloc_bufOld]
  split
  · exact Nat.dvd_trans (by decide) (aligned _)
  · exact settle_half ok.cur _

theorem LinesOk.nalloc (ok : arena.LinesOk) (aligned : ∀ index, cacheSize ∣ numaAllocLocal index)
    (ssize : Nat) : (arena.nalloc numaAllocLocal ssize).LinesOk := by
  have served : Served numaAllocLocal arena (arena.nalloc numaAllocLocal ssize) ssize :=
    nalloc_served arena ssize
  have old : cacheSize / 2 ∣ (arena.nalloc numaAllocLocal ssize).allocator.bufOld :=
    ok.returned aligned ssize
  refine ⟨?_, ?_, old⟩
  · rcases served.place with ⟨same, _⟩ | ⟨fresh, _⟩
    · rw [same]
      exact ok.start
    · rw [fresh]
      exact aligned _
  · rw [served.cur]
    exact Nat.dvd_add old (alignedSize_half ssize)

theorem LinesOk.nfree (ok : arena.LinesOk) (block : Block) : (arena.nfree block).LinesOk := by
  unfold Arena.nfree
  simp only
  split
  · exact ⟨ok.start, ok.old, ok.old⟩
  · exact ok

theorem LinesOk.serve (ok : arena.LinesOk) (aligned : ∀ index, cacheSize ∣ numaAllocLocal index)
    (request : Request) : (arena.serve numaAllocLocal request).LinesOk := by
  cases request with
  | nalloc ssize =>
      unfold Arena.serve
      simp only
      split
      · exact ok.nalloc aligned ssize
      · exact ok
  | write index offset byte =>
      unfold Arena.serve
      simp only
      split
      · split
        · exact ⟨ok.start, ok.cur, ok.old⟩
        · exact ok
      · exact ok
  | nfree index =>
      unfold Arena.serve
      simp only
      split
      · rename_i block held
        have freed := ok.nfree block
        exact ⟨freed.start, freed.cur, freed.old⟩
      · exact ok

/-- A whole line is found exactly if the flag is right or a new buffer is. -/
theorem LinesOk.large_iff (ok : arena.LinesOk) (aligned : ∀ index, cacheSize ∣ numaAllocLocal index)
    {ssize : Nat} (large : cacheSize / 2 < ssize) :
    cacheSize ∣ (arena.returned numaAllocLocal ssize).start ↔
      (arena.allocator.lastAllocHalf = true ↔ arena.AtHalf) ∨ arena.NoRoom ssize := by
  have alignment : alignmentOf ssize = cacheSize := by
    unfold alignmentOf
    rw [if_neg (Nat.not_le_of_lt large)]
  rw [Arena.returned, nalloc_bufOld, alignment]
  by_cases full : arena.NoRoom ssize
  · have moved : arena.bufEnd < (settle arena.allocator cacheSize).bufCur + alignedSize ssize := full
    simp only [if_pos moved, full, or_true, iff_true]
    exact aligned _
  · have stays : ¬ arena.bufEnd < (settle arena.allocator cacheSize).bufCur + alignedSize ssize := full
    have half := ok.cur
    simp only [if_neg stays, full, or_false]
    unfold settle AtHalf
    unfold cacheSize at *
    cases flag : arena.allocator.lastAllocHalf with
    | true =>
        simp only [true_and, if_true, true_iff]
        omega
    | false =>
        have notHalf : ¬ (64 : Nat) = 64 / 2 := by decide
        simp only [Bool.false_eq_true, false_and, if_false, not_false_eq_true, true_and, notHalf,
          false_iff]
        omega

theorem keepsLines_iff (ok : arena.LinesOk) (aligned : ∀ index, cacheSize ∣ numaAllocLocal index)
    (request : Request) : arena.KeepsLines numaAllocLocal request ↔ arena.HalfKnown request := by
  refine forall_congr' fun ssize => forall_congr' fun isNalloc => forall_congr' fun fits => ?_
  rw [Block.unspilled_iff (ok.returned aligned ssize)]
  have size : (arena.returned numaAllocLocal ssize).size = ssize := rfl
  rw [size]
  by_cases large : cacheSize / 2 < ssize
  · rw [ok.large_iff aligned large]
    constructor
    · rintro (small | known) _
      · exact absurd large (Nat.not_lt_of_le small)
      · exact known
    · exact fun known => .inr (known large)
  · exact ⟨fun _ again => absurd again large, fun _ => .inl (Nat.le_of_not_lt large)⟩

/-- Over every sequence of requests, no block spills over a line exactly if the flag is right, or
the buffer is full, at every request for a whole line. -/
theorem lines_kept_iff_half_known (numaAllocLocal : Nat → Nat) (ssize : Nat)
    (aligned : ∀ index, cacheSize ∣ numaAllocLocal index) (requests : List Request) :
    Runs.Along (serve numaAllocLocal) (KeepsLines numaAllocLocal) (new numaAllocLocal ssize)
        requests ↔
      Runs.Along (serve numaAllocLocal) HalfKnown (new numaAllocLocal ssize) requests := by
  apply Runs.along_iff LinesOk
  · intro arena request ok
    exact keepsLines_iff ok aligned request
  · intro arena request ok _
    exact ok.serve aligned request
  · exact ⟨aligned 0, Nat.dvd_trans (by decide) (aligned 0), Nat.dvd_zero _⟩

theorem lines_kept_iff_half_known_pages :
    Runs.Along (serve pages) (KeepsLines pages) (new pages 256) [.nalloc 32, .nalloc 64, .nfree 1] ↔
      Runs.Along (serve pages) HalfKnown (new pages 256) [.nalloc 32, .nalloc 64, .nfree 1] :=
  lines_kept_iff_half_known pages 256
    (fun index => Nat.dvd_trans (by decide : cacheSize ∣ 4096) (Nat.dvd_mul_right 4096 (index + 1))) _

/-- Two half lines make a whole one, but the flag still says half. -/
theorem two_halves_spill :
    ¬ Runs.Along (serve pages) (KeepsLines pages) (new pages 256)
      [.nalloc 32, .nalloc 32, .nalloc 64] := by
  rintro ⟨_, _, keeps, _⟩
  obtain ⟨line, lower, upper⟩ := (keeps 64 rfl (by decide)).1 (Nat.le_refl 64)
  have start : (Arena.returned pages
      (serve pages (serve pages (new pages 256) (.nalloc 32)) (.nalloc 32)) 64).start = 4192 := by
    decide
  rw [start] at lower upper
  have upper' : 4192 + 64 ≤ cacheSize * (line + 1) := upper
  unfold cacheSize at *
  omega

end Arena

end Hosk
