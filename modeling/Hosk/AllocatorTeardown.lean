import Hosk.AllocatorIsolation

/-!
The arrays in which an allocator keeps its full buffers: `nrealloc` copies them into ever longer
ones, and the destructor frees what the last of them holds.
-/

namespace Hosk

/-- An array of pointers; an element is unset until it is stored to. -/
abbrev Pointers := List (Option Nat)

namespace Pointers

def load (bufs : Pointers) (i : Nat) : Option Nat := (bufs[i]?).join

def store (bufs : Pointers) (i pointer : Nat) : Option Pointers :=
  if i < bufs.length then some (bufs.set i (some pointer)) else none

-- for(int i = 0; i < num_buffers - 1; ++i) new_bufs[i] = other_buffers[i];
def copy (others : Pointers) (i : Nat) : Nat → Pointers → Option Pointers
  | 0, bufs => some bufs
  | left + 1, bufs => do
      let pointer ← others.load i
      let bufs ← bufs.store i pointer
      copy others (i + 1) left bufs

-- while(i >= 0) { numa_free(other_buffers[i], buf_size); i--; }
def freeDown (others : Pointers) : Nat → Option (List Nat)
  | 0 => some []
  | i + 1 => do
      let pointer ← others.load i
      let later ← freeDown others i
      some (pointer :: later)

end Pointers

/-- An allocator with its arrays: each that `malloc` has made, gone once it is freed, and the number
of the one that `other_buffers` points to. What `numa_free` was given, with the sizes, is history. -/
structure ArrayArena where
  arena : Arena
  empty : Bool
  numBuffers : Nat
  otherBuffers : Option Nat
  arrays : List (Option Pointers)
  freed : List (Nat × Nat)

namespace ArrayArena

variable (numaAllocLocal : Nat → Nat)

def new (ssize : Nat) : ArrayArena := ⟨Arena.new numaAllocLocal ssize, false, 0, none, [], []⟩

def keepBuffer (a : ArrayArena) : Option ArrayArena :=
  let count := a.numBuffers + 1
  match a.otherBuffers with
  | none =>
      -- assert(num_buffers == 1)
      if count = 1 then do
        let bufs ← Pointers.store (List.replicate count none) 0 a.arena.allocator.bufStart
        some { a with
          numBuffers := count
          otherBuffers := some a.arrays.length
          arrays := a.arrays ++ [some bufs] }
      else none
  | some old => do
      let others ← (a.arrays[old]?).join
      let bufs ← others.copy 0 (count - 1) (List.replicate count none)
      let bufs ← bufs.store (count - 1) a.arena.allocator.bufStart
      some { a with
        numBuffers := count
        otherBuffers := some a.arrays.length
        arrays := a.arrays.set old none ++ [some bufs] }

def Reallocates (arena : Arena) (ssize : Nat) : Prop :=
  let settled := Arena.settle arena.allocator (alignmentOf ssize)
  settled.bufCur + alignedSize ssize > settled.bufStart + settled.bufSize

instance (arena : Arena) (ssize : Nat) : Decidable (Reallocates arena ssize) :=
  inferInstanceAs (Decidable (_ > _))

-- a request that does not fit its buffer is served as well
def serve (a : ArrayArena) : Request → Option ArrayArena
  | .nalloc ssize => do
      let kept ← if Reallocates a.arena ssize then a.keepBuffer else some a
      some { kept with arena := a.arena.nalloc numaAllocLocal ssize }
  | request => some { a with arena := a.arena.serve numaAllocLocal request }

def serveAll (ssize : Nat) (requests : List Request) : Option ArrayArena :=
  Runs.run (fun state request => state.bind fun a => a.serve numaAllocLocal request)
    (some (new numaAllocLocal ssize)) requests

def nreset (a : ArrayArena) : Option ArrayArena :=
  let buffer := a.arena.allocator
  if a.empty then some a
  else
    match a.otherBuffers with
    | none => some { a with empty := true, freed := a.freed ++ [(buffer.bufStart, buffer.bufSize)] }
    | some last => do
        let others ← (a.arrays[last]?).join
        let kept ← others.freeDown a.numBuffers
        some { a with
          empty := true
          arrays := a.arrays.set last none
          freed := a.freed ++ kept.map (fun region => (region, buffer.bufSize)) ++
            [(buffer.bufStart, buffer.bufSize)] }

end ArrayArena

namespace Pointers

theorem load_map (list : List Nat) (i : Nat) : load (list.map some) i = list[i]? := by
  rw [load, List.getElem?_map]
  cases list[i]? <;> rfl

theorem copy_returns (rest : List Nat) : ∀ front : List Nat,
    copy ((front ++ rest).map some) front.length rest.length
        (front.map some ++ List.replicate (rest.length + 1) none) =
      some ((front ++ rest).map some ++ [none]) := by
  induction rest with
  | nil =>
      intro front
      rw [List.append_nil]
      rfl
  | cons pointer rest ih =>
      intro front
      have later := ih (front ++ [pointer])
      have loaded : load ((front ++ pointer :: rest).map some) front.length = some pointer := by
        rw [load_map, List.getElem?_append_right (Nat.le_refl _), Nat.sub_self]
        rfl
      have stored : store (front.map some ++ List.replicate (rest.length + 2) none) front.length
          pointer = some ((front ++ [pointer]).map some ++ List.replicate (rest.length + 1) none) := by
        rw [store, if_pos (by simp), List.set_append_right _ _ (by simp), List.length_map,
          Nat.sub_self, List.replicate_succ, List.set_cons_zero]
        simp
      simp only [List.length_cons, copy, loaded, Option.bind_eq_bind, Option.bind_some, stored]
      rw [List.length_append, List.length_singleton, List.append_assoc] at later
      exact later

theorem store_last (list : List Nat) (pointer : Nat) :
    store (list.map some ++ [none]) list.length pointer = some ((list ++ [pointer]).map some) := by
  rw [store, if_pos (by simp), List.set_append_right _ _ (by simp), List.length_map, Nat.sub_self]
  simp

theorem freeDown_returns (list : List Nat) (count : Nat) (inside : count ≤ list.length) :
    freeDown (list.map some) count = some (list.take count).reverse := by
  induction count with
  | zero => rfl
  | succ count ih =>
      rw [freeDown, load_map, List.getElem?_eq_getElem inside, ih (by omega),
        ← List.take_append_getElem inside, List.reverse_append]
      rfl

end Pointers

namespace ArrayArena

variable {numaAllocLocal : Nat → Nat} {ssize : Nat} {a : ArrayArena}

/-- The last array holds the full buffers, and those before it are freed. -/
structure Keeps (numaAllocLocal : Nat → Nat) (ssize : Nat) (a : ArrayArena) : Prop where
  buffers : Arena.BuffersOk numaAllocLocal ssize a.arena
  filled : a.empty = false
  unfreed : a.freed = []
  count : a.numBuffers = a.arena.allocator.otherBuffers.length
  arrays : a.numBuffers = 0 ∧ a.otherBuffers = none ∧ a.arrays = [] ∨
    ∃ last, a.numBuffers = last + 1 ∧ a.otherBuffers = some last ∧
      a.arrays = List.replicate last none ++ [some (a.arena.allocator.otherBuffers.map some)]

theorem keeps_new (numaAllocLocal : Nat → Nat) (ssize : Nat) :
    Keeps numaAllocLocal ssize (new numaAllocLocal ssize) :=
  ⟨(Arena.new_ok numaAllocLocal ssize).toBuffersOk, rfl, rfl, rfl, .inl ⟨rfl, rfl, rfl⟩⟩

theorem last_array (last : Nat) (bufs : Pointers) :
    ((List.replicate last none ++ [some bufs])[last]?).join = some bufs := by
  rw [List.getElem?_append_right (by simp), List.length_replicate, Nat.sub_self]
  rfl

theorem free_last (last : Nat) (bufs : Pointers) :
    (List.replicate last none ++ [some bufs]).set last none = List.replicate (last + 1) none := by
  rw [List.set_append_right _ _ (by simp), List.length_replicate, Nat.sub_self,
    List.replicate_succ']
  rfl

theorem Keeps.keepBuffer (keeps : Keeps numaAllocLocal ssize a) :
    a.keepBuffer = some { a with
      numBuffers := a.numBuffers + 1
      otherBuffers := some a.numBuffers
      arrays := List.replicate a.numBuffers none ++
        [some ((a.arena.allocator.otherBuffers ++ [a.arena.allocator.bufStart]).map some)] } := by
  have count := keeps.count
  rw [ArrayArena.keepBuffer]
  rcases keeps.arrays with ⟨none, isNull, noArrays⟩ | ⟨last, more, isLast, arrays⟩
  · rw [none] at count
    have noOthers := List.length_eq_zero_iff.mp count.symm
    simp [none, isNull, noArrays, noOthers, Pointers.store]
  · have size : a.arena.allocator.otherBuffers.length = last + 1 := by omega
    have copied := Pointers.copy_returns a.arena.allocator.otherBuffers []
    have stored := Pointers.store_last a.arena.allocator.otherBuffers a.arena.allocator.bufStart
    simp only [List.nil_append, List.map_nil, List.length_nil, size] at copied stored
    simp only [isLast, arrays, last_array, more, Option.bind_eq_bind, Option.bind_some,
      Nat.add_sub_cancel, copied, stored, free_last]
    simp

theorem nalloc_otherBuffers (numaAllocLocal : Nat → Nat) (arena : Arena) (size : Nat) :
    (arena.nalloc numaAllocLocal size).allocator.otherBuffers =
      if Reallocates arena size then
        arena.allocator.otherBuffers ++ [arena.allocator.bufStart]
      else arena.allocator.otherBuffers := by
  let settled := { arena with allocator := Arena.settle arena.allocator (alignmentOf size) }
  have roomy : (arena.nalloc numaAllocLocal size).allocator.otherBuffers =
      (if Reallocates arena size then settled.nrealloc numaAllocLocal
        else settled).allocator.otherBuffers := rfl
  rw [roomy]
  split
  · simp only [settled, Arena.nrealloc, Arena.settle_otherBuffers, Arena.settle_bufStart]
  · exact Arena.settle_otherBuffers _ _

theorem Keeps.nalloc (keeps : Keeps numaAllocLocal ssize a) (size : Nat) :
    ∃ after, a.serve numaAllocLocal (.nalloc size) = some after ∧
      Keeps numaAllocLocal ssize after := by
  have buffers := (Arena.nalloc_served a.arena size).buffers keeps.buffers
  have others := nalloc_otherBuffers numaAllocLocal a.arena size
  by_cases full : Reallocates a.arena size
  · rw [if_pos full] at others
    simp only [serve, if_pos full, keeps.keepBuffer, Option.bind_eq_bind, Option.bind_some]
    refine ⟨_, rfl, buffers, keeps.filled, keeps.unfreed, ?_, .inr ⟨a.numBuffers, rfl, rfl, ?_⟩⟩
    · show a.numBuffers + 1 = _
      rw [others, List.length_append, ← keeps.count, List.length_singleton]
    · show _ = _ ++ [some (List.map some (a.arena.nalloc numaAllocLocal size).allocator.otherBuffers)]
      rw [others]
  · rw [if_neg full] at others
    simp only [serve, if_neg full, Option.bind_eq_bind, Option.bind_some]
    refine ⟨_, rfl, buffers, keeps.filled, keeps.unfreed, ?_, ?_⟩
    · show a.numBuffers = _
      rw [others]
      exact keeps.count
    · show _ ∨ ∃ last, _ ∧ _ ∧
        a.arrays = _ ++ [some (List.map some (a.arena.nalloc numaAllocLocal size).allocator.otherBuffers)]
      rw [others]
      exact keeps.arrays

theorem serve_buffers (numaAllocLocal : Nat → Nat) (arena : Arena) (request : Request)
    (other : ∀ size, request ≠ .nalloc size) :
    (arena.serve numaAllocLocal request).allocator.bufSize = arena.allocator.bufSize ∧
      (arena.serve numaAllocLocal request).allocator.bufStart = arena.allocator.bufStart ∧
      (arena.serve numaAllocLocal request).allocator.otherBuffers =
        arena.allocator.otherBuffers := by
  cases request with
  | nalloc size => exact absurd rfl (other size)
  | write index offset byte =>
      unfold Arena.serve
      simp only
      split
      · split
        · exact ⟨rfl, rfl, rfl⟩
        · exact ⟨rfl, rfl, rfl⟩
      · exact ⟨rfl, rfl, rfl⟩
  | nfree index =>
      unfold Arena.serve
      simp only
      split
      · rename_i block held
        show _ = _ ∧ _ = _ ∧ _ = _
        unfold Arena.nfree
        simp only
        split
        · exact ⟨rfl, rfl, rfl⟩
        · exact ⟨rfl, rfl, rfl⟩
      · exact ⟨rfl, rfl, rfl⟩

theorem Keeps.other (keeps : Keeps numaAllocLocal ssize a) (request : Request)
    (other : ∀ size, request ≠ .nalloc size) :
    Keeps numaAllocLocal ssize { a with arena := a.arena.serve numaAllocLocal request } := by
  obtain ⟨size, start, others⟩ := serve_buffers numaAllocLocal a.arena request other
  refine ⟨⟨size.trans keeps.buffers.size, ?_⟩, keeps.filled, keeps.unfreed, ?_, ?_⟩
  · show (a.arena.serve numaAllocLocal request).regions = _
    rw [Arena.regions, others, start]
    exact keeps.buffers.regions
  · show a.numBuffers = (a.arena.serve numaAllocLocal request).allocator.otherBuffers.length
    rw [others]
    exact keeps.count
  · show _ ∨ ∃ last, _ ∧ _ ∧ a.arrays = _ ++
      [some ((a.arena.serve numaAllocLocal request).allocator.otherBuffers.map some)]
    rw [others]
    exact keeps.arrays

theorem Keeps.serve (keeps : Keeps numaAllocLocal ssize a) (request : Request) :
    ∃ after, a.serve numaAllocLocal request = some after ∧ Keeps numaAllocLocal ssize after := by
  cases request with
  | nalloc size => exact keeps.nalloc size
  | write index offset byte => exact ⟨_, rfl, keeps.other _ (by simp)⟩
  | nfree index => exact ⟨_, rfl, keeps.other _ (by simp)⟩

theorem Keeps.run (keeps : Keeps numaAllocLocal ssize a) (requests : List Request) :
    ∃ after, Runs.run (fun state request => state.bind fun a => a.serve numaAllocLocal request)
      (some a) requests = some after ∧ Keeps numaAllocLocal ssize after := by
  induction requests generalizing a with
  | nil => exact ⟨a, rfl, keeps⟩
  | cons request rest ih =>
      obtain ⟨next, served, nextKeeps⟩ := keeps.serve request
      obtain ⟨after, run, afterKeeps⟩ := ih nextKeeps
      refine ⟨after, ?_, afterKeeps⟩
      show Runs.run _ ((some a).bind _) rest = some after
      rw [Option.bind_some, served]
      exact run

theorem Keeps.nreset (keeps : Keeps numaAllocLocal ssize a) :
    ∃ after, a.nreset = some after ∧ after.empty = true ∧
      after.freed = (a.arena.allocator.otherBuffers.reverse ++ [a.arena.allocator.bufStart]).map
        (fun region => (region, ssize)) ∧
      ∀ bufs ∈ after.arrays, bufs = none := by
  have filled := keeps.filled
  have size := keeps.buffers.size
  have count := keeps.count
  rcases keeps.arrays with ⟨none, isNull, noArrays⟩ | ⟨last, more, isLast, arrays⟩
  · rw [none] at count
    have noOthers := List.length_eq_zero_iff.mp count.symm
    simp [ArrayArena.nreset, filled, isNull, noArrays, noOthers, keeps.unfreed, size]
  · have freed := Pointers.freeDown_returns a.arena.allocator.otherBuffers a.numBuffers
      (Nat.le_of_eq count)
    rw [count, List.take_length, ← count] at freed
    simp only [ArrayArena.nreset, filled, isLast, arrays, last_array, freed, Option.bind_eq_bind,
      Option.bind_some, free_last, keeps.unfreed, size]
    refine ⟨_, rfl, rfl, ?_, ?_⟩
    · simp
    · intro bufs member
      exact List.eq_of_mem_replicate member

/-- Whatever was asked of an allocator, its destructor hands each region that it obtained back
once, whole, and leaves none of its arrays; a second call does nothing. -/
theorem buffers_freed_once (numaAllocLocal : Nat → Nat) (ssize : Nat) (requests : List Request) :
    ∃ served reset, serveAll numaAllocLocal ssize requests = some served ∧
      served.nreset = some reset ∧
      reset.freed.Perm ((List.range (served.arena.allocator.otherBuffers.length + 1)).map
        fun obtained => (numaAllocLocal obtained, ssize)) ∧
      (∀ bufs ∈ reset.arrays, bufs = none) ∧
      reset.nreset = some reset := by
  obtain ⟨served, run, keeps⟩ := (keeps_new numaAllocLocal ssize).run requests
  obtain ⟨reset, after, empty, freed, arrays⟩ := keeps.nreset
  refine ⟨served, reset, run, after, ?_, arrays, ?_⟩
  · have regions := congrArg (List.map fun region => (region, ssize)) keeps.buffers.regions
    rw [List.map_map] at regions
    rw [freed]
    refine List.Perm.trans ?_ (List.Perm.of_eq regions)
    exact ((List.reverse_perm _).append_right _).map _
  · rw [ArrayArena.nreset, empty]
    rfl

end ArrayArena

end Hosk
