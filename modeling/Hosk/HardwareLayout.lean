import Mathlib.Data.List.Nodup
import Mathlib.Data.Nat.Basic
import Mathlib.Data.Set.Function
import Mathlib.Tactic.Ring

/-!
`get_hardware_layout`, which numbers the hardware threads by socket and core, and the loop in which
`main` hands a core to each enclave.
-/

namespace Hosk

def threadsPerCore : Nat := 2

def appIdx : Nat := 0

def hlpIdx : Nat := 1

structure Lscpu where
  hyperthread : Bool
  threads : Nat
  sockets : Nat
  cores : Nat
  cpus : Nat
  deriving DecidableEq, Repr

-- machine->sockets[socket].cores[core].hwthread_id[thread] = id
structure SlotWrite where
  socket : Nat
  core : Nat
  thread : Nat
  id : Nat
  deriving DecidableEq, Repr

/-- The arrays as they are filled, the stores in their order. -/
structure HardwareLayout where
  numSockets : Nat
  coresPerSocket : Nat
  maxCpuNum : Nat
  writes : List SlotWrite
  deriving DecidableEq, Repr

inductive LayoutFailure where
  | exit (message : String)
  | outside
  deriving DecidableEq, Repr

namespace HardwareLayout

/-- What the last store has put there, if the place is in the arrays and not as `malloc` left it. -/
def hwthreadId (layout : HardwareLayout) (socket core thread : Nat) : Option Nat :=
  if socket < layout.numSockets ∧ core < layout.coresPerSocket ∧ thread < threadsPerCore then
    (layout.writes.reverse.find? fun write =>
      write.socket = socket ∧ write.core = core ∧ write.thread = thread).map SlotWrite.id
  else none

/-- Each place of the arrays is stored to once, no store is outside them, and each hardware thread
gets one place. -/
structure WrittenOnce (layout : HardwareLayout) : Prop where
  inside : ∀ write ∈ layout.writes, write.socket < layout.numSockets ∧
    write.core < layout.coresPerSocket ∧ write.thread < threadsPerCore
  once : ∀ socket core thread, socket < layout.numSockets → core < layout.coresPerSocket →
    thread < threadsPerCore →
    layout.writes.filter (fun write => write.socket = socket ∧ write.core = core ∧ write.thread = thread) =
      [⟨socket, core, thread,
        thread * layout.numSockets * layout.coresPerSocket + socket * layout.coresPerSocket + core⟩]
  bijective : Set.BijOn (fun slot : Nat × Nat × Nat => layout.hwthreadId slot.1 slot.2.1 slot.2.2)
    {slot | slot.1 < layout.numSockets ∧ slot.2.1 < layout.coresPerSocket ∧ slot.2.2 < threadsPerCore}
    (Set.image some (Set.Iio (layout.numSockets * layout.coresPerSocket * threadsPerCore)))

end HardwareLayout

structure LayoutLoop where
  csocket : Nat
  ccore : Nat
  cphysical : Nat
  writes : List SlotWrite
  deriving DecidableEq, Repr

namespace LayoutLoop

def start : LayoutLoop := ⟨0, 0, 0, []⟩

def advance (sockets cores : Nat) (state : LayoutLoop) : LayoutLoop :=
  if (state.ccore + 1) % cores = 0 then
    if (state.csocket + 1) % sockets = 0 then
      { state with ccore := 0, csocket := 0, cphysical := state.cphysical + 1 }
    else { state with ccore := 0, csocket := state.csocket + 1 }
  else { state with ccore := state.ccore + 1 }

def turn (sockets cores numHwCpus : Nat) (state : LayoutLoop) (pnum : Nat) :
    Except LayoutFailure LayoutLoop :=
  if state.csocket < sockets ∧ state.ccore < cores ∧ state.cphysical < threadsPerCore then
    let state := { state with
      writes := state.writes ++ [⟨state.csocket, state.ccore, state.cphysical, pnum⟩] }
    let state := advance sockets cores state
    if state.cphysical = threadsPerCore ∧ pnum + 1 < numHwCpus then
      .error (.exit "ERROR: More CPUs than calculated!")
    else .ok state
  else .error .outside

def fill (sockets cores numHwCpus : Nat) : Nat → Except LayoutFailure LayoutLoop
  | 0 => .ok start
  | pnum + 1 => do
      let state ← fill sockets cores numHwCpus pnum
      turn sockets cores numHwCpus state pnum

end LayoutLoop

-- std::stoi throws before the loop if the machine has more CPUs than an int counts, so the ints of the
-- loop do not wrap around
def getHardwareLayout (lscpu : Lscpu) : Except LayoutFailure HardwareLayout :=
  if lscpu.hyperthread = false ∨ lscpu.threads ≠ threadsPerCore then
    .error (.exit "ERROR: HyperThreading not enabled!")
  else
    let numHwCpus := lscpu.sockets * lscpu.cores * lscpu.threads
    if numHwCpus ≠ lscpu.cpus then
      .error (.exit "ERROR: lscpu parse issue - CPU numbers don't match!")
    else do
      let filled ← LayoutLoop.fill lscpu.sockets lscpu.cores numHwCpus numHwCpus
      .ok ⟨lscpu.sockets, lscpu.cores, lscpu.cpus, filled.writes⟩

def twoPerCore (sockets cores : Nat) : Lscpu := ⟨true, 2, sockets, cores, sockets * cores * 2⟩

/-- The socket and the core that `main` hands to each of its enclaves. -/
def assignCores (numSockets : Nat) : Nat → Nat → Nat → List (Nat × Nat)
  | 0, _, _ => []
  | count + 1, sockId, coreId =>
      (sockId, coreId) ::
        if sockId + 1 = numSockets then assignCores numSockets count 0 (coreId + 1)
        else assignCores numSockets count (sockId + 1) coreId

def enclaveThreads (layout : HardwareLayout) : List (Nat × Nat) → Option (List Nat)
  | [] => some []
  | (sock, core) :: rest => do
      let app ← layout.hwthreadId sock core appIdx
      let hlp ← layout.hwthreadId sock core hlpIdx
      let others ← enclaveThreads layout rest
      some (app :: hlp :: others)

section Filling

variable {sockets cores : Nat}

def slotOf (sockets cores pnum : Nat) : SlotWrite :=
  ⟨pnum / cores % sockets, pnum % cores, pnum / cores / sockets, pnum⟩

theorem slotOf_digits {socket core : Nat} (thread : Nat) (socketBound : socket < sockets)
    (coreBound : core < cores) : slotOf sockets cores ((thread * sockets + socket) * cores + core) =
      ⟨socket, core, thread, (thread * sockets + socket) * cores + core⟩ := by
  have quotient : ((thread * sockets + socket) * cores + core) / cores =
      thread * sockets + socket := by
    rw [Nat.add_comm, Nat.add_mul_div_right _ _ (Nat.zero_lt_of_lt coreBound),
      Nat.div_eq_of_lt coreBound, Nat.zero_add]
  have remainder : ((thread * sockets + socket) * cores + core) % cores = core := by
    rw [Nat.add_comm, Nat.add_mul_mod_self_right, Nat.mod_eq_of_lt coreBound]
  have upper : (thread * sockets + socket) / sockets = thread := by
    rw [Nat.add_comm, Nat.add_mul_div_right _ _ (Nat.zero_lt_of_lt socketBound),
      Nat.div_eq_of_lt socketBound, Nat.zero_add]
  have lower : (thread * sockets + socket) % sockets = socket := by
    rw [Nat.add_comm, Nat.add_mul_mod_self_right, Nat.mod_eq_of_lt socketBound]
  rw [slotOf, quotient, remainder, upper, lower]

theorem slotOf_number (pnum : Nat) : ((slotOf sockets cores pnum).thread * sockets +
    (slotOf sockets cores pnum).socket) * cores + (slotOf sockets cores pnum).core = pnum := by
  dsimp only [slotOf]
  rw [Nat.div_add_mod', Nat.div_add_mod']

theorem slotOf_injective : Function.Injective (slotOf sockets cores) :=
  fun _ _ same => congrArg SlotWrite.id same

theorem slotOf_inside {pnum : Nat} (bound : pnum < sockets * cores * threadsPerCore) :
    (slotOf sockets cores pnum).socket < sockets ∧ (slotOf sockets cores pnum).core < cores ∧
      (slotOf sockets cores pnum).thread < threadsPerCore := by
  have positive : 0 < sockets * cores := Nat.pos_of_mul_pos_right (Nat.zero_lt_of_lt bound)
  have socketsPositive := Nat.pos_of_mul_pos_right positive
  have coresPositive := Nat.pos_of_mul_pos_left positive
  refine ⟨Nat.mod_lt _ socketsPositive, Nat.mod_lt _ coresPositive, ?_⟩
  dsimp only [slotOf]
  rw [Nat.div_div_eq_div_mul, Nat.div_lt_iff_lt_mul (Nat.mul_pos coresPositive socketsPositive)]
  calc pnum < sockets * cores * threadsPerCore := bound
    _ = threadsPerCore * (cores * sockets) := by ring

theorem number_lt {socket core thread : Nat} (socketBound : socket < sockets) (coreBound : core < cores)
    (threadBound : thread < threadsPerCore) :
    (thread * sockets + socket) * cores + core < sockets * cores * threadsPerCore := by
  calc (thread * sockets + socket) * cores + core
      < (thread * sockets + socket + 1) * cores := by
        rw [Nat.add_one_mul]
        omega
    _ ≤ (thread + 1) * sockets * cores := by
        apply Nat.mul_le_mul_right
        rw [Nat.add_one_mul]
        omega
    _ ≤ threadsPerCore * sockets * cores := by
        apply Nat.mul_le_mul_right
        exact Nat.mul_le_mul_right _ threadBound
    _ = sockets * cores * threadsPerCore := by ring

/-- The counters are the digits of the number of turns so far. -/
structure Counted (sockets cores pnum : Nat) (state : LayoutLoop) : Prop where
  socket : state.csocket < sockets
  core : state.ccore < cores
  digits : pnum = (state.cphysical * sockets + state.csocket) * cores + state.ccore
  writes : state.writes = (List.range pnum).map (slotOf sockets cores)

theorem Counted.advance {pnum : Nat} {state : LayoutLoop} (counted : Counted sockets cores pnum state) :
    Counted sockets cores (pnum + 1) (LayoutLoop.advance sockets cores { state with
      writes := state.writes ++ [⟨state.csocket, state.ccore, state.cphysical, pnum⟩] }) := by
  obtain ⟨socket, core, digits, writes⟩ := counted
  have written : state.writes ++ [⟨state.csocket, state.ccore, state.cphysical, pnum⟩] =
      (List.range (pnum + 1)).map (slotOf sockets cores) := by
    rw [List.range_succ, List.map_append, ← writes]
    have here := slotOf_digits state.cphysical socket core
    rw [← digits] at here
    rw [List.map_singleton, here]
  unfold LayoutLoop.advance
  rw [written]
  by_cases lastCore : state.ccore + 1 = cores
  · rw [if_pos (by rw [lastCore, Nat.mod_self])]
    by_cases lastSocket : state.csocket + 1 = sockets
    · rw [if_pos (by rw [lastSocket, Nat.mod_self])]
      refine ⟨Nat.zero_lt_of_lt socket, Nat.zero_lt_of_lt core, ?_, rfl⟩
      dsimp only
      rw [digits, ← lastCore, ← lastSocket]
      ring
    · have notLast : ¬ (state.csocket + 1) % sockets = 0 := by
        rw [Nat.mod_eq_of_lt (by omega)]
        omega
      rw [if_neg notLast]
      refine ⟨?_, Nat.zero_lt_of_lt core, ?_, rfl⟩
      · dsimp only
        omega
      · dsimp only
        rw [digits, ← lastCore]
        ring
  · have notLast : ¬ (state.ccore + 1) % cores = 0 := by
      rw [Nat.mod_eq_of_lt (by omega)]
      omega
    rw [if_neg notLast]
    refine ⟨socket, ?_, ?_, rfl⟩
    · dsimp only
      omega
    · dsimp only
      omega

theorem Counted.physical {pnum : Nat} {state : LayoutLoop} (counted : Counted sockets cores pnum state)
    (bound : pnum < sockets * cores * threadsPerCore) : state.cphysical < threadsPerCore := by
  by_contra high
  have least := Nat.mul_le_mul_right (sockets * cores) (Nat.le_of_not_lt high)
  have digits := counted.digits
  have expanded : (state.cphysical * sockets + state.csocket) * cores + state.ccore =
      state.cphysical * (sockets * cores) + (state.csocket * cores + state.ccore) := by ring
  rw [expanded] at digits
  rw [Nat.mul_comm threadsPerCore] at least
  omega

theorem fill_counted (socketsPositive : 0 < sockets) (coresPositive : 0 < cores) : ∀ pnum,
    pnum ≤ sockets * cores * threadsPerCore → ∃ state,
      LayoutLoop.fill sockets cores (sockets * cores * threadsPerCore) pnum = .ok state ∧
        Counted sockets cores pnum state := by
  intro pnum
  induction pnum with
  | zero => exact fun _ => ⟨.start, rfl, socketsPositive, coresPositive, by simp [LayoutLoop.start], rfl⟩
  | succ pnum ih =>
      intro bound
      obtain ⟨state, filled, counted⟩ := ih (Nat.le_of_succ_le bound)
      have inRange := counted.physical bound
      have later := counted.advance
      refine ⟨_, ?_, later⟩
      have goesOn : ¬ ((LayoutLoop.advance sockets cores { state with
          writes := state.writes ++ [⟨state.csocket, state.ccore, state.cphysical, pnum⟩] }).cphysical =
            threadsPerCore ∧ pnum + 1 < sockets * cores * threadsPerCore) :=
        fun more => Nat.ne_of_lt (later.physical more.2) more.1
      rw [LayoutLoop.fill, filled]
      simp only [bind, Except.bind, LayoutLoop.turn, counted.socket, counted.core, inRange, true_and,
        if_true, if_neg goesOn]

theorem fill_ends (socketsPositive : 0 < sockets) (coresPositive : 0 < cores) :
    LayoutLoop.fill sockets cores (sockets * cores * threadsPerCore) (sockets * cores * threadsPerCore) =
      .ok ⟨0, 0, threadsPerCore,
        (List.range (sockets * cores * threadsPerCore)).map (slotOf sockets cores)⟩ := by
  obtain ⟨⟨csocket, ccore, cphysical, writes⟩, filled, counted⟩ :=
    fill_counted socketsPositive coresPositive _ (Nat.le_refl (sockets * cores * threadsPerCore))
  have total : (threadsPerCore * sockets + 0) * cores + 0 =
      (cphysical * sockets + csocket) * cores + ccore := by
    rw [← counted.digits]
    ring
  have reached := slotOf_digits threadsPerCore socketsPositive coresPositive
  rw [total, slotOf_digits cphysical counted.socket counted.core] at reached
  obtain ⟨rfl, rfl, rfl, _⟩ := SlotWrite.mk.inj reached
  rw [filled, ← counted.writes]

/-- No turn stores outside the arrays or exits. -/
theorem turn_inside (socketsPositive : 0 < sockets) (coresPositive : 0 < cores) {pnum : Nat}
    (bound : pnum < sockets * cores * threadsPerCore) : ∃ state later,
      LayoutLoop.fill sockets cores (sockets * cores * threadsPerCore) pnum = .ok state ∧
      (state.csocket < sockets ∧ state.ccore < cores ∧ state.cphysical < threadsPerCore) ∧
      LayoutLoop.turn sockets cores (sockets * cores * threadsPerCore) state pnum = .ok later := by
  obtain ⟨state, filled, counted⟩ := fill_counted socketsPositive coresPositive pnum (Nat.le_of_lt bound)
  obtain ⟨later, turned, _⟩ := fill_counted socketsPositive coresPositive (pnum + 1) bound
  rw [LayoutLoop.fill, filled] at turned
  exact ⟨state, later, filled, ⟨counted.socket, counted.core, counted.physical bound⟩, turned⟩

theorem filter_unique {α : Type} {items : List α} {test : α → Bool} (nodup : items.Nodup) (item : α)
    (member : item ∈ items) (passes : test item = true)
    (unique : ∀ other ∈ items, test other = true → other = item) : items.filter test = [item] := by
  have same : ∀ other, other ∈ items.filter test ↔ other ∈ [item] := by
    intro other
    rw [List.mem_filter, List.mem_singleton]
    constructor
    · rintro ⟨inItems, passesToo⟩
      exact unique other inItems passesToo
    · rintro rfl
      exact ⟨member, passes⟩
  exact List.perm_singleton.mp
    ((List.perm_ext_iff_of_nodup (nodup.filter test) (List.nodup_singleton item)).mpr same)

theorem slots_once {socket core thread : Nat} (socketBound : socket < sockets) (coreBound : core < cores)
    (threadBound : thread < threadsPerCore) :
    ((List.range (sockets * cores * threadsPerCore)).map (slotOf sockets cores)).filter (fun write =>
      write.socket = socket ∧ write.core = core ∧ write.thread = thread) =
        [⟨socket, core, thread, (thread * sockets + socket) * cores + core⟩] := by
  have here := slotOf_digits thread socketBound coreBound
  apply filter_unique (List.nodup_range.map slotOf_injective)
  · rw [← here]
    exact List.mem_map_of_mem (List.mem_range.mpr (number_lt socketBound coreBound threadBound))
  · simp
  · intro other member matched
    obtain ⟨pnum, _, rfl⟩ := List.mem_map.mp member
    obtain ⟨isSocket, isCore, isThread⟩ : (slotOf sockets cores pnum).socket = socket ∧
        (slotOf sockets cores pnum).core = core ∧ (slotOf sockets cores pnum).thread = thread :=
      of_decide_eq_true matched
    have number := @slotOf_number sockets cores pnum
    rw [isSocket, isCore, isThread] at number
    rw [← here, number]

theorem hwthreadId_filled {layout : HardwareLayout} {socket core thread : Nat}
    (writes : layout.writes = (List.range (layout.numSockets * layout.coresPerSocket *
      threadsPerCore)).map (slotOf layout.numSockets layout.coresPerSocket))
    (socketBound : socket < layout.numSockets) (coreBound : core < layout.coresPerSocket)
    (threadBound : thread < threadsPerCore) :
    layout.hwthreadId socket core thread =
      some ((thread * layout.numSockets + socket) * layout.coresPerSocket + core) := by
  rw [HardwareLayout.hwthreadId, if_pos ⟨socketBound, coreBound, threadBound⟩, ← List.head?_filter,
    List.filter_reverse, writes, slots_once socketBound coreBound threadBound]
  rfl

theorem hwthreadId_bijective {layout : HardwareLayout}
    (writes : layout.writes = (List.range (layout.numSockets * layout.coresPerSocket *
      threadsPerCore)).map (slotOf layout.numSockets layout.coresPerSocket)) :
    Set.BijOn (fun slot : Nat × Nat × Nat => layout.hwthreadId slot.1 slot.2.1 slot.2.2)
      {slot | slot.1 < layout.numSockets ∧ slot.2.1 < layout.coresPerSocket ∧ slot.2.2 < threadsPerCore}
      (Set.image some (Set.Iio (layout.numSockets * layout.coresPerSocket * threadsPerCore))) := by
  refine ⟨?_, ?_, ?_⟩
  · rintro ⟨socket, core, thread⟩ ⟨socketBound, coreBound, threadBound⟩
    exact ⟨_, number_lt socketBound coreBound threadBound,
      (hwthreadId_filled writes socketBound coreBound threadBound).symm⟩
  · rintro ⟨socket, core, thread⟩ ⟨socketBound, coreBound, threadBound⟩ ⟨socket', core', thread'⟩
      ⟨socketBound', coreBound', threadBound'⟩ same
    dsimp only at same
    rw [hwthreadId_filled writes socketBound coreBound threadBound,
      hwthreadId_filled writes socketBound' coreBound' threadBound', Option.some_inj] at same
    have slots := slotOf_digits thread socketBound coreBound
    rw [same, slotOf_digits thread' socketBound' coreBound'] at slots
    obtain ⟨isSocket, isCore, isThread, _⟩ := SlotWrite.mk.inj slots
    exact Prod.ext isSocket.symm (Prod.ext isCore.symm isThread.symm)
  · rintro _ ⟨pnum, bound, rfl⟩
    obtain ⟨socketBound, coreBound, threadBound⟩ := slotOf_inside bound
    refine ⟨(_, _, _), ⟨socketBound, coreBound, threadBound⟩, ?_⟩
    dsimp only
    rw [hwthreadId_filled writes socketBound coreBound threadBound, slotOf_number]

end Filling

theorem getHardwareLayout_filled {sockets cores : Nat} (socketsPositive : 0 < sockets)
    (coresPositive : 0 < cores) : getHardwareLayout (twoPerCore sockets cores) =
      .ok ⟨sockets, cores, sockets * cores * threadsPerCore,
        (List.range (sockets * cores * threadsPerCore)).map (slotOf sockets cores)⟩ := by
  have filled := fill_ends socketsPositive coresPositive
  dsimp only [threadsPerCore] at filled
  simp only [getHardwareLayout, twoPerCore, threadsPerCore, Bool.true_eq_false, ne_eq,
    not_true_eq_false, or_self, if_false, filled, bind, Except.bind]

/-- The loop that numbers the hardware threads stores to each place once, in the arrays and with the
number that thread, socket and core spell. It does not exit, though the thread counter ends one past
its range. -/
theorem layout_bijective {sockets cores : Nat} (socketsPositive : 1 ≤ sockets)
    (coresPositive : 1 ≤ cores) : ∃ layout, getHardwareLayout (twoPerCore sockets cores) = .ok layout ∧
      layout.numSockets = sockets ∧ layout.coresPerSocket = cores ∧ layout.WrittenOnce ∧
      (∀ pnum < sockets * cores * threadsPerCore, ∃ state later,
        LayoutLoop.fill sockets cores (sockets * cores * threadsPerCore) pnum = .ok state ∧
        (state.csocket < sockets ∧ state.ccore < cores ∧ state.cphysical < threadsPerCore) ∧
        LayoutLoop.turn sockets cores (sockets * cores * threadsPerCore) state pnum = .ok later) ∧
      LayoutLoop.fill sockets cores (sockets * cores * threadsPerCore)
        (sockets * cores * threadsPerCore) = .ok ⟨0, 0, threadsPerCore, layout.writes⟩ := by
  refine ⟨_, getHardwareLayout_filled socketsPositive coresPositive, rfl, rfl, ⟨?_, ?_, ?_⟩,
    fun pnum bound => turn_inside socketsPositive coresPositive bound,
    fill_ends socketsPositive coresPositive⟩
  · intro write member
    obtain ⟨pnum, inRange, rfl⟩ := List.mem_map.mp member
    exact slotOf_inside (List.mem_range.mp inRange)
  · intro socket core thread socketBound coreBound threadBound
    rw [← Nat.add_mul]
    exact slots_once socketBound coreBound threadBound
  · exact hwthreadId_bijective rfl

theorem sixCores_layout : ∃ layout, getHardwareLayout (twoPerCore 2 3) = .ok layout ∧
    layout.numSockets = 2 ∧ layout.coresPerSocket = 3 ∧ layout.WrittenOnce ∧
    (∀ pnum < 2 * 3 * threadsPerCore, ∃ state later,
      LayoutLoop.fill 2 3 (2 * 3 * threadsPerCore) pnum = .ok state ∧
      (state.csocket < 2 ∧ state.ccore < 3 ∧ state.cphysical < threadsPerCore) ∧
      LayoutLoop.turn 2 3 (2 * 3 * threadsPerCore) state pnum = .ok later) ∧
    LayoutLoop.fill 2 3 (2 * 3 * threadsPerCore) (2 * 3 * threadsPerCore) =
      .ok ⟨0, 0, threadsPerCore, layout.writes⟩ :=
  layout_bijective (by decide) (by decide)

section Assignment

theorem assignCores_eq (numSockets count : Nat) : ∀ sockId coreId, sockId < numSockets →
    assignCores numSockets count sockId coreId = (List.range' (coreId * numSockets + sockId) count).map
      fun index => (index % numSockets, index / numSockets) := by
  induction count with
  | zero => exact fun _ _ _ => rfl
  | succ count ih =>
      intro sockId coreId bound
      have remainder : (coreId * numSockets + sockId) % numSockets = sockId := by
        rw [Nat.add_comm, Nat.add_mul_mod_self_right, Nat.mod_eq_of_lt bound]
      have quotient : (coreId * numSockets + sockId) / numSockets = coreId := by
        rw [Nat.add_comm, Nat.add_mul_div_right _ _ (Nat.zero_lt_of_lt bound), Nat.div_eq_of_lt bound,
          Nat.zero_add]
      rw [assignCores, List.range'_succ, List.map_cons, remainder, quotient]
      congr 1
      split
      · rename_i last
        have next : (coreId + 1) * numSockets + 0 = coreId * numSockets + sockId + 1 := by
          rw [Nat.add_one_mul]
          omega
        rw [ih 0 (coreId + 1) (Nat.zero_lt_of_lt bound), next]
      · exact ih (sockId + 1) coreId (by omega)

def coreThreads (sockets cores : Nat) (pair : Nat × Nat) : List Nat :=
  [(appIdx * sockets + pair.1) * cores + pair.2, (hlpIdx * sockets + pair.1) * cores + pair.2]

theorem enclaveThreads_filled {layout : HardwareLayout} {pairs : List (Nat × Nat)}
    (writes : layout.writes = (List.range (layout.numSockets * layout.coresPerSocket *
      threadsPerCore)).map (slotOf layout.numSockets layout.coresPerSocket))
    (inside : ∀ pair ∈ pairs, pair.1 < layout.numSockets ∧ pair.2 < layout.coresPerSocket) :
    enclaveThreads layout pairs =
      some (pairs.flatMap (coreThreads layout.numSockets layout.coresPerSocket)) := by
  induction pairs with
  | nil => rfl
  | cons pair rest ih =>
      obtain ⟨socketBound, coreBound⟩ := inside pair List.mem_cons_self
      have app := hwthreadId_filled writes socketBound coreBound (by decide : appIdx < threadsPerCore)
      have hlp := hwthreadId_filled writes socketBound coreBound (by decide : hlpIdx < threadsPerCore)
      have later := ih fun other member => inside other (List.mem_cons_of_mem _ member)
      simp only [enclaveThreads, app, hlp, later, Option.bind_eq_bind, Option.bind_some]
      rfl

theorem coreThreads_slot {sockets cores id : Nat} {pair : Nat × Nat} (socketBound : pair.1 < sockets)
    (coreBound : pair.2 < cores) (member : id ∈ coreThreads sockets cores pair) :
    ((slotOf sockets cores id).socket, (slotOf sockets cores id).core) = pair := by
  unfold coreThreads at member
  rcases List.mem_cons.mp member with rfl | again
  · rw [slotOf_digits _ socketBound coreBound]
  · rw [List.mem_singleton.mp again, slotOf_digits _ socketBound coreBound]

theorem coreThreads_nodup {sockets cores : Nat} {pair : Nat × Nat} (socketBound : pair.1 < sockets)
    (coreBound : pair.2 < cores) : (coreThreads sockets cores pair).Nodup := by
  unfold coreThreads
  rw [List.nodup_cons, List.mem_singleton]
  refine ⟨fun same => ?_, List.nodup_singleton _⟩
  have slots := congrArg (fun id => (slotOf sockets cores id).thread) same
  simp only [slotOf_digits _ socketBound coreBound] at slots
  exact absurd slots (by decide)

end Assignment

/-- Each enclave's core is in the arrays, and no hardware thread is given to two enclaves. -/
def HardwareLayout.SafelyAssigned (layout : HardwareLayout) (nbThreads : Nat) : Prop :=
  let pairs := assignCores layout.numSockets nbThreads 0 0
  (∀ pair ∈ pairs, pair.1 < layout.numSockets ∧ pair.2 < layout.coresPerSocket) ∧
    ∃ ids, enclaveThreads layout pairs = some ids ∧ ids.Nodup

/-- The enclaves get hardware threads of their own exactly if there are as many as `main` asks for
in its test, which it does not act on. -/
theorem cores_distinct_iff_enough {sockets cores : Nat} (socketsPositive : 1 ≤ sockets)
    (coresPositive : 1 ≤ cores) : ∃ layout, getHardwareLayout (twoPerCore sockets cores) = .ok layout ∧
      ∀ nbThreads, layout.SafelyAssigned nbThreads ↔ nbThreads * 2 ≤ layout.maxCpuNum := by
  refine ⟨_, getHardwareLayout_filled socketsPositive coresPositive, fun nbThreads => ?_⟩
  have pairs := assignCores_eq sockets nbThreads 0 0 socketsPositive
  rw [Nat.zero_mul, Nat.zero_add, ← List.range_eq_range'] at pairs
  unfold HardwareLayout.SafelyAssigned
  simp only [pairs]
  constructor
  · rintro ⟨inside, _⟩
    by_contra tooMany
    have member : sockets * cores ∈ List.range nbThreads := by
      rw [List.mem_range]
      unfold threadsPerCore at tooMany
      omega
    have bound := (inside _ (List.mem_map_of_mem member)).2
    rw [Nat.mul_div_cancel_left _ socketsPositive] at bound
    exact Nat.lt_irrefl _ bound
  · intro enough
    have inside : ∀ pair ∈ (List.range nbThreads).map fun index => (index % sockets, index / sockets),
        pair.1 < sockets ∧ pair.2 < cores := by
      intro pair member
      obtain ⟨index, inRange, rfl⟩ := List.mem_map.mp member
      refine ⟨Nat.mod_lt _ socketsPositive, Nat.div_lt_of_lt_mul ?_⟩
      have bound := List.mem_range.mp inRange
      unfold threadsPerCore at enough
      omega
    refine ⟨inside, _, enclaveThreads_filled rfl inside, ?_⟩
    rw [List.nodup_flatMap]
    refine ⟨fun pair member => coreThreads_nodup (inside pair member).1 (inside pair member).2, ?_⟩
    rw [List.pairwise_map]
    refine List.nodup_range.imp_of_mem ?_
    intro first second firstIn secondIn different id inFirst inSecond
    have firstBound := inside _ (List.mem_map_of_mem firstIn)
    have secondBound := inside _ (List.mem_map_of_mem secondIn)
    have same := (coreThreads_slot firstBound.1 firstBound.2 inFirst).symm.trans
      (coreThreads_slot secondBound.1 secondBound.2 inSecond)
    obtain ⟨remainders, quotients⟩ := Prod.mk.inj same
    apply different
    rw [← Nat.div_add_mod first sockets, quotients, remainders, Nat.div_add_mod]

theorem sixCores_distinct : ∃ layout, getHardwareLayout (twoPerCore 2 3) = .ok layout ∧
    ∀ nbThreads, layout.SafelyAssigned nbThreads ↔ nbThreads * 2 ≤ layout.maxCpuNum :=
  cores_distinct_iff_enough (by decide) (by decide)

/-- Two enclaves on a machine of one core: the second is given a core past the array. -/
theorem oneCore_outside : ∃ layout, getHardwareLayout (twoPerCore 1 1) = .ok layout ∧
    ¬ layout.SafelyAssigned 2 := by
  refine ⟨_, rfl, ?_⟩
  rintro ⟨inside, _⟩
  exact absurd (inside (0, 1) (by decide)).2 (by decide)

end Hosk
