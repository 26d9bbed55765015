import Hosk.IndexInvariant
import Hosk.SystemLinearizable
import Hosk.TraversalAgreement

/-!
What a helper knows while the program runs: a beginning of the updates of its own application thread,
and nothing else. `intermed_layer_size` counts it.
-/

namespace Hosk

open Linearizability

namespace Enclave

def intermedLayerSizeLoop (e : Enclave) : Nat → Nat → Nat → Option Nat
  | 0, _, _ => none
  | fuel + 1, m, size =>
      if m = 0 then some size
      else do
        let mnode ← e.mnode m
        intermedLayerSizeLoop e fuel mnode.next (if mnode.marked = false then size + 1 else size)

def intermedLayerSize (e : Enclave) (head : Nat) : Option Nat :=
  e.intermedLayerSizeLoop (e.mnodes.length + 1) head 0

/-- The intermediate layer as the keys of its unmarked mnodes after the sentinel's, every mnode over a
data node of this kind. -/
def HoldsKeys (e : Enclave) (known : Nat → Prop) (keys : Finset Nat) : Prop :=
  ∃ sentinel height list, e.inode e.sentinel = some sentinel ∧
    Intermed e.mnodes e.nodes sentinel.intermed height list ∧ (∀ p ∈ list, known p.2.node) ∧
    ∀ key, key ∈ keys ↔ ∃ p ∈ list.tail, p.2.marked = false ∧ p.2.key = key

theorem intermedLayerSizeLoop_counts {e : Enclave} {base height : Nat} {list : List (Nat × Entry)}
    (ok : Intermed e.mnodes e.nodes base height list) (rest : List (Nat × Entry)) :
    ∀ before fuel size, list = before ++ rest → rest.length < fuel →
      e.intermedLayerSizeLoop fuel (firstOf rest) size =
        some (size + rest.countP fun p => p.2.marked = false) := by
  induction rest with
  | nil =>
      intro before fuel size _ bound
      cases fuel with
      | zero => exact absurd bound (Nat.not_lt_zero _)
      | succ fuel => rfl
  | cons p rest ih =>
      intro before fuel size split bound
      cases fuel with
      | zero => exact absurd bound (Nat.not_lt_zero _)
      | succ fuel =>
          have stored : e.mnode p.1 = some (p.2.at (firstOf rest)) := ok.at_split split
          have nonzero : p.1 ≠ 0 := ok.nonzero (by simp [split])
          have later := ih (before ++ [p]) fuel (if p.2.marked = false then size + 1 else size)
            (by simp [split]) (by simpa using bound)
          rw [intermedLayerSizeLoop, firstOf_cons, if_neg nonzero]
          simp only [stored, Option.bind_eq_bind, Option.bind_some, Entry.at, later, List.countP_cons]
          by_cases marked : p.2.marked = false <;> simp [marked]
          omega

theorem HoldsKeys.intermedLayerSize {e : Enclave} {known : Nat → Prop} {keys : Finset Nat}
    (holds : e.HoldsKeys known keys) : ∃ sentinel, e.inode e.sentinel = some sentinel ∧
      e.intermedLayerSize sentinel.intermed = some (keys.card + 1) := by
  obtain ⟨sentinel, height, list, found, ok, _, members⟩ := holds
  obtain ⟨node, rest, split⟩ := ok.first
  refine ⟨sentinel, found, ?_⟩
  have counted := intermedLayerSizeLoop_counts ok list [] (e.mnodes.length + 1) 0 rfl
    (Nat.lt_succ_of_le ok.length_le)
  have base : firstOf list = sentinel.intermed := by rw [split]; rfl
  rw [base] at counted
  rw [Enclave.intermedLayerSize, counted]
  have sameKeys : keys = ((rest.filter fun p => p.2.marked = false).map fun p => p.2.key).toFinset := by
    ext key
    rw [members, split, List.tail_cons]
    simp [and_assoc]
  have distinct : ((rest.filter fun p => p.2.marked = false).map fun p => p.2.key).Nodup := by
    have sorted := ok.sorted
    rw [split, List.pairwise_cons] at sorted
    exact List.pairwise_map.mpr ((sorted.2.filter _).imp Nat.ne_of_lt)
  rw [sameKeys, List.toFinset_card_of_nodup distinct, List.length_map, ← List.countP_eq_length_filter,
    split]
  simp

end Enclave

theorem after_snoc (keys : Finset Nat) (ops : List Operation) (op : Operation) :
    keySet.after keys (ops ++ [op]) = (keySet.apply op (keySet.after keys ops)).1 := by
  simp [SeqObject.after]

theorem mem_insert (wanted val : Nat) (keys : Finset Nat) (key : Nat) :
    key ∈ (keySet.apply ⟨.insert, wanted, val⟩ keys).1 ↔ key = wanted ∨ key ∈ keys := by
  by_cases there : wanted ∈ keys <;> simp [keySet, there]
  rintro rfl
  exact there

theorem mem_delete (wanted val : Nat) (keys : Finset Nat) (key : Nat) :
    key ∈ (keySet.apply ⟨.delete, wanted, val⟩ keys).1 ↔ key ≠ wanted ∧ key ∈ keys := by
  by_cases there : wanted ∈ keys <;> simp [keySet, there]
  rintro member rfl
  exact there member

theorem mem_after_told {nodes : Nodes} {linked : List Nat} {updates : List (Operation × Op)}
    (told : ∀ update ∈ updates, Told nodes linked update.1 update.2) (key : Nat) :
    key ∈ keySet.after ∅ (updates.map Prod.fst) ↔
      ∃ job, latestJob ((updates.map Prod.snd).map Op.job) key = some job ∧ job.node ≠ 0 := by
  induction updates using List.reverseRecOn with
  | nil => simp [SeqObject.after, latestJob]
  | append_singleton updates update ih =>
      have earlier := ih fun other member => told other (List.mem_append_left _ member)
      have last := told update (List.mem_append_right _ List.mem_cons_self)
      obtain ⟨⟨optype, wanted, val⟩, job⟩ := update
      have sameKey : job.key = wanted := last.key
      have inserts : job.node ≠ 0 ↔ optype = .insert := last.inserts
      rw [List.map_append, List.map_append, List.map_append]
      simp only [List.map_cons, List.map_nil]
      rw [after_snoc, latestJob_snoc]
      by_cases same : wanted = key
      · subst same
        have isKey : job.job.key = wanted := sameKey
        rw [if_pos isKey]
        cases optype with
        | contains => exact absurd rfl last.updates
        | insert =>
            rw [mem_insert]
            exact ⟨fun _ => ⟨job.job, rfl, inserts.mpr rfl⟩, fun _ => .inl rfl⟩
        | delete =>
            rw [mem_delete]
            refine ⟨fun wrong => absurd rfl wrong.1, ?_⟩
            rintro ⟨other, isLast, nonzero⟩
            obtain rfl := Option.some.inj isLast
            exact absurd (inserts.mp nonzero) (by decide)
      · have notKey : job.job.key ≠ key := fun isKey => same (sameKey.symm.trans isKey)
        rw [if_neg notKey, ← earlier]
        cases optype with
        | contains => exact absurd rfl last.updates
        | insert => simp [mem_insert, Ne.symm same]
        | delete => simp [mem_delete, Ne.symm same]

theorem SystemOk.helper_knows {machine : Machine} {s : System} {linked : List Nat}
    {inner : AtomicState (Finset Nat) Operation Nat} (ok : SystemOk machine s linked inner) (i : Nat) :
    ∃ e count, s.enclave i = some e ∧ count ≤ (s.updates i).length ∧
      (s.updates i).length ≤ count + machine.bufSize + 1 ∧
      (s.rings i).returned = ((s.updates i).take count).map Prod.snd ∧
      e.HoldsKeys (fun node => onList s.nodes s.nodes.length machine.head node)
        (keySet.after ∅ (((s.updates i).take count).map Prod.fst)) := by
  obtain ⟨e, l, isEnclave, repr, sourced, replays, _⟩ := ok.helpers i
  have pipe := ok.pipes i
  have short := pipe.returned_prefix.length_le
  rw [List.length_map] at short
  have taken : (s.rings i).returned = ((s.updates i).take (s.rings i).returned.length).map Prod.snd := by
    rw [List.map_take]
    exact List.prefix_iff_eq_take.mp pipe.returned_prefix
  refine ⟨{ e with nodes := s.nodes }, (s.rings i).returned.length, ?_, short, ?_, taken, ?_⟩
  · rw [System.enclave, isEnclave]
    rfl
  · have room := pipe.ringOk.room
    have sent := congrArg List.length pipe.sent
    have published := congrArg List.length pipe.ringOk.accepted
    have offered : (s.apps i).offered.length ≤ 1 := by cases s.apps i <;> simp [AppPc.offered]
    have leaving : (s.rings i).removing.taken ≤ 1 := by
      cases (s.rings i).removing <;> simp [RemovePc.taken]
    rw [List.length_map, List.length_append] at sent
    rw [List.length_append] at published
    rw [pipe.size, Ring.consumed] at room
    omega
  · obtain ⟨_, sentinel, _, _, _, found, _, isBase⟩ := repr.sentinel
    have list : ListOk machine.head s.nodes linked inner.value := ok.layer.list
    refine ⟨sentinel, l.rows.length, l.mnodes, found, isBase ▸ repr.intermed, ?_, fun key => ?_⟩
    · exact fun p member => onList_of_mem list.chain (sourced p member) list.length_le
    · rw [mem_after_told (fun update member => pipe.told update (List.mem_of_mem_take member)), ← taken]
      constructor
      · rintro ⟨job, latest, inserts⟩
        obtain ⟨entry, inEntries, rfl⟩ := replays.present key job latest inserts
        obtain ⟨job', latest', marked⟩ := replays.latest entry inEntries
        obtain rfl := Option.some.inj (latest.symm.trans latest')
        obtain ⟨p, member, rfl⟩ := List.mem_map.mp inEntries
        exact ⟨p, member, by simpa [inserts] using marked, rfl⟩
      · rintro ⟨p, member, unmarked, rfl⟩
        obtain ⟨job, latest, marked⟩ := replays.latest p.2 (List.mem_map_of_mem member)
        exact ⟨job, latest, by simpa [unmarked] using marked⟩

/-- However the threads run side by side, as long as no helper takes the index from under a search: each
helper has taken the first so many successful updates of its own application thread, each once and in
their order, at most the buffer and what is on its way to it behind, and its intermediate layer, over
nodes of the data list, holds the set that these updates make of an empty one. -/
theorem helpers_lag_behind_updates (machine : Machine) {acts : List SystemAct}
    (undisturbed : machine.Undisturbed acts) : ∃ s, machine.runSystem acts = some s ∧
    ∀ i, ∃ e count, s.enclave i = some e ∧ count ≤ (s.updates i).length ∧
      (s.updates i).length ≤ count + machine.bufSize + 1 ∧
      (s.rings i).returned = ((s.updates i).take count).map Prod.snd ∧
      e.HoldsKeys (fun node => onList s.nodes s.nodes.length machine.head node)
        (keySet.after ∅ (((s.updates i).take count).map Prod.fst)) := by
  obtain ⟨s, linked, inner, ran, ok, _⟩ :=
    SystemOk.run acts machine.startSystem [machine.head] _ (SystemOk.initial machine undisturbed.1)
      undisturbed.2
  exact ⟨s, ran, ok.helper_knows⟩

theorem raisedDuringContains_helpers : ∃ s, numaMachine.runSystem raisedDuringContains = some s ∧
    ∀ i, ∃ e count, s.enclave i = some e ∧ count ≤ (s.updates i).length ∧
      (s.updates i).length ≤ count + numaMachine.bufSize + 1 ∧
      (s.rings i).returned = ((s.updates i).take count).map Prod.snd ∧
      e.HoldsKeys (fun node => onList s.nodes s.nodes.length numaMachine.head node)
        (keySet.after ∅ (((s.updates i).take count).map Prod.fst)) :=
  helpers_lag_behind_updates numaMachine raisedDuringContains_undisturbed

/-- Whenever it is called, `intermed_layer_size` counts the sentinel mnode and the keys that the updates
taken so far leave in the set. -/
theorem intermed_layer_size_counts_taken (machine : Machine) {acts : List SystemAct}
    (undisturbed : machine.Undisturbed acts) : ∃ s, machine.runSystem acts = some s ∧
    ∀ i, ∃ e sentinel, s.enclave i = some e ∧ e.inode e.sentinel = some sentinel ∧
      e.intermedLayerSize sentinel.intermed = some ((keySet.after ∅
        (((s.updates i).take (s.rings i).returned.length).map Prod.fst)).card + 1) := by
  obtain ⟨s, linked, inner, ran, ok, _⟩ :=
    SystemOk.run acts machine.startSystem [machine.head] _ (SystemOk.initial machine undisturbed.1)
      undisturbed.2
  refine ⟨s, ran, fun i => ?_⟩
  obtain ⟨e, count, isEnclave, inside, _, taken, holds⟩ := ok.helper_knows i
  obtain ⟨sentinel, found, counted⟩ := holds.intermedLayerSize
  have length : (s.rings i).returned.length = count := by
    rw [taken, List.length_map, List.length_take, Nat.min_eq_left inside]
  exact ⟨e, sentinel, isEnclave, found, length ▸ counted⟩

theorem raisedDuringContains_size : ∃ s, numaMachine.runSystem raisedDuringContains = some s ∧
    ∀ i, ∃ e sentinel, s.enclave i = some e ∧ e.inode e.sentinel = some sentinel ∧
      e.intermedLayerSize sentinel.intermed = some ((keySet.after ∅
        (((s.updates i).take (s.rings i).returned.length).map Prod.fst)).card + 1) :=
  intermed_layer_size_counts_taken numaMachine raisedDuringContains_undisturbed

/-- Between any two accesses of the program every index has its shape and holds nothing that is deleted,
and a search that ran through it alone would end at the mnode of the plain scan, from whose data node, on
the list and not past the key, `sl_traverse_data` may go on. -/
theorem indexes_kept (machine : Machine) {acts : List SystemAct} (undisturbed : machine.Undisturbed acts) :
    ∃ s, machine.runSystem acts = some s ∧ ∀ i, ∃ e, s.enclave i = some e ∧ e.IndexOk ∧ e.NoneDeleted ∧
      ∀ key, e.TraversesAlike (machine.platform i) key ∧ ∃ node, e.enter key = some node ∧
        onList s.nodes s.nodes.length machine.head node = true ∧ keyAt s.nodes node ≤ key := by
  obtain ⟨s, linked, inner, ran, ok, _⟩ :=
    SystemOk.run acts machine.startSystem [machine.head] _ (SystemOk.initial machine undisturbed.1)
      undisturbed.2
  refine ⟨s, ran, fun i => ?_⟩
  obtain ⟨e, l, isEnclave, repr, sourced, _⟩ := ok.helpers i
  have list : ListOk machine.head s.nodes linked inner.value := ok.layer.list
  refine ⟨{ e with nodes := s.nodes }, by rw [System.enclave, isEnclave]; rfl, repr.index_ok,
    repr.none_deleted, fun key => ⟨repr.traversesAlike _ key, ?_⟩⟩
  obtain ⟨before, p, after, split, notPast, _, searched⟩ := repr.search_returns key
  have member : p ∈ l.mnodes := by simp [split]
  obtain ⟨next, stored⟩ := repr.intermed.holds p member
  obtain ⟨node, found, sameKey⟩ := repr.intermed.nodes p member
  refine ⟨p.2.node, ?_, onList_of_mem list.chain (sourced p member) list.length_le, ?_⟩
  · have atMnode : Enclave.mnode { e with nodes := s.nodes } p.1 = some (p.2.at next) := stored
    rw [Enclave.enter_eq, Enclave.slTraverseIndex, searched]
    simp only [Option.bind_eq_bind, Option.bind_some, atMnode, Entry.at]
  · have key : keyAt s.nodes p.2.node = node.key := keyAt_found found
    rw [key, sameKey]
    exact notPast

theorem raisedDuringContains_indexes : ∃ s, numaMachine.runSystem raisedDuringContains = some s ∧
    ∀ i, ∃ e, s.enclave i = some e ∧ e.IndexOk ∧ e.NoneDeleted ∧
      ∀ key, e.TraversesAlike (numaMachine.platform i) key ∧ ∃ node, e.enter key = some node ∧
        onList s.nodes s.nodes.length numaMachine.head node = true ∧ keyAt s.nodes node ≤ key :=
  indexes_kept numaMachine raisedDuringContains_undisturbed

theorem Ring.Ok.published_le {ring : Ring} (ok : ring.Ok) (size : 3 ≤ ring.buffer.bufSize) :
    ring.returned.length + 3 ≤ ring.buffer.bufSize ∧
      ring.published.length + 4 ≤ 2 * ring.buffer.bufSize := by
  have low := ok.low
  have room := ok.room
  have consumed : ring.returned.length ≤ ring.consumed := Nat.le_add_right _ _
  omega

/-- However long the threads run side by side: a helper never takes more than `buf_size - 3` jobs, and
the update that comes after `2 * buf_size - 4` others of its thread stays in `opbuffer_insert` for good. -/
theorem updates_end (machine : Machine) (size : 3 ≤ machine.bufSize) {acts : List SystemAct}
    (undisturbed : machine.Undisturbed acts) : ∃ s, machine.runSystem acts = some s ∧
    ∀ i, (s.rings i).returned.length + 3 ≤ machine.bufSize ∧ (s.updates i).length + 3 ≤ 2 * machine.bufSize ∧
      ((s.updates i).length + 3 = 2 * machine.bufSize → ∃ op, s.apps i = .offering op) := by
  obtain ⟨s, linked, inner, ran, ok, _⟩ :=
    SystemOk.run acts machine.startSystem [machine.head] _ (SystemOk.initial machine undisturbed.1)
      undisturbed.2
  refine ⟨s, ran, fun i => ?_⟩
  have pipe := ok.pipes i
  obtain ⟨returned, published⟩ := pipe.ringOk.published_le (pipe.size.symm ▸ size)
  have sent := congrArg List.length pipe.sent
  have accepted := congrArg List.length pipe.ringOk.accepted
  rw [List.length_map, List.length_append] at sent
  rw [List.length_append] at accepted
  rw [pipe.size] at returned published
  cases app : s.apps i with
  | offering op =>
      rw [app] at sent
      have one : (AppPc.offering op).offered.length = 1 := rfl
      exact ⟨returned, by omega, fun _ => ⟨op, rfl⟩⟩
  | idle | searching _ _ | traversing _ =>
      rw [app] at sent
      simp only [AppPc.offered, List.length_nil] at sent
      exact ⟨returned, by omega, by omega⟩

theorem raisedDuringContains_end : 3 ≤ numaMachine.bufSize ∧
    ∃ s, numaMachine.runSystem raisedDuringContains = some s ∧ ∀ i,
      (s.rings i).returned.length + 3 ≤ numaMachine.bufSize ∧
      (s.updates i).length + 3 ≤ 2 * numaMachine.bufSize ∧
      ((s.updates i).length + 3 = 2 * numaMachine.bufSize → ∃ op, s.apps i = .offering op) :=
  ⟨by decide, updates_end numaMachine (by decide) raisedDuringContains_undisturbed⟩

end Hosk
