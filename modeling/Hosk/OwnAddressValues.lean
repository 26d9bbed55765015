import Hosk.SequentialCalls

/-!
A value is the key itself, and a node counts as removable once its value is its own address. So a key is
lost to the searches if its node lies at the address that equals it, and only then.
-/

namespace Hosk

open DataState

namespace DataState

def returns (s : DataState) : DataAct → Bool
  | .operate mallocs fuel optype entry key =>
      (s.call mallocs fuel ⟨optype, key, key⟩ entry).isSome
  | .helps platform e call => (({ e with nodes := s.nodes } : Enclave).call platform call).isSome

/-- An insert of a key without a node is not given the address that equals the key. -/
def clearOf (s : DataState) : DataAct → Bool
  | .operate mallocs _ .insert _ key =>
      s.entries.any (fun address => keyAt s.nodes address = key) || (mallocs.block s.nodes).address ≠ key
  | _ => true

/-- Every key that was inserted, and not deleted since, is found from wherever a search for it enters, and
its node is linked. -/
def Reported (head : Nat) (s : DataState) : Prop :=
  ∀ key ∈ s.inserted,
    (∀ mallocs entry, entry ∈ s.entries → keyAt s.nodes entry ≤ key → ∃ nodes' f enough, ∀ fuel ≥ enough,
      s.call mallocs fuel ⟨.contains, key, key⟩ entry = some (nodes', 1, f)) ∧
    (∃ address ∈ s.entries, keyAt s.nodes address = key) ∧
    ∀ address ∈ s.entries, keyAt s.nodes address = key → Linked head s.nodes address

def Placed (s : DataState) : Prop := ∀ address ∈ s.entries, keyAt s.nodes address ≠ address

end DataState

namespace Sound

variable {head : Nat} {s : DataState} {cells : List DataCell}

theorem live (sound : Sound head s cells) (placed : s.Placed) {address : Nat}
    (isEntry : address ∈ s.entries) : valAt s.nodes address ≠ address := by
  rcases sound.vals address isEntry with isNull | isKey
  · rw [isNull]
    exact (sound.backed.nonzero address isEntry).symm
  · rw [isKey]
    exact placed address isEntry

theorem reported (sound : Sound head s cells) (placed : s.Placed) : s.Reported head := by
  intro key member
  obtain ⟨address, isEntry, isKey, value⟩ := sound.inserted key member
  have positive : 1 ≤ key := by
    rcases sound.vals address isEntry with isNull | sameKey
    · exact absurd isNull value
    · omega
  refine ⟨?_, ⟨address, isEntry, isKey⟩, ?_⟩
  · intro mallocs entry entryKnown notPast
    obtain ⟨nodes', result, f, ⟨enough, ends⟩, before, resume, rest, inserted, rfl, done⟩ :=
      sound.call_returns mallocs (show 1 ≤ (⟨.contains, key, key⟩ : Operation).key from positive)
        entryKnown notPast
    have held : key ∈ keysHeld s.nodes (before ++ ⟨resume, none⟩ :: rest) :=
      mem_keysHeld.mpr ⟨_, sound.backed.linked address isEntry (sound.live placed isEntry), value,
        sound.live placed isEntry, isKey⟩
    have isOne : result = 1 := by
      rw [← done.result_eq sound.list]
      simp [keySet, held]
    exact ⟨nodes', f, enough, fun fuel more => isOne ▸ ends fuel more⟩
  · intro other otherEntry otherKey
    have listed := sound.backed.linked other otherEntry (sound.live placed otherEntry)
    exact (sound.list.linked_iff (otherKey ▸ positive)).mpr ⟨_, listed, rfl⟩

theorem new_placed (sound : Sound head s cells) (placed : s.Placed) {mallocs : Mallocs}
    {before rest inserted : List DataCell} {resume stop pnode result : Nat} {op : Operation} {nodes' : Nodes}
    (split : cells = before ++ ⟨resume, none⟩ :: rest)
    (done : Traversed mallocs head s.nodes before resume rest op nodes' stop pnode result inserted)
    {cell : DataCell} (member : cell ∈ inserted) : cell.node = (mallocs.block s.nodes).address := by
  refine done.placed (fun old inRest => ?_) cell member
  exact sound.live placed (sound.backed.listed old (by simp [split, inRest]))

theorem key_at_stop (sound : Sound head s cells) (placed : s.Placed) {mallocs : Mallocs}
    {before rest inserted : List DataCell} {resume stop pnode result : Nat} {op : Operation} {nodes' : Nodes}
    (split : cells = before ++ ⟨resume, none⟩ :: rest)
    (done : Traversed mallocs head s.nodes before resume rest op nodes' stop pnode result inserted)
    {address : Nat} (isEntry : address ∈ s.entries) (isKey : keyAt s.nodes address = op.key) :
    op.key = keyAt s.nodes stop := by
  have live := sound.live placed isEntry
  have upTo := done.last _ (split ▸ sound.backed.linked address isEntry live) live (Nat.le_of_eq isKey)
  have notPast := done.stopNotPast
  change keyAt s.nodes address ≤ keyAt s.nodes stop at upTo
  omega

end Sound

theorem Traversed.linked_new {mallocs : Mallocs} {head : Nat} {nodes nodes' : Nodes}
    {before rest inserted : List DataCell} {resume stop pnode result : Nat} {op : Operation}
    (done : Traversed mallocs head nodes before resume rest op nodes' stop pnode result inserted)
    {cell : DataCell} (member : cell ∈ inserted) :
    op.optype = .insert ∧ op.key ≠ keyAt nodes stop ∧ keyAt nodes' cell.node = op.key := by
  obtain ⟨_, _, next, foundNew⟩ := done.fresh cell member
  have effect := done.effect
  generalize valAt nodes' stop = left at effect
  cases effect with
  | links new kind other => exact ⟨kind, other, keyAt_found foundNew⟩
  | _ => exact absurd member List.not_mem_nil

theorem DataState.updated_nodes (s : DataState) (op : Operation) (nodes : Nodes) (result pnode : Nat) :
    (s.updated op nodes result pnode).nodes = nodes := by
  rw [DataState.updated]
  split
  · cases op.optype <;> rfl
  · rfl

theorem DataState.mem_updated_entries (s : DataState) (op : Operation) (nodes : Nodes)
    {result pnode address : Nat} (member : address ∈ (s.updated op nodes result pnode).entries) :
    address ∈ s.entries ∨ op.optype = .insert ∧ result = 1 ∧ address = pnode := by
  rw [DataState.updated] at member
  split at member
  · next isOne =>
      cases kind : op.optype with
      | insert =>
          rw [kind] at member
          exact (List.mem_cons.mp member).symm.imp_right fun isNew => ⟨rfl, isOne, isNew⟩
      | _ =>
          rw [kind] at member
          exact .inl member
  · exact .inl member

namespace Sound

variable {head : Nat} {s : DataState} {cells : List DataCell}

theorem placed_act (sound : Sound head s cells) (placed : s.Placed) {a : DataAct}
    (clear : s.clearOf a = true) : (s.act a).Placed := by
  cases a with
  | helps platform e call =>
      rw [DataState.act]
      split
      · next e' returned =>
          have levels : LevelsOnly s.nodes e'.nodes := Enclave.call_relevels platform _ call _ returned
          intro address isEntry
          have sameKey : keyAt e'.nodes address = keyAt s.nodes address :=
            levels.get_elim 0 Node.key (fun _ => rfl) address
          exact sameKey ▸ placed address isEntry
      · exact placed
  | operate mallocs fuel optype entry key =>
      rw [DataState.act]
      split
      · next nodes' result f called =>
          obtain ⟨_, _, before, resume, rest, inserted, split, done⟩ := sound.call_traversed called
          have fromOld : ∀ address ∈ s.entries, keyAt nodes' address ≠ address := by
            intro address isEntry
            obtain ⟨node, found⟩ := sound.backed.stored address isEntry
            rw [(done.keyVal found).1]
            exact placed address isEntry
          intro address isEntry
          rw [s.updated_nodes]
          rcases s.mem_updated_entries _ _ isEntry with old | ⟨kind, isOne, rfl⟩
          · exact fromOld address old
          · rw [done.published kind isOne]
            cases inserted with
            | nil => exact fromOld _ (sound.backed.listed _ (split ▸ done.stop_mem))
            | cons cell others =>
                have member : cell ∈ cell :: others := List.mem_cons_self
                obtain ⟨_, other, newKey⟩ := done.linked_new member
                change keyAt nodes' cell.node ≠ cell.node
                rw [newKey, sound.new_placed placed split done member]
                obtain rfl : optype = .insert := kind
                simp only [DataState.clearOf, Bool.or_eq_true, List.any_eq_true, decide_eq_true_eq] at clear
                rcases clear with ⟨address, isEntry, isKey⟩ | apart
                · exact absurd (sound.key_at_stop placed split done isEntry isKey) other
                · exact apart.symm
      · exact placed

/-- No search reports a key whose node has its own address as its value. -/
theorem not_reported_of_own (sound : Sound head s cells) {key : Nat} (positive : 1 ≤ key)
    (listed : ⟨key, none⟩ ∈ cells) (ownKey : keyAt s.nodes key = key) (ownVal : valAt s.nodes key = key)
    (isInserted : key ∈ s.inserted) : ¬ s.Reported head := by
  intro reports
  have headEntry := sound.backed.listed _ sound.list.headListed
  have notPast : keyAt s.nodes head ≤ key := by
    rw [sound.list.headKey]
    exact Nat.zero_le key
  obtain ⟨nodes₁, f₁, enough₁, ends₁⟩ := (reports key isInserted).1 bumpMallocs head headEntry notPast
  obtain ⟨nodes', result, f, ⟨enough, ends⟩, before, resume, rest, inserted, rfl, done⟩ :=
    sound.call_returns bumpMallocs (show 1 ≤ (⟨.contains, key, key⟩ : Operation).key from positive)
      headEntry notPast
  have same := (ends (enough + enough₁) (Nat.le_add_right _ _)).symm.trans
    (ends₁ (enough + enough₁) (Nat.le_add_left _ _))
  simp only [Option.some.injEq, Prod.mk.injEq] at same
  have answer := done.result_eq sound.list
  rw [same.2.1] at answer
  have held : key ∈ keysHeld s.nodes (before ++ ⟨resume, none⟩ :: rest) := by
    by_contra missing
    simp [keySet, missing] at answer
  obtain ⟨cell, member, _, live, isKey⟩ := mem_keysHeld.mp held
  have isCell := sound.list.same_cell member listed (isKey.trans ownKey.symm)
  rw [isCell] at live
  exact live ownVal

theorem not_reported (sound : Sound head s cells) (placed : s.Placed) {a : DataAct}
    (returned : s.returns a = true) (clear : s.clearOf a = false) : ¬ (s.act a).Reported head := by
  obtain ⟨mallocs, fuel, entry, key, rfl⟩ : ∃ mallocs fuel entry key,
      a = .operate mallocs fuel .insert entry key := by
    cases a with
    | helps platform e call => exact absurd clear (by simp [DataState.clearOf])
    | operate mallocs fuel optype entry key =>
        cases optype with
        | insert => exact ⟨mallocs, fuel, entry, key, rfl⟩
        | _ => exact absurd clear (by simp [DataState.clearOf])
  simp only [DataState.clearOf, Bool.or_eq_false_iff, List.any_eq_false, decide_eq_true_eq, ne_eq,
    decide_eq_false_iff_not, not_not] at clear
  obtain ⟨noNode, isKey⟩ := clear
  obtain ⟨⟨nodes', result, f⟩, called⟩ := Option.isSome_iff_exists.mp returned
  obtain ⟨positive, _, before, resume, rest, inserted, split, done⟩ := sound.call_traversed called
  have acted : s.act (.operate mallocs fuel .insert entry key) =
      s.updated ⟨.insert, key, key⟩ nodes' result f.pnode := by
    simp only [DataState.act, called]
  have notStop : key ≠ keyAt s.nodes f.node := fun same =>
    noNode _ (sound.backed.listed _ (split ▸ done.stop_mem)) same.symm
  subst split
  have soundAfter := sound.updated done rfl positive
  have newPlaced := fun {cell : DataCell} (member : cell ∈ inserted) =>
    sound.new_placed placed rfl done member
  have fresh := done.fresh
  have effect := done.effect
  generalize valAt nodes' f.node = left at effect
  rw [acted]
  cases effect with
  | found kind _ | missing kind _ | deletes kind _ | absent kind _ => exact absurd kind (by simp)
  | present _ holds => exact absurd holds.1 notStop
  | restores _ same _ => exact absurd same notStop
  | links new _ _ =>
      obtain ⟨_, _, next, foundNew⟩ := fresh ⟨new, none⟩ (List.mem_singleton_self _)
      obtain rfl : new = key := (newPlaced (List.mem_singleton_self _)).trans isKey
      rw [← s.updated_nodes ⟨.insert, new, new⟩ nodes' 1 f.pnode] at foundNew
      refine soundAfter.not_reported_of_own positive (by simp) (keyAt_found foundNew)
        (valAt_found foundNew) ?_
      simp [DataState.updated]

/-- Step by step, what is inserted is reported exactly as long as no node is put at its own key. -/
theorem reported_iff (sound : Sound head s cells) (placed : s.Placed) {a : DataAct}
    (returned : s.returns a = true) : (s.act a).Reported head ↔ s.clearOf a = true := by
  constructor
  · intro reports
    by_contra unclear
    exact sound.not_reported placed returned (Bool.not_eq_true _ ▸ unclear) reports
  · intro clear
    obtain ⟨_, soundAfter⟩ := sound.act a
    exact soundAfter.reported (sound.placed_act placed clear)

end Sound

/-- In a run of calls that return, every key that was inserted and not deleted since is reported, and its
node linked, after each of them exactly if no insert is given the address that equals its key. -/
theorem reported_iff_clear {head : Nat} (nonzero : head ≠ 0) (acts : List DataAct)
    (returned : Runs.Along DataState.act (fun s a => s.returns a = true) (DataState.new head) acts) :
    Runs.Along DataState.act (fun s a => (s.act a).Reported head) (DataState.new head) acts ↔
      Runs.Along DataState.act (fun s a => s.clearOf a = true) (DataState.new head) acts := by
  have initial : (∃ cells, Sound head (DataState.new head) cells) ∧ (DataState.new head).Placed := by
    refine ⟨⟨_, Sound.initial nonzero⟩, ?_⟩
    intro address isEntry
    rw [List.mem_singleton.mp isEntry]
    simpa [DataState.new, DataLayer.new, keyAt, Store.get] using nonzero.symm
  have both : Runs.Along DataState.act
      (fun s a => s.returns a = true ∧ (s.act a).Reported head) (DataState.new head) acts ↔
      Runs.Along DataState.act (fun s a => s.returns a = true ∧ s.clearOf a = true)
        (DataState.new head) acts := by
    refine Runs.along_iff (fun s => (∃ cells, Sound head s cells) ∧ s.Placed) ?_ ?_ acts initial
    · rintro s a ⟨⟨_, sound⟩, placed⟩
      exact and_congr_right (sound.reported_iff placed)
    · rintro s a ⟨⟨_, sound⟩, placed⟩ ⟨returns, reports⟩
      exact ⟨sound.act a, sound.placed_act placed ((sound.reported_iff placed returns).mp reports)⟩
  constructor
  · exact fun reports => (both.mp (returned.and acts reports)).imp (fun _ _ => And.right) acts
  · exact fun clear => (both.mpr (returned.and acts clear)).imp (fun _ _ => And.right) acts

def reinserted : List DataAct :=
  [.operate bumpMallocs 60 .insert 1000 2, .operate bumpMallocs 60 .insert 1000 7,
    .operate bumpMallocs 60 .delete 1000 2, .operate bumpMallocs 60 .insert 1001 5,
    .operate bumpMallocs 60 .insert 1000 2, .operate bumpMallocs 60 .contains 1001 7]

theorem reinserted_reported : Runs.Along DataState.act (fun s a => (s.act a).Reported 1000)
    (DataState.new 1000) reinserted := by
  have returned : Runs.Along DataState.act (fun s a => s.returns a = true) (DataState.new 1000)
      reinserted := by decide +kernel
  have clear : Runs.Along DataState.act (fun s a => s.clearOf a = true) (DataState.new 1000)
      reinserted := by decide +kernel
  exact (reported_iff_clear (by decide) reinserted returned).mpr clear

def lowMallocs : Mallocs where
  block nodes :=
    if Store.get nodes 65536 = none then ⟨65536, ⟨0, 0, 0, 0, 0⟩⟩ else bumpMallocs.block nodes
  nonzero nodes := by
    split
    · decide
    · exact bumpMallocs.nonzero nodes
  free nodes := by
    split
    · assumption
    · exact bumpMallocs.free nodes

def insertAtKey : List DataAct :=
  [.operate lowMallocs 60 .insert 65488 65536, .operate lowMallocs 60 .contains 65488 65536]

/-- The key 65536 is inserted, and the next search for it answers that it is absent and unlinks its
node. -/
theorem ownAddress_lost :
    (run 65488 (insertAtKey.take 1)).call lowMallocs 60 ⟨.contains, 65536, 65536⟩ 65488 =
      some ([(65488, ⟨0, 0, 0, 0, 0⟩), (65536, ⟨65488, 131025, 65536, 65536, 0⟩),
        (131025, ⟨65536, 0, 131025, 0, 0⟩)], 0, ⟨⟨.contains, 65536, 65536⟩, 65488, 0, 0, 65536, 0, 131025, 131025, 0⟩) ∧
    ¬ ∀ (head : Nat) (acts : List DataAct), head ≠ 0 →
      Runs.Along DataState.act (fun s a => s.returns a = true) (DataState.new head) acts →
      Runs.Along DataState.act (fun s a => (s.act a).Reported head) (DataState.new head) acts := by
  refine ⟨by decide +kernel, fun always => ?_⟩
  have returned : Runs.Along DataState.act (fun s a => s.returns a = true) (DataState.new 65488)
      insertAtKey := by decide +kernel
  obtain ⟨_, reports, _⟩ := always 65488 insertAtKey (by decide) returned
  have linked := (reports 65536 (by decide +kernel)).2.2 65536 (by decide +kernel) (by decide +kernel)
  have chain : Chain (nextOf (run 65488 insertAtKey).nodes) 65488 [65488] :=
    ⟨rfl, by decide, 0, by decide +kernel, rfl⟩
  have listed := (chain.follows_iff (by decide)).mp linked
  exact absurd (List.mem_singleton.mp listed) (by decide)

end Hosk
