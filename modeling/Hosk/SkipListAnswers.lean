import Hosk.EntrySources
import Hosk.OpBufferContents
import Hosk.SkipListCore
import Hosk.StandingTowers

/-!
What all enclaves rely on: every mnode is over a linked data node with its key, and so is every job
that is still to be taken. Other enclaves only ever add to the list, so this stays so however far an
enclave lags behind.
-/

namespace Hosk

open Linearizability

structure Onward (head : Nat) (nodes : Nodes) (linked : List Nat) (nodes' : Nodes)
    (linked' : List Nat) (keys' : Finset Nat) : Prop where
  list : ListOk head nodes' linked' keys'
  stays : ∀ address ∈ linked, address ∈ linked'
  sameKeys : ∀ address ∈ linked, keyAt nodes' address = keyAt nodes address

section Levels

variable {head : Nat} {nodes nodes' : Nodes} {linked : List Nat} {keys : Finset Nat}

theorem ListOk.relevel (list : ListOk head nodes linked keys) (levels : LevelsOnly nodes nodes') :
    ListOk head nodes' linked keys := by
  have sameNext : nextOf nodes' = nextOf nodes := levels.nextOf
  have sameKey : keyAt nodes' = keyAt nodes := funext (levels.get_elim 0 Node.key fun _ => rfl)
  have sameVal : valAt nodes' = valAt nodes := funext (levels.get_elim 0 Node.val fun _ => rfl)
  have samePrev : prevAt nodes' = prevAt nodes := funext (levels.get_elim 0 Node.prev fun _ => rfl)
  obtain ⟨chain, headLinked, headKey, sorted, notOwn, prevs, members⟩ := list
  rw [← sameNext] at chain
  rw [← sameKey] at headKey sorted prevs members
  rw [← sameVal] at notOwn members
  rw [← samePrev] at prevs
  exact ⟨chain, headLinked, headKey, sorted, notOwn, prevs, members⟩

theorem LevelsOnly.onward (levels : LevelsOnly nodes nodes') (list : ListOk head nodes linked keys) :
    Onward head nodes linked nodes' linked keys :=
  ⟨list.relevel levels, fun _ member => member,
    fun address _ => levels.get_elim 0 Node.key (fun _ => rfl) address⟩

end Levels

namespace Repr

variable {e : Enclave} {l : Layout}

theorem renode (repr : Repr e l) {nodes : Nodes} (stored : ∀ p ∈ l.mnodes, ∃ node,
    Store.get nodes p.2.node = some node ∧ node.key = p.2.key) : Repr { e with nodes := nodes } l :=
  ⟨⟨repr.intermed.chain, repr.intermed.holds, stored, repr.intermed.sorted, repr.intermed.first⟩,
    repr.grid, repr.liveMnodes, repr.liveInodes, repr.noInode, repr.strays⟩

theorem slTraverseIndex_returns (repr : Repr e l) {known : Nat → Prop} (sourced : l.Sourced known)
    (key : Nat) : ∃ node, e.slTraverseIndex key = some node ∧ known node ∧ keyAt e.nodes node ≤ key := by
  obtain ⟨before, p, after, split, notPast, _, searched⟩ := repr.search_returns key
  have member : p ∈ l.mnodes := by simp [split]
  have stored : e.mnode p.1 = some (p.2.at (firstOf after)) := repr.intermed.at_split split
  obtain ⟨node, found, sameKey⟩ := repr.intermed.nodes p member
  refine ⟨p.2.node, ?_, sourced p member, ?_⟩
  · rw [Enclave.slTraverseIndex, searched]
    simp [stored, Entry.at]
  · rw [keyAt_found found, sameKey]
    exact notPast

end Repr

namespace SkipList

def StandsAct (host : Host) (s : SkipList) : SkipListAct → Prop
  | .pass i => ∀ e ∈ s.enclave i, ∀ middle ∈ e.beforeLowering (host.platform i), middle.TowersStand
  | _ => True

instance (host : Host) (s : SkipList) : ∀ act, Decidable (s.StandsAct host act)
  | .pass i => inferInstanceAs (Decidable (∀ e ∈ s.enclave i, ∀ _ ∈ e.beforeLowering (host.platform i), _))
  | .operate _ _ _ _ | .takeJob _ | .reset _ => inferInstanceAs (Decidable True)

end SkipList

def JobFor (nodes : Nodes) (linked : List Nat) (op : Op) : Prop :=
  1 ≤ op.key ∧ (op.node ≠ 0 → op.node ∈ linked ∧ keyAt nodes op.node = op.key)

theorem JobFor.stored {head : Nat} {nodes : Nodes} {linked : List Nat} {keys : Finset Nat} {op : Op}
    (jobFor : JobFor nodes linked op) (list : ListOk head nodes linked keys) : 1 ≤ op.key ∧
      (op.node ≠ 0 → (Store.get nodes op.node).map Node.key = some op.key) := by
  obtain ⟨positive, inserts⟩ := jobFor
  refine ⟨positive, fun nonzero => ?_⟩
  obtain ⟨member, key⟩ := inserts nonzero
  obtain ⟨node, found, _⟩ := list.found member
  rw [keyAt_found found] at key
  rw [found]
  exact congrArg some key

def EnclaveOk (nodes : Nodes) (linked : List Nat) (enclave : Option Enclave) : Prop :=
  ∃ e l, enclave = some e ∧ Repr { e with nodes := nodes } l ∧ l.Sourced (· ∈ linked)

def BufferOk (bufSize : Nat) (nodes : Nodes) (linked : List Nat) (buffer : OpBuffer) : Prop :=
  OpBuffer.IndicesOk bufSize buffer ∧ buffer.Filled (JobFor nodes linked)

/-- The data list holds the set, and every enclave is sound over it. -/
structure Consistent (host : Host) (s : SkipList) (linked : List Nat) (keys : Finset Nat) : Prop where
  list : ListOk host.head s.nodes linked keys
  enclaves : ∀ i, EnclaveOk s.nodes linked (s.enclaves i)
  buffers : ∀ i, BufferOk host.bufSize s.nodes linked (s.buffers i)

section Onward

variable {head bufSize : Nat} {nodes nodes' : Nodes} {linked linked' : List Nat} {keys' : Finset Nat}

theorem JobFor.onward (onward : Onward head nodes linked nodes' linked' keys') {op : Op}
    (job : JobFor nodes linked op) : JobFor nodes' linked' op := by
  refine ⟨job.1, fun inserts => ?_⟩
  obtain ⟨member, key⟩ := job.2 inserts
  exact ⟨onward.stays _ member, (onward.sameKeys _ member).trans key⟩

theorem EnclaveOk.onward (onward : Onward head nodes linked nodes' linked' keys')
    {enclave : Option Enclave} (ok : EnclaveOk nodes linked enclave) :
    EnclaveOk nodes' linked' enclave := by
  obtain ⟨e, l, same, repr, sourced⟩ := ok
  refine ⟨e, l, same, repr.renode ?_, fun p member => onward.stays _ (sourced p member)⟩
  intro p member
  obtain ⟨node, found, key⟩ := repr.intermed.nodes p member
  obtain ⟨node', found', _⟩ := onward.list.found (onward.stays _ (sourced p member))
  refine ⟨node', found', ?_⟩
  calc node'.key = keyAt nodes' p.2.node := (keyAt_found found').symm
    _ = keyAt nodes p.2.node := onward.sameKeys _ (sourced p member)
    _ = node.key := keyAt_found found
    _ = p.2.key := key

theorem BufferOk.onward (onward : Onward head nodes linked nodes' linked' keys') {buffer : OpBuffer}
    (ok : BufferOk bufSize nodes linked buffer) : BufferOk bufSize nodes' linked' buffer :=
  ⟨ok.1, ok.2.imp fun _ job => job.onward onward⟩

end Onward

namespace Consistent

variable {host : Host} {s : SkipList} {linked : List Nat} {keys : Finset Nat}

theorem enclave_found (ok : Consistent host s linked keys) (i : Nat) : ∃ e l,
    s.enclave i = some e ∧ e.nodes = s.nodes ∧ Repr e l ∧ l.Sourced (· ∈ linked) := by
  obtain ⟨e, l, same, repr, sourced⟩ := ok.enclaves i
  refine ⟨{ e with nodes := s.nodes }, l, ?_, rfl, repr, sourced⟩
  rw [SkipList.enclave, same]
  rfl

theorem initial (host : Host) : Consistent host host.start [host.head] ∅ := by
  have list := ListOk.initial host.nonzero
  obtain ⟨node, found, _⟩ := list.found List.mem_cons_self
  have key : node.key = 0 := (keyAt_found found).symm.trans list.headKey
  refine ⟨list, ?_, ?_⟩
  · intro i
    obtain ⟨e, l, started, nodes, repr, _, base⟩ := threadInit_refines (host.honest i) found key
    refine ⟨e, l, started, ?_, ?_⟩
    · change Repr { e with nodes := (DataLayer.new host.head).nodes } l
      rw [← nodes]
      exact repr
    · intro p member
      rw [base p member]
      exact List.mem_singleton_self _
  · exact fun i => ⟨⟨rfl, host.positive, .inl rfl⟩, OpBuffer.Filled.initial _ _⟩

/-- An operation does to the set what it would do there, and leaves a proper job. -/
theorem operate_keeps (ok : Consistent host s linked keys) {i key : Nat} {optype : OpType}
    {malloc : Malloc} (assumption : s.assumes (.operate i optype key malloc) = true) :
    ∃ s' linked', s.operate i optype key malloc = some s' ∧
      Consistent host s' linked' (keySet.apply ⟨optype, key, key⟩ keys).1 ∧
      s'.results = s.results ++ [(keySet.apply ⟨optype, key, key⟩ keys).2] := by
  obtain ⟨e, l, isEnclave, nodes, repr, sourced⟩ := ok.enclave_found i
  obtain ⟨node, returned, nodeLinked, notPast⟩ := repr.slTraverseIndex_returns sourced key
  simp only [SkipList.assumes, isEnclave, Option.bind_some, returned, Option.all_some,
    Bool.and_eq_true, decide_eq_true_eq] at assumption
  obtain ⟨positive, mallocs⟩ := assumption
  rw [nodes] at notPast
  have value : (⟨optype, key, key⟩ : Operation).val ≠ 0 := Nat.ne_of_gt positive
  obtain ⟨nodes', linked', result, pnode, ran, isResult, concludes⟩ := slTraverseData_concludes ok.list
    nodeLinked notPast positive value mallocs
  have onward : Onward host.head s.nodes linked nodes' linked' _ :=
    ⟨concludes.list, concludes.stays, concludes.sameKeys⟩
  have done : e.slDoOperation malloc key optype = some (nodes', result, pnode) := by
    rw [Enclave.slDoOperation, returned, nodes]
    exact ran
  let buffer := if result ≠ 0 ∧ optype ≠ .contains then ((s.buffers i).opbufferInsert key pnode).2
    else s.buffers i
  refine ⟨{ s with
    nodes := nodes'
    buffers := Function.update s.buffers i buffer
    results := s.results ++ [result] }, linked', ?_, ⟨concludes.list, ?_, ?_⟩, ?_⟩
  · rw [SkipList.operate, isEnclave]
    simp only [Option.bind_eq_bind, Option.bind_some, done]
    rfl
  · exact fun j => (ok.enclaves j).onward onward
  · intro j
    have before := (ok.buffers j).onward onward
    by_cases same : j = i
    · subst same
      change BufferOk _ _ _ (Function.update s.buffers j buffer j)
      rw [Function.update_self]
      by_cases updates : result ≠ 0 ∧ optype ≠ .contains
      · simp only [buffer, if_pos updates]
        exact ⟨OpBuffer.insert_indices before.1 key pnode, before.2.opbufferInsert before.1
          ⟨positive, fun inserts => concludes.pnodeOk.resolve_left inserts⟩⟩
      · simp only [buffer, if_neg updates]
        exact before
    · change BufferOk _ _ _ (Function.update s.buffers i buffer j)
      rw [Function.update_of_ne same]
      exact before
  · rw [isResult]

theorem helps_keeps (ok : Consistent host s linked keys) (i : Nat) (call : Call)
    (jobOk : ∀ job, call = .job job → JobFor s.nodes linked ⟨job.key, job.node⟩)
    (clean : ∀ e, call = .pass → s.enclave i = some e → e.CleanPass (host.platform i)) :
    ∃ s', s.helps (host.platform i) i call = some s' ∧ Consistent host s' linked keys ∧
      s'.results = s.results := by
  obtain ⟨e, l, isEnclave, nodes, repr, sourced⟩ := ok.enclave_found i
  have stored : ∀ job, call = .job job → 1 ≤ job.key ∧
      (job.node ≠ 0 → (Store.get e.nodes job.node).map Node.key = some job.key) := by
    rw [nodes]
    exact fun job isJob => (jobOk job isJob).stored ok.list
  obtain ⟨e', l', called, levels, repr', keeps, absEq⟩ := repr.call_keeps (host.honest i) call stored
    (fun isPass => clean e isPass isEnclave) (fun root (none : root ∈ []) => absurd none List.not_mem_nil)
    fun _ => e.passesBy_nil (host.platform i)
  have sourced' : l'.Sourced (· ∈ linked) := repr.call_sourced repr' keeps absEq sourced
    fun job isJob inserts => ((jobOk job isJob).2 inserts).1
  rw [nodes] at levels
  have onward := levels.onward ok.list
  refine ⟨{ s with nodes := e'.nodes, enclaves := Function.update s.enclaves i (some e') }, ?_,
    ⟨onward.list, ?_, fun j => (ok.buffers j).onward onward⟩, rfl⟩
  · rw [SkipList.helps, isEnclave]
    simp only [Option.bind_eq_bind, Option.bind_some, called]
  · intro j
    by_cases same : j = i
    · subst same
      change EnclaveOk _ _ (Function.update s.enclaves j (some e') j)
      rw [Function.update_self]
      exact ⟨e', l', rfl, repr', sourced'⟩
    · change EnclaveOk _ _ (Function.update s.enclaves i (some e') j)
      rw [Function.update_of_ne same]
      exact (ok.enclaves j).onward onward

theorem takeJob_keeps (ok : Consistent host s linked keys) (i : Nat) :
    ∃ s', s.takeJob (host.platform i) i = some s' ∧ Consistent host s' linked keys ∧
      s'.results = s.results := by
  obtain ⟨indices, filled⟩ := ok.buffers i
  obtain ⟨filledAfter, taken⟩ := filled.opbufferRemove indices
  have indicesAfter := OpBuffer.remove_indices indices
  rw [SkipList.takeJob]
  cases removed : (s.buffers i).opbufferRemove with
  | mk first buffer =>
      rw [removed] at filledAfter taken indicesAfter
      cases first with
      | none => exact ⟨s, rfl, ok, rfl⟩
      | some op =>
          have job := taken op rfl
          have emptied : Consistent host { s with buffers := Function.update s.buffers i buffer } linked
              keys := by
            refine ⟨ok.list, ok.enclaves, fun j => ?_⟩
            by_cases same : j = i
            · subst same
              change BufferOk _ _ _ (Function.update s.buffers j buffer j)
              rw [Function.update_self]
              exact ⟨indicesAfter, filledAfter⟩
            · change BufferOk _ _ _ (Function.update s.buffers i buffer j)
              rw [Function.update_of_ne same]
              exact ok.buffers j
          refine emptied.helps_keeps i (.job ⟨op.key, op.node⟩) ?_ ?_
          · intro other isJob
            obtain rfl := Call.job.inj isJob
            exact job
          · intro e wrong
            cases wrong

theorem act_keeps (ok : Consistent host s linked keys) (act : SkipListAct)
    (assumption : s.assumes act = true) (clean : s.CleanAct host act) :
    ∃ s' linked', s.act host act = some s' ∧
      Consistent host s' linked' (keySet.after keys (operationOf act).toList) ∧
      s'.results = s.results ++ keySet.replies keys (operationOf act).toList := by
  have keepsResults : ∀ s' : SkipList, s'.results = s.results → s'.results = s.results ++ [] :=
    fun s' same => same.trans (List.append_nil _).symm
  cases act with
  | operate i optype key malloc => exact ok.operate_keeps assumption
  | takeJob i =>
      obtain ⟨s', taken, ok', same⟩ := ok.takeJob_keeps i
      exact ⟨s', linked, taken, ok', keepsResults s' same⟩
  | pass i =>
      obtain ⟨s', passed, ok', same⟩ := ok.helps_keeps i .pass
        (fun job wrong => absurd wrong (by simp)) fun e _ isEnclave => clean i e rfl isEnclave
      exact ⟨s', linked, passed, ok', keepsResults s' same⟩
  | reset i =>
      obtain ⟨s', wasReset, ok', same⟩ := ok.helps_keeps i .reset
        (fun job wrong => absurd wrong (by simp)) fun e wrong => absurd wrong (by simp)
      exact ⟨s', linked, wasReset, ok', keepsResults s' same⟩

theorem run_clean (acts : List SkipListAct) : ∀ s linked keys, Consistent host s linked keys →
    Runs.Along (SkipList.turn host) (fun state act => state.all (·.assumes act) = true) (some s) acts →
    Runs.Along (SkipList.turn host) (fun state act => ∀ s ∈ state, s.StandsAct host act) (some s) acts →
    Runs.Along (SkipList.turn host) (fun state act => ∀ s, state = some s → s.CleanAct host act)
      (some s) acts := by
  induction acts with
  | nil => exact fun _ _ _ _ _ _ => trivial
  | cons act rest ih =>
      rintro s linked keys ok ⟨assumption, assumptions⟩ ⟨stands, standsLater⟩
      have clean : s.CleanAct host act := by
        rintro i e rfl isEnclave
        obtain ⟨e', l, isEnclave', _, repr, _⟩ := ok.enclave_found i
        obtain rfl := Option.some.inj (isEnclave.symm.trans isEnclave')
        exact repr.cleanPass_of_stand (host.honest i) (stands s rfl e isEnclave)
      obtain ⟨middle, linked₁, acted, ok₁, _⟩ := ok.act_keeps act assumption clean
      have turned : SkipList.turn host (some s) act = some middle := acted
      refine ⟨fun before same => Option.some.inj same ▸ clean, ?_⟩
      rw [turned] at assumptions standsLater ⊢
      exact ih middle linked₁ _ ok₁ assumptions standsLater

theorem run_answers (acts : List SkipListAct) : ∀ s linked keys, Consistent host s linked keys →
    Runs.Along (SkipList.turn host) (fun state act => state.all (·.assumes act) = true) (some s) acts →
    Runs.Along (SkipList.turn host) (fun state act => ∀ s, state = some s → s.CleanAct host act)
      (some s) acts →
    ∃ s', Runs.run (SkipList.turn host) (some s) acts = some s' ∧
      s'.results = s.results ++ keySet.replies keys (operations acts) := by
  induction acts with
  | nil => exact fun s _ _ _ _ _ => ⟨s, rfl, (List.append_nil _).symm⟩
  | cons act rest ih =>
      rintro s linked keys ok ⟨assumption, assumptions⟩ ⟨clean, cleanLater⟩
      obtain ⟨middle, linked₁, acted, ok₁, results₁⟩ := ok.act_keeps act assumption (clean s rfl)
      have turned : SkipList.turn host (some s) act = some middle := acted
      rw [turned] at assumptions cleanLater
      obtain ⟨s', ran, results'⟩ := ih middle linked₁ _ ok₁ assumptions cleanLater
      have split : operations (act :: rest) = (operationOf act).toList ++ operations rest := by
        cases act <;> rfl
      refine ⟨s', ?_, ?_⟩
      · rw [Runs.run_cons, turned]
        exact ran
      · rw [results', results₁, split, SeqObject.replies_append, List.append_assoc]

end Consistent

def Host.Stands (host : Host) (acts : List SkipListAct) : Prop :=
  Runs.Along (SkipList.turn host) (fun state act => ∀ s ∈ state, s.StandsAct host act) (some host.start)
    acts

instance (host : Host) (acts : List SkipListAct) : Decidable (host.Stands acts) :=
  Runs.decidableAlong _ _ _ _

theorem Host.Stands.cleanly {host : Host} {acts : List SkipListAct} (stands : host.Stands acts)
    (assumed : host.Assumed acts) : host.Cleanly acts :=
  (Consistent.initial host).run_clean acts host.start [host.head] ∅ assumed stands

/-- However the steps of the enclaves fall, as long as no pass breaks its index, every operation
returns what it returns on a plain set. -/
theorem operations_answer_as_set (host : Host) {acts : List SkipListAct} (assumed : host.Assumed acts)
    (clean : host.Cleanly acts) :
    ∃ s, host.run acts = some s ∧ s.results = keySet.replies ∅ (operations acts) := by
  obtain ⟨s, ran, results⟩ :=
    (Consistent.initial host).run_answers acts host.start [host.head] ∅ assumed clean
  exact ⟨s, ran, results⟩

def numaHost : Host where
  platform _ := numa.guarded
  honest _ := numa.guarded_honest
  head := 1000
  nonzero := by decide
  bufSize := 64
  positive := by decide

-- the data node of a key is allocated at 1000 plus the key
def operateOn (optype : OpType) (i key : Nat) : SkipListAct :=
  .operate i optype key ⟨1000 + key, ⟨0, 0, 0, 0, 0⟩⟩

-- the buffer keeps its last two jobs, which the next ones push out; these change nothing by then
def pushInsert : List SkipListAct :=
  [operateOn .delete 1 5, operateOn .insert 0 5, operateOn .delete 1 5, operateOn .insert 0 5]

def pushDelete : List SkipListAct :=
  [operateOn .insert 1 5, operateOn .delete 0 5, operateOn .insert 1 5, operateOn .delete 0 5]

/-- Two enclaves, each with operations of the other that it never hears of. The last pass lowers the
index of the first. -/
def twoEnclaves : List SkipListAct :=
  [1, 2, 3, 4, 5].map (operateOn .insert 0) ++ List.replicate 3 (.takeJob 0) ++ [.pass 0] ++
    [operateOn .delete 1 2, operateOn .insert 1 9, operateOn .contains 0 2, .reset 0,
      operateOn .insert 0 2, .takeJob 0, operateOn .delete 1 4, .pass 0, .pass 1,
      operateOn .contains 0 4, operateOn .contains 0 9, operateOn .insert 0 4] ++
    [1, 2, 3, 4, 5].map (operateOn .delete 0) ++ pushDelete ++ List.replicate 12 (.takeJob 0) ++
    List.replicate 71 (.pass 0) ++ [operateOn .contains 0 2, operateOn .contains 0 9]

theorem twoEnclaves_answer : numaHost.Assumed twoEnclaves ∧ numaHost.Cleanly twoEnclaves ∧
    ∃ s, numaHost.run twoEnclaves = some s ∧
      s.results = keySet.replies ∅ (operations twoEnclaves) := by
  have assumed : numaHost.Assumed twoEnclaves := by decide +kernel
  have stands : numaHost.Stands twoEnclaves := by decide +kernel
  have clean := stands.cleanly assumed
  exact ⟨assumed, clean, operations_answer_as_set numaHost assumed clean⟩

/-- The inode of key 42 is zeroed while the index still leads to it; then a search comes there. -/
def blankedAnswer : List SkipListAct :=
  (List.range' 5 15 5).map (operateOn .insert 0) ++ pushInsert ++ List.replicate 15 (.takeJob 0) ++
    [.pass 0] ++
    [5, 10, 15, 25, 30, 35, 45, 50, 55, 60, 65, 70, 75].map (operateOn .delete 0) ++ pushDelete ++
      List.replicate 15 (.takeJob 0) ++ [.pass 0] ++
    [41, 42, 43].map (operateOn .insert 0) ++ [20, 40].map (operateOn .delete 0) ++ pushDelete ++
      List.replicate 7 (.takeJob 0) ++ [.pass 0] ++
    [41, 42, 43].map (operateOn .delete 0) ++ pushDelete ++ List.replicate 5 (.takeJob 0) ++
      List.replicate 24 (.pass 0) ++
    [operateOn .contains 0 44]

theorem blanked_answer_lost : numaHost.Assumed blankedAnswer ∧
    ¬ ∃ s, numaHost.run blankedAnswer = some s ∧
      s.results = keySet.replies ∅ (operations blankedAnswer) := by
  have ended : numaHost.Assumed blankedAnswer ∧ (numaHost.run blankedAnswer).isNone = true := by
    decide +kernel
  refine ⟨ended.1, ?_⟩
  rintro ⟨s, ran, _⟩
  exact absurd (Option.isNone_iff_eq_none.mp ended.2 ▸ ran) (Option.some_ne_none s).symm

end Hosk
