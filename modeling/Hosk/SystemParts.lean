import Hosk.DataLayerAccounting
import Hosk.SkipListAnswers
import Hosk.SystemCore

/-!
What the parts of the program rely on while they run side by side: the data layer, the buffer between an
application thread and its helper, and the index that the helper changes under a search.
-/

namespace Hosk

open Linearizability

section Levels

variable {head : Nat} {nodes nodes' : Nodes} {linked : List Nat} {status : Status Operation Nat}
  {f : Frame}

theorem LevelsOnly.keyAt (levels : LevelsOnly nodes nodes') : keyAt nodes' = keyAt nodes :=
  funext (levels.get_elim 0 Node.key fun _ => rfl)

theorem AtNode.relevel (levels : LevelsOnly nodes nodes') (standing : AtNode nodes linked f) :
    AtNode nodes' linked f := by
  refine ⟨standing.nodeLinked, ?_, standing.positive, standing.value, standing.unset⟩
  rw [levels.keyAt]
  exact standing.notPast

theorem AtNext.relevel (levels : LevelsOnly nodes nodes') (standing : AtNext nodes linked f) :
    AtNext nodes' linked f := by
  refine ⟨standing.toAtNode.relevel levels, standing.nextLinked, ?_⟩
  rw [levels.keyAt]
  exact standing.onward

theorem AtGap.relevel (levels : LevelsOnly nodes nodes') (standing : AtGap nodes linked f) :
    AtGap nodes' linked f := by
  refine ⟨standing.toAtNode.relevel levels, ?_⟩
  rw [levels.keyAt]
  exact standing.past

theorem Inserting.relevel (levels : LevelsOnly nodes nodes')
    (inserting : Inserting nodes linked status f) : Inserting nodes' linked status f := by
  refine ⟨inserting.toAtGap.relevel levels, ?_, inserting.pending, inserting.isInsert⟩
  rw [levels.keyAt]
  exact inserting.before

theorem Building.relevel (levels : LevelsOnly nodes nodes') {fields : Node → Prop}
    (blind : ∀ (node : Node) level, fields node → fields (node.atLevel level))
    (building : Building nodes linked status f fields) : Building nodes' linked status f fields := by
  refine ⟨building.toInserting.relevel levels, building.freshNonzero, building.freshNotVal, ?_⟩
  obtain ⟨node, stored, built⟩ := building.content
  obtain ⟨level, stored'⟩ := levels.found stored
  exact ⟨_, stored', blind node level built⟩

theorem ThreadOk.relevel (levels : LevelsOnly nodes nodes') {state : Local}
    (ok : ThreadOk nodes linked status state) : ThreadOk nodes' linked status state := by
  obtain ⟨pc, f⟩ := state
  have sameVal : sawVal nodes' f = sawVal nodes f := by simp only [sawVal, levels.keyAt]
  have sameDecided : decided nodes' f = decided nodes f := by simp only [decided, levels.keyAt]
  have sameNext : sawNext nodes' f = sawNext nodes f := by
    simp only [sawNext, levels.keyAt, sameDecided, sameVal]
  cases pc with
  | readVal => exact ⟨ok.1.relevel levels, ok.2⟩
  | readNext => exact ⟨ok.1.relevel levels, ok.2.trans sameVal.symm⟩
  | readNextVal | readNextKey => exact ⟨ok.1.relevel levels, ok.2.trans sameNext.symm⟩
  | containsKey | deleteKey | insertKey =>
      exact ⟨ok.1.relevel levels, ok.2.1.trans sameDecided.symm, ok.2.2⟩
  | deleteVal | deleteCas | insertCasVal =>
      exact ⟨ok.1.relevel levels, (congrFun levels.keyAt _).trans ok.2.1, ok.2.2⟩
  | newNode stage =>
      cases stage with
      | malloc => exact Inserting.relevel levels ok
      | key | val | prev | next | level => exact Building.relevel levels (fun _ _ built => built) ok
  | insertCasNext => exact Building.relevel levels (fun _ _ built => built) ok
  | freeNode => exact Inserting.relevel levels ok
  | storePrev =>
      refine ⟨ok.1, ok.2.1, ok.2.2.1, ?_⟩
      rw [levels.keyAt]
      exact ok.2.2.2
  | returned result =>
      refine ⟨ok.1, ok.2.imp_right fun set => ⟨set.1, ?_⟩⟩
      rw [levels.keyAt]
      exact set.2
  | readPrev | removeVal | removeKey | removeNext | removeTest | newMarker | markerVal | markerCas
    | reloadNext | prevNext | prevKey | prevPrev | ptrNext | removeCas => exact ok.elim

theorem Agrees.relevel {layer : DataLayer} {atomic : AtomicState (Finset Nat) Operation Nat}
    (agrees : Agrees layer linked atomic) (levels : LevelsOnly layer.nodes nodes') :
    Agrees { layer with nodes := nodes' } linked atomic := by
  refine ⟨agrees.list.relevel levels, agrees.outside,
    fun thread state running => (agrees.inside thread state running).relevel levels, ?_, agrees.apart⟩
  intro thread state address running owner
  obtain ⟨notLinked, present⟩ := agrees.owns thread state address running owner
  obtain ⟨node, stored⟩ := Option.isSome_iff_exists.mp present
  obtain ⟨level, stored'⟩ := levels.found stored
  exact ⟨notLinked, Option.isSome_of_mem stored'⟩

end Levels

section Traversing

variable {head : Nat} {nodes nodes' : Nodes} {linked : List Nat} {keys : Finset Nat}
  {status : Status Operation Nat} {malloc : Malloc} {state state' : Local} {f : Frame}

def JobReady (state : Local) : Prop :=
  let f := state.frame
  match state.pc with
  | .storePrev => f.op.optype = .insert ∧ f.newNode ≠ 0
  | .returned result => result ≤ 1 ∧
      (result ≠ 0 → f.op.optype ≠ .contains → (f.pnode ≠ 0 ↔ f.op.optype = .insert))
  | _ => True

theorem jobReady_finish (optype : OpType) (f : Frame) : JobReady ⟨finishPc optype, f⟩ := by
  cases optype <;> exact trivial

theorem dataStep_jobReady (list : ListOk head nodes linked keys)
    (ok : ThreadOk nodes linked status state) (ready : JobReady state)
    (step : dataStep malloc nodes state = some (nodes', state')) : JobReady state' := by
  obtain ⟨pc, f⟩ := state
  cases pc with
  | readVal | readNextVal | freeNode | insertKey | deleteVal | deleteKey =>
      simp only [dataStep, Option.bind_eq_bind, Option.bind_eq_some_iff] at step
      grind [JobReady]
  | readNext | readNextKey =>
      simp only [dataStep, Option.bind_eq_bind, Option.bind_eq_some_iff] at step
      grind [JobReady, jobReady_finish]
  | containsKey =>
      have isContains : f.op.optype = .contains := ok.2.2
      simp only [dataStep, Option.bind_eq_bind, Option.bind_eq_some_iff] at step
      grind [JobReady]
  | deleteCas =>
      have standing : AtNode nodes linked f := ok.1
      have unset := standing.unset
      have isDelete : f.op.optype = .delete := ok.2.2.2.1
      simp only [dataStep, Option.bind_eq_bind, Option.bind_eq_some_iff] at step
      grind [JobReady]
  | insertCasVal =>
      have nonzero : f.node ≠ 0 := list.nonzero ok.1.nodeLinked
      have isInsert : f.op.optype = .insert := ok.2.2.2.1
      simp only [dataStep, Option.bind_eq_bind, Option.bind_eq_some_iff] at step
      grind [JobReady]
  | newNode stage =>
      cases stage <;> simp [dataStep, newStep, Option.bind_eq_some_iff] at step <;> grind [JobReady]
  | insertCasNext =>
      have building : Building nodes linked status f (Linkable f) := ok
      have nonzero := building.freshNonzero
      have isInsert := building.isInsert
      simp only [dataStep, Option.bind_eq_bind, Option.bind_eq_some_iff] at step
      grind [JobReady]
  | storePrev =>
      obtain ⟨isInsert, nonzero⟩ : f.op.optype = .insert ∧ f.newNode ≠ 0 := ready
      simp only [dataStep, Option.bind_eq_bind, Option.bind_eq_some_iff] at step
      grind [JobReady]
  | returned result => exact absurd step (Option.some_ne_none _).symm
  | readPrev | removeVal | removeKey | removeNext | removeTest | newMarker | markerVal | markerCas
    | reloadNext | prevNext | prevKey | prevPrev | ptrNext | removeCas => exact ok.elim

end Traversing

def InsertPc.carries : InsertPc → Option Op
  | .idle => none
  | .fullApp op | .fullHlp op _ | .keyIdx op | .keyStore op _ | .nodeIdx op | .nodeStore op _
  | .nextIdx op | .nextStore op _ | .returning op => some op

structure Told (nodes : Nodes) (linked : List Nat) (op : Operation) (job : Op) : Prop where
  key : job.key = op.key
  jobFor : JobFor nodes linked job
  updates : op.optype ≠ .contains
  inserts : job.node ≠ 0 ↔ op.optype = .insert

/-- The updates of an application thread are on their way to its helper, all of them and in order. -/
structure PipeOk (bufSize : Nat) (nodes : Nodes) (linked : List Nat) (ring : Ring) (app : AppPc)
    (updates : List (Operation × Op)) : Prop where
  ringOk : ring.Ok
  size : ring.buffer.bufSize = bufSize
  told : ∀ update ∈ updates, Told nodes linked update.1 update.2
  carried : ∀ op, ring.inserting.carries = some op → app = .offering op
  sent : updates.map Prod.snd = ring.accepted ++ app.offered

namespace PipeOk

variable {head bufSize : Nat} {nodes nodes' : Nodes} {linked linked' : List Nat} {keys' : Finset Nat}
  {ring : Ring} {app app' : AppPc} {updates : List (Operation × Op)}

theorem initial (positive : 0 < bufSize) :
    PipeOk bufSize nodes linked (Ring.new bufSize) .idle [] :=
  ⟨Ring.run_ok positive [], rfl, fun _ none => absurd none List.not_mem_nil,
    fun op wrong => absurd wrong (Option.some_ne_none op).symm, rfl⟩

theorem onward (onward : Onward head nodes linked nodes' linked' keys')
    (ok : PipeOk bufSize nodes linked ring app updates) : PipeOk bufSize nodes' linked' ring app updates := by
  refine ⟨ok.ringOk, ok.size, fun update member => ?_, ok.carried, ok.sent⟩
  have told := ok.told update member
  exact ⟨told.key, told.jobFor.onward onward, told.updates, told.inserts⟩

theorem move (ok : PipeOk bufSize nodes linked ring app updates) (before : app.offered = [])
    (after : app'.offered = []) : PipeOk bufSize nodes linked ring app' updates := by
  refine ⟨ok.ringOk, ok.size, ok.told, fun op carries => ?_, ?_⟩
  · rw [ok.carried op carries] at before
    exact absurd before (List.cons_ne_nil op [])
  · rw [ok.sent, before, after]

theorem push (ok : PipeOk bufSize nodes linked ring app updates) (before : app.offered = []) {op : Operation}
    {job : Op} (told : Told nodes linked op job) :
    PipeOk bufSize nodes linked ring (.offering job) (updates ++ [(op, job)]) := by
  refine ⟨ok.ringOk, ok.size, fun update member => ?_, fun other carries => ?_, ?_⟩
  · rcases List.mem_append.mp member with old | fresh
    · exact ok.told update old
    · rw [List.mem_singleton.mp fresh]
      exact told
  · rw [ok.carried other carries] at before
    exact absurd before (List.cons_ne_nil other [])
  · rw [List.map_append, ok.sent, before, List.append_nil]
    rfl

theorem offer {op : Op} (ok : PipeOk bufSize nodes linked ring (.offering op) updates) :
    PipeOk bufSize nodes linked (ring.appTurn op) (.offers op ring.inserting) updates := by
  have sent : updates.map Prod.snd = ring.accepted ++ [op] := ok.sent
  have same : ∀ other, ring.inserting.carries = some other → op = other :=
    fun other carries => AppPc.offering.inj (ok.carried other carries)
  refine ⟨Ring.appTurn_ok ok.ringOk op, ?_, ok.told, ?_, ?_⟩
  · rw [← ok.size]
    cases pc : ring.inserting <;> grind [Ring.appTurn, OpBuffer.setKey, OpBuffer.setNode]
  · intro other carries
    cases pc : ring.inserting <;> grind [Ring.appTurn, InsertPc.carries, AppPc.offers]
  · cases pc : ring.inserting with
    | returning other =>
        obtain rfl := same other (by rw [pc]; rfl)
        simp [Ring.appTurn, pc, AppPc.offers, AppPc.offered, sent]
    | _ =>
        rw [sent]
        grind [Ring.appTurn, AppPc.offers, AppPc.offered]

theorem remove (ok : PipeOk bufSize nodes linked ring app updates) :
    PipeOk bufSize nodes linked ring.hlpTurn app updates := by
  have kept : ring.hlpTurn.inserting = ring.inserting ∧ ring.hlpTurn.accepted = ring.accepted ∧
      ring.hlpTurn.buffer.bufSize = ring.buffer.bufSize := by
    cases pc : ring.removing <;> grind [Ring.hlpTurn]
  refine ⟨Ring.hlpTurn_ok ok.ringOk, kept.2.2.trans ok.size, ok.told, ?_, ?_⟩
  · rw [kept.1]
    exact ok.carried
  · rw [kept.2.1]
    exact ok.sent

theorem published_prefix (ok : PipeOk bufSize nodes linked ring app updates) :
    ring.published <+: updates.map Prod.snd := by
  rw [ok.sent, ok.ringOk.accepted]
  cases pc : ring.inserting with
  | returning op =>
      rw [ok.carried op (by rw [pc]; rfl)]
      exact List.prefix_refl _
  | _ => simp [InsertPc.unreturned]

theorem returned_prefix (ok : PipeOk bufSize nodes linked ring app updates) :
    ring.returned <+: updates.map Prod.snd := by
  have taken : ring.returned <+: ring.published := by
    rw [ok.ringOk.history]
    exact List.take_prefix _ _
  exact taken.trans ok.published_prefix

end PipeOk

theorem Replays.call {jobs : List Job} {index : Index} (int : Int → Int)
    (replays : Replays jobs index.entries) (call : Call) :
    Replays (jobs ++ call.asJob.toList) (index.call int call).entries := by
  cases call with
  | job job => exact replays.snoc job
  | pass =>
      rw [show jobs ++ Call.pass.asJob.toList = jobs from List.append_nil _]
      exact replays.stays.relevelled (Index.updateIndexLayer_relevelled int index)
  | reset =>
      rw [show jobs ++ Call.reset.asJob.toList = jobs from List.append_nil _]
      exact replays.relevelled (Index.reset_relevelled index)

def AppPc.held : AppPc → List Nat
  | .searching _ pc => pc.inodes
  | _ => []

/-- The enclave is sound over the data list, knows of the jobs it has taken, and a search that is under
way in it stands rightly. -/
def HelperOk (nodes : Nodes) (linked : List Nat) (jobs : List Op) (app : AppPc)
    (enclave : Option Enclave) : Prop :=
  ∃ e l, enclave = some e ∧ Repr { e with nodes := nodes } l ∧ l.Sourced (· ∈ linked) ∧
    Replays (jobs.map Op.job) (abs e l).entries ∧
    ∀ op pc, app = .searching op pc → 1 ≤ op.key ∧ op.val ≠ 0 ∧
      ∃ left, Standing (· ∈ linked) { e with nodes := nodes } l op.key pc left

def HelperAt (nodes : Nodes) (linked : List Nat) (jobs : List Op) (app : AppPc)
    (enclave : Option Enclave) (left : Nat) : Prop :=
  ∃ e l, enclave = some e ∧ Repr { e with nodes := nodes } l ∧ l.Sourced (· ∈ linked) ∧
    Replays (jobs.map Op.job) (abs e l).entries ∧
    ∀ op pc, app = .searching op pc → 1 ≤ op.key ∧ op.val ≠ 0 ∧
      Standing (· ∈ linked) { e with nodes := nodes } l op.key pc left

theorem HelperOk.at {nodes : Nodes} {linked : List Nat} {jobs : List Op} {app : AppPc}
    {enclave : Option Enclave} (ok : HelperOk nodes linked jobs app enclave) :
    ∃ left, HelperAt nodes linked jobs app enclave left := by
  obtain ⟨e, l, same, repr, sourced, replays, stands⟩ := ok
  cases app with
  | searching op pc =>
      obtain ⟨positive, value, left, standing⟩ := stands op pc rfl
      refine ⟨left, e, l, same, repr, sourced, replays, ?_⟩
      rintro other later searching
      obtain ⟨rfl, rfl⟩ := AppPc.searching.inj searching
      exact ⟨positive, value, standing⟩
  | idle | traversing _ | offering _ =>
      exact ⟨0, e, l, same, repr, sourced, replays, fun _ _ => AppPc.noConfusion⟩

namespace HelperAt

variable {head left : Nat} {nodes nodes' : Nodes} {linked linked' : List Nat} {keys' : Finset Nat}
  {jobs : List Op} {app app' : AppPc} {enclave : Option Enclave}

theorem ok (helper : HelperAt nodes linked jobs app enclave left) :
    HelperOk nodes linked jobs app enclave := by
  obtain ⟨e, l, same, repr, sourced, replays, stands⟩ := helper
  refine ⟨e, l, same, repr, sourced, replays, fun op pc searching => ?_⟩
  obtain ⟨positive, value, standing⟩ := stands op pc searching
  exact ⟨positive, value, left, standing⟩

theorem standing_onward {e : Enclave} {l : Layout} {key left : Nat} {pc : SearchPc}
    (onward : Onward head nodes linked nodes' linked' keys')
    (stands : Standing (· ∈ linked) { e with nodes := nodes } l key pc left) :
    Standing (· ∈ linked') { e with nodes := nodes' } l key pc left := by
  cases pc with
  | right item | down item | intermed item =>
      obtain ⟨way, here, isLeft⟩ := stands
      exact ⟨way, ⟨here.good, here.before⟩, isLeft⟩
  | rightKey item nextItem =>
      obtain ⟨way, here, facts⟩ := stands
      exact ⟨way, ⟨here.good, here.before⟩, facts⟩
  | rightKeyAgain item nextItem =>
      obtain ⟨way, ahead, here, there, facts⟩ := stands
      exact ⟨way, ahead, ⟨here.good, here.before⟩, ⟨there.good, there.before⟩, facts⟩
  | next _ | nextAgain _ | nextKey _ _ | advance _ | node _ => exact stands
  | returned node =>
      obtain ⟨isLeft, isLinked, found, stored, notPast⟩ := stands
      obtain ⟨found', stored', _⟩ := onward.list.found (onward.stays node isLinked)
      have sameKey := onward.sameKeys node isLinked
      rw [keyAt_found stored', keyAt_found stored] at sameKey
      exact ⟨isLeft, onward.stays node isLinked, found', stored', sameKey ▸ notPast⟩

theorem onward (onward : Onward head nodes linked nodes' linked' keys')
    (helper : HelperAt nodes linked jobs app enclave left) :
    HelperAt nodes' linked' jobs app enclave left := by
  obtain ⟨e, l, same, repr, sourced, replays, stands⟩ := helper
  refine ⟨e, l, same, repr.renode ?_, fun p member => onward.stays _ (sourced p member), replays, ?_⟩
  · intro p member
    have isLinked := sourced p member
    obtain ⟨node, found, key⟩ := repr.intermed.nodes p member
    obtain ⟨node', found', _⟩ := onward.list.found (onward.stays _ isLinked)
    have sameKey := onward.sameKeys _ isLinked
    rw [keyAt_found found', keyAt_found found] at sameKey
    exact ⟨node', found', sameKey.trans key⟩
  · intro op pc searching
    obtain ⟨positive, value, standing⟩ := stands op pc searching
    exact ⟨positive, value, standing_onward onward standing⟩

theorem leave (helper : HelperAt nodes linked jobs app enclave left)
    (outside : ∀ op pc, app' ≠ .searching op pc) : HelperAt nodes linked jobs app' enclave left := by
  obtain ⟨e, l, same, repr, sourced, replays, _⟩ := helper
  exact ⟨e, l, same, repr, sourced, replays, fun op pc searching => absurd searching (outside op pc)⟩

theorem enter (helper : HelperAt nodes linked jobs app enclave left) : ∃ e height, enclave = some e ∧
    ∀ op : Operation, 1 ≤ op.key → op.val ≠ 0 →
      HelperAt nodes linked jobs (.searching op (.right e.sentinel)) enclave
        (5 * (height * (op.key + 1) + op.key) + 5 * op.key + 11) := by
  obtain ⟨e, l, same, repr, sourced, replays, _⟩ := helper
  obtain ⟨_, inode, _, _, good, found, headKey, _⟩ := repr.sentinel
  refine ⟨e, l.rank e.sentinel, same, fun op positive value => ⟨e, l, same, repr, sourced, replays, ?_⟩⟩
  rintro other pc searching
  obtain ⟨rfl, rfl⟩ := AppPc.searching.inj searching
  refine ⟨positive, value, _, ⟨good, inode, found, by omega, rfl⟩, ?_⟩
  rw [show inode.key = 0 from headKey, Nat.sub_zero]

theorem read {op : Operation} {pc : SearchPc}
    (helper : HelperAt nodes linked jobs (.searching op pc) enclave left) : ∃ e pc' left',
      enclave = some e ∧ Enclave.searchRead { e with nodes := nodes } op.key pc = some pc' ∧
      HelperAt nodes linked jobs (.searching op pc') enclave left' ∧ left' ≤ left - 1 := by
  obtain ⟨e, l, same, repr, sourced, replays, stands⟩ := helper
  obtain ⟨positive, value, standing⟩ := stands op pc rfl
  obtain ⟨pc', left', read, standing', fewer⟩ := repr.standing_read sourced standing
  refine ⟨e, pc', left', same, read, ⟨e, l, same, repr, sourced, replays, ?_⟩, fewer⟩
  rintro other later searching
  obtain ⟨rfl, rfl⟩ := AppPc.searching.inj searching
  exact ⟨positive, value, standing'⟩

theorem going {op : Operation} {pc : SearchPc}
    (helper : HelperAt nodes linked jobs (.searching op pc) enclave left)
    (notYet : ∀ node, pc ≠ .returned node) : 1 ≤ left := by
  obtain ⟨e, l, _, _, _, _, stands⟩ := helper
  obtain ⟨_, _, standing⟩ := stands op pc rfl
  cases pc with
  | returned node => exact absurd rfl (notYet node)
  | right _ | down _ | intermed _ | node _ | next _ | nextAgain _ | nextKey _ _ | advance _
  | rightKey _ _ | rightKeyAgain _ _ =>
      by_contra none
      simp [Standing, show left = 0 by omega] at standing

theorem found {op : Operation} {node : Nat}
    (helper : HelperAt nodes linked jobs (.searching op (.returned node)) enclave left) :
    AtNode nodes linked (slTraverseData node op).frame := by
  obtain ⟨e, l, _, _, _, _, stands⟩ := helper
  obtain ⟨positive, value, _, isLinked, found, stored, notPast⟩ := stands op _ rfl
  have key : keyAt nodes node = found.key := keyAt_found stored
  exact ⟨isLinked, by rw [slTraverseData, key]; exact notPast, positive, value, rfl⟩

theorem call {platform : Platform} (honest : platform.Honest) {keys : Finset Nat} {e : Enclave}
    (list : ListOk head nodes linked keys) (helper : HelperAt nodes linked jobs app (some e) left)
    {call : Call} {jobs' : List Op} (taken : jobs'.map Op.job = jobs.map Op.job ++ call.asJob.toList)
    (jobOk : ∀ job, call = .job job → JobFor nodes linked ⟨job.key, job.node⟩)
    (clean : call = .pass → Enclave.CleanPass platform { e with nodes := nodes })
    (quiet : call = .pass → ∀ op pc, app = .searching op pc →
      Enclave.PassesBy platform pc.inodes { e with nodes := nodes } ∧
        Enclave.SearchSpared { e with nodes := nodes } op.key pc)
    (noSearch : call = .reset → ∀ op pc, app ≠ .searching op pc) : ∃ e',
      Enclave.call platform { e with nodes := nodes } call = some e' ∧ LevelsOnly nodes e'.nodes ∧
      HelperAt e'.nodes linked jobs' app (some e') left := by
  obtain ⟨_, l, ⟨⟩, repr, sourced, replays, stands⟩ := helper
  have stored : ∀ job, call = .job job → 1 ≤ job.key ∧
      (job.node ≠ 0 → (Store.get nodes job.node).map Node.key = some job.key) :=
    fun job isJob => (jobOk job isJob).stored list
  have goods : ∀ root ∈ app.held, call ≠ .reset ∧ l.good root := by
    intro root isHeld
    cases app with
    | searching op pc =>
        obtain ⟨_, _, standing⟩ := stands op pc rfl
        exact ⟨fun isReset => noSearch isReset op pc rfl, Repr.standing_good standing root isHeld⟩
    | idle | traversing _ | offering _ => exact absurd isHeld List.not_mem_nil
  have away : call = .pass → Enclave.PassesBy platform app.held { e with nodes := nodes } := by
    intro isPass
    cases app with
    | searching op pc => exact (quiet isPass op pc rfl).1
    | idle | traversing _ | offering _ => exact Enclave.passesBy_nil platform _
  obtain ⟨e', l', called, levels, repr', keeps, absEq⟩ :=
    repr.call_keeps honest call stored clean goods away
  refine ⟨e', called, levels, e', l', rfl, repr', ?_, ?_, ?_⟩
  · exact repr.call_sourced repr' keeps absEq sourced fun job isJob inserts =>
      ((jobOk job isJob).2 inserts).1
  · rw [absEq, taken]
    exact replays.call platform.int call
  · rintro op pc rfl
    obtain ⟨positive, value, standing⟩ := stands op pc rfl
    exact ⟨positive, value, repr.standing_kept keeps levels
      (fun isPass => (quiet isPass op pc rfl).2) standing⟩

end HelperAt

namespace HelperOk

variable {head : Nat} {nodes nodes' : Nodes} {linked linked' : List Nat} {keys' : Finset Nat}
  {jobs : List Op} {app : AppPc} {enclave : Option Enclave}

theorem onward (onward : Onward head nodes linked nodes' linked' keys')
    (ok : HelperOk nodes linked jobs app enclave) : HelperOk nodes' linked' jobs app enclave := by
  obtain ⟨left, helper⟩ := ok.at
  exact (helper.onward onward).ok

theorem found {op : Operation} {node : Nat}
    (ok : HelperOk nodes linked jobs (.searching op (.returned node)) enclave) :
    AtNode nodes linked (slTraverseData node op).frame := by
  obtain ⟨left, helper⟩ := ok.at
  exact helper.found

end HelperOk

end Hosk
