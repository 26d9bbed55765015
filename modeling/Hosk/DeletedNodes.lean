import Hosk.StandingTowers

/-! What can be come to from the sentinel inode of an enclave, and when nothing deleted can be. -/

namespace Hosk

namespace Enclave

/-- The inodes on the paths of right and down pointers from the sentinel. -/
def InodeReached (e : Enclave) : Nat → Prop :=
  Relation.ReflTransGen (fun source target => target ≠ 0 ∧
    (rightAt e.inodes source = some target ∨ downAt e.inodes source = some target)) e.sentinel

/-- The mnodes on the paths that go on through an intermed pointer and next pointers. -/
def MnodeReached (e : Enclave) (address : Nat) : Prop :=
  ∃ item inode, e.InodeReached item ∧ e.inode item = some inode ∧ inode.intermed ≠ 0 ∧
    Chain.Follows (nextAt e.mnodes) inode.intermed address

def NoneDeleted (e : Enclave) : Prop :=
  ∀ address, e.InodeReached address ∨ e.MnodeReached address → address ∉ dead e.trace

end Enclave

namespace Repr

variable {e : Enclave} {l : Layout} {platform : Platform} {low second : List (Nat × Nat)}
  {newLow : Nat}

theorem reached_good (repr : Repr e l) {address : Nat} (reached : e.InodeReached address) :
    l.good address := by
  induction reached with
  | refl =>
      obtain ⟨_, _, _, _, good, _⟩ := repr.sentinel
      exact good
  | tail _ step good =>
      obtain ⟨inode, found, ok⟩ := repr.grid.goods _ good
      obtain ⟨nonzero, right | down⟩ := step
      · rw [rightAt_found found] at right
        obtain rfl := Option.some.inj right
        exact (ok.right nonzero).1
      · rw [downAt_found found] at down
        obtain rfl := Option.some.inj down
        exact (ok.down nonzero).1

theorem reached_listed (repr : Repr e l) {address : Nat} (reached : e.MnodeReached address) :
    ∃ entry, (address, entry) ∈ l.mnodes := by
  obtain ⟨item, inode, inodeReached, found, nonzero, follows⟩ := reached
  obtain ⟨entry, _, listed, _⟩ := repr.under (repr.reached_good inodeReached) found
  obtain ⟨before, after, split⟩ := List.append_of_mem listed
  have chain := repr.intermed.chain
  rw [split, List.map_append, List.map_cons] at chain
  have member := (chain.suffix_cons.follows_iff nonzero).mp follows
  rw [← List.map_cons (f := Prod.fst)] at member
  obtain ⟨p, inRest, rfl⟩ := List.mem_map.mp member
  exact ⟨p.2, by rw [split]; exact List.mem_append_right _ inRest⟩

theorem none_deleted (repr : Repr e l) : e.NoneDeleted := by
  rintro address (inodeReached | mnodeReached)
  · exact live_not_dead (repr.liveInodes address (repr.reached_good inodeReached))
  · obtain ⟨entry, listed⟩ := repr.reached_listed mnodeReached
    exact live_not_dead (repr.liveMnodes _ listed)

/-- What was open before a row is dropped can still be come to, or leads through the row. -/
theorem reached_or_dropped (repr : Repr e l) {e' : Enclave} (isSecond : l.rows[1]? = some second)
    (isHead : l.heads[1]? = some newLow) (lowered : Lowered e l low second e') {address : Nat}
    (opened : Relation.ReflTransGen (e.OpenStep newLow) e.sentinel address) :
    e'.InodeReached address ∨ ∃ dropped ∈ low.map Prod.fst, e'.InodeReached dropped := by
  induction opened with
  | refl =>
      rw [← lowered.sentinel]
      exact .inl Relation.ReflTransGen.refl
  | @tail source target earlier step ih =>
      rcases ih with reached | dropped
      · by_cases inLow : source ∈ low.map Prod.fst
        · exact .inr ⟨source, inLow, reached⟩
        · obtain ⟨inode, found, _⟩ := repr.grid.goods source
            (repr.path_good repr.sentinel_good earlier)
          have kept := lowered.kept source inLow
          rw [show e.inode source = some inode from found, Option.map_some] at kept
          obtain ⟨nonzero, right | ⟨down, notSecond⟩⟩ := step
          · refine .inl (reached.tail ⟨nonzero, .inl ?_⟩)
            rw [rightAt_found found] at right
            rw [rightAt_found kept, ← right]
            split <;> rfl
          · refine .inl (reached.tail ⟨nonzero, .inr ?_⟩)
            rw [repr.follows_second isSecond isHead] at notSecond
            rw [downAt_found found] at down
            rw [downAt_found kept, if_neg notSecond, down]
      · exact .inr dropped

/-- A lowering leaves nothing deleted within reach exactly when it drops the row cleanly. -/
theorem lowering_none_deleted_iff (honest : platform.Honest) (repr : Repr e l) {e' : Enclave}
    (isHead : l.heads[1]? = some newLow)
    (done : e.bgLowerIlevel platform newLow = some e') :
    e'.NoneDeleted ↔ e.DropsCleanly newLow := by
  have wide := wide_of_second isHead
  have isLow := List.getElem?_eq_getElem (show 0 < l.rows.length by omega)
  have isSecond := List.getElem?_eq_getElem wide
  constructor
  · intro none oldLow address down follows opened
    obtain ⟨after, done', lowered⟩ := repr.bgLowerIlevel_returns honest isLow isSecond isHead
    obtain rfl : after = e' := Option.some.inj (done'.symm.trans done)
    obtain ⟨inode, found, bottom | ⟨j, same, isDown⟩⟩ := repr.head_down isHead
    · exact absurd bottom.1 Nat.one_ne_zero
    obtain rfl : j = 0 := (Nat.succ.inj same).symm
    rw [downAt_found found] at down
    obtain rfl := Option.some.inj down
    have inLow := (repr.follows_second isLow isDown).mp follows
    have deleted : ∀ dropped ∈ l.rows[0].map Prod.fst, dropped ∈ dead after.trace :=
      fun dropped member => (lowered.gone dropped).mpr (.inl member)
    rcases repr.reached_or_dropped isSecond isHead lowered opened with reached | ⟨dropped, member, reached⟩
    · exact none address (.inl reached) (deleted address inLow)
    · exact none dropped (.inl reached) (deleted dropped member)
  · intro clean
    obtain ⟨after, l', done', _, repr', _⟩ := repr.bgLowerIlevel_refines honest isHead
      (fun root (none : root ∈ []) => absurd none List.not_mem_nil)
      fun root isSentinel => List.mem_singleton.mp isSentinel ▸ clean
    obtain rfl : after = e' := Option.some.inj (done'.symm.trans done)
    exact repr'.none_deleted

theorem pass_none_deleted_iff (honest : platform.Honest) (repr : Repr e l) : ∃ e',
    e.updateIndexLayer platform = some e' ∧ (e'.NoneDeleted ↔ e.CleanPass platform) := by
  obtain ⟨middle, l₁, inodes, raised, _, repr₁, _, heads, _⟩ := repr.raiseIndexLayer_refines honest
  rcases lowers_eq platform middle l₁ heads with ⟨stays, _⟩ | ⟨newLow, drops, isHead, _⟩
  · refine ⟨middle, ?_, fun _ => ?_, fun _ => repr₁.none_deleted⟩
    · rw [Enclave.updateIndexLayer, raised]
      simp only [Option.bind_eq_bind, Option.bind_some, stays]
    · intro inodes' middle' newLow raised' drops
      obtain ⟨rfl, rfl⟩ := Prod.mk.inj (Option.some.inj (raised.symm.trans raised'))
      exact absurd (stays.symm.trans drops) (Option.some_ne_none newLow).symm
  · have wide : 1 < l₁.rows.length := by
      rw [← heads_length]
      exact (List.getElem?_eq_some_iff.mp isHead).1
    obtain ⟨e', done, _⟩ := repr₁.bgLowerIlevel_returns honest
      (List.getElem?_eq_getElem (show 0 < l₁.rows.length by omega)) (List.getElem?_eq_getElem wide)
      isHead
    refine ⟨e', ?_, (repr₁.lowering_none_deleted_iff honest isHead done).trans ⟨fun clean => ?_, ?_⟩⟩
    · rw [Enclave.updateIndexLayer, raised]
      simp only [Option.bind_eq_bind, Option.bind_some, drops, done]
    · intro inodes' middle' newLow' raised' drops'
      obtain ⟨rfl, rfl⟩ := Prod.mk.inj (Option.some.inj (raised.symm.trans raised'))
      obtain rfl := Option.some.inj (drops.symm.trans drops')
      exact clean
    · exact fun clean => clean inodes middle newLow raised drops

theorem along_none_deleted_iff (honest : platform.Honest) (calls : List Call) : ∀ e l, Repr e l →
    JobsOk e.nodes (jobsOf calls) →
    (Runs.Along (Enclave.turn platform)
        (fun state call => ∀ e', Enclave.turn platform state call = some e' → e'.NoneDeleted)
        (some e) calls ↔
      Runs.Along (Enclave.turn platform)
        (fun state call => ∀ e, state = some e → call = .pass → e.CleanPass platform)
        (some e) calls) := by
  induction calls with
  | nil => exact fun e l repr jobs => Iff.rfl
  | cons call rest ih =>
      intro e l repr jobs
      have onward : (call = .pass → e.CleanPass platform) → ∃ middle l₁,
          Enclave.turn platform (some e) call = some middle ∧ Repr middle l₁ ∧
            JobsOk middle.nodes (jobsOf rest) := by
        intro clean
        obtain ⟨middle, l₁, called, levels, repr₁, _⟩ := repr.call_refines honest call jobs.first clean
        exact ⟨middle, l₁, called, repr₁, jobs.later levels⟩
      constructor
      · rintro ⟨now, later⟩
        have clean : call = .pass → e.CleanPass platform := by
          rintro rfl
          obtain ⟨e', done, exactly⟩ := repr.pass_none_deleted_iff honest
          exact exactly.mp (now e' done)
        obtain ⟨middle, l₁, turned, repr₁, jobsLater⟩ := onward clean
        refine ⟨fun before same => Option.some.inj same ▸ clean, ?_⟩
        rw [turned] at later ⊢
        exact (ih middle l₁ repr₁ jobsLater).mp later
      · rintro ⟨now, later⟩
        obtain ⟨middle, l₁, turned, repr₁, jobsLater⟩ := onward (now e rfl)
        refine ⟨fun e' done => ?_, ?_⟩
        · obtain rfl := Option.some.inj (turned.symm.trans done)
          exact repr₁.none_deleted
        · rw [turned] at later ⊢
          exact (ih middle l₁ repr₁ jobsLater).mpr later

end Repr

/-- After every call of a run, no deleted inode or mnode is within reach of the sentinel exactly if
every lowering in the run drops its row cleanly. -/
theorem deleted_unreachable_iff_cleanly (setting : Setting) {calls : List Call}
    (jobs : JobsOk setting.nodes (jobsOf calls)) :
    (∀ first rest e, calls = first ++ rest → setting.run first = some e → e.NoneDeleted) ↔
      setting.Cleanly calls := by
  obtain ⟨begin, l, begins, nodes, repr, _⟩ := setting.starts
  rw [← nodes] at jobs
  have along := Repr.along_none_deleted_iff setting.honest calls begin l repr jobs
  have afterwards := Runs.along_after (Enclave.turn setting.platform)
    (fun state => ∀ e, state = some e → e.NoneDeleted) calls (some begin)
  rw [Setting.Cleanly, begins, ← along, afterwards]
  constructor
  · intro always first call rest split e ran
    refine always (first ++ [call]) rest e (by simp [split]) ?_
    rw [Setting.run, begins]
    exact ran
  · intro always first rest e split ran
    rw [Setting.run, begins] at ran
    rcases List.eq_nil_or_concat first with rfl | ⟨earlier, call, rfl⟩
    · obtain rfl := Option.some.inj ran
      exact repr.none_deleted
    · refine always earlier call rest (by simpa using split) e ?_
      simpa using ran

/-- Keys 4 and 8 are raised, then unlinked row by row while the rows above keep them. -/
def staggered : List Call :=
  (List.range' 1 15).map insertJob ++ [.pass] ++
    [1, 2, 3, 5, 6, 7, 9, 10, 11, 12, 13, 14, 15].map deleteJob ++
    [.pass, deleteJob 4, .pass, deleteJob 8] ++ List.replicate 25 .pass

theorem staggered_jobs : JobsOk (numaSetting (List.range' 1 15)).nodes (jobsOf staggered) :=
  ⟨by decide, by decide, by decide⟩

theorem staggered_ends : ∃ e, (numaSetting (List.range' 1 15)).run staggered = some e ∧
    e.InodeReached 21 ∧ 21 ∈ dead e.trace := by
  have ended : ((numaSetting (List.range' 1 15)).run staggered).map (fun e =>
      ([downAt e.inodes e.sentinel, rightAt e.inodes 29, downAt e.inodes 30, downAt e.inodes 27],
        decide (21 ∈ dead e.trace))) = some ([some 29, some 30, some 27, some 21], true) := by
    decide +kernel
  obtain ⟨e, ran, path⟩ := Option.map_eq_some_iff.mp ended
  obtain ⟨steps, isDead⟩ := Prod.mk.inj path
  simp only [List.cons.injEq, and_true] at steps
  obtain ⟨first, second, third, fourth⟩ := steps
  refine ⟨e, ran, ?_, of_decide_eq_true isDead⟩
  have reached : e.InodeReached 29 := Relation.ReflTransGen.single ⟨by decide, .inr first⟩
  exact ((reached.tail ⟨by decide, .inl second⟩).tail ⟨by decide, .inr third⟩).tail
    ⟨by decide, .inr fourth⟩

theorem staggered_reaches_deleted :
    JobsOk (numaSetting (List.range' 1 15)).nodes (jobsOf staggered) ∧
      ∃ e, (numaSetting (List.range' 1 15)).run staggered = some e ∧ ¬ e.NoneDeleted := by
  obtain ⟨e, ran, reached, isDead⟩ := staggered_ends
  exact ⟨staggered_jobs, e, ran, fun none => none 21 (.inl reached) isDead⟩

end Hosk
