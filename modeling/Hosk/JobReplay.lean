import Hosk.IndexInvariant

/-! The intermediate list as a replay of the jobs it was given. -/

namespace Hosk

def latestJob (jobs : List Job) (key : Nat) : Option Job :=
  jobs.reverse.find? fun job => job.key = key

theorem latestJob_snoc (jobs : List Job) (job : Job) (key : Nat) :
    latestJob (jobs ++ [job]) key = if job.key = key then some job else latestJob jobs key := by
  rw [latestJob, List.reverse_append, List.reverse_singleton, List.singleton_append, List.find?_cons]
  by_cases same : job.key = key <;> simp [same, latestJob]

theorem latestJob_key {jobs : List Job} {key : Nat} {job : Job}
    (latest : latestJob jobs key = some job) : job ∈ jobs ∧ job.key = key := by
  refine ⟨List.mem_reverse.mp (List.mem_of_find?_eq_some latest), ?_⟩
  simpa using List.find?_some latest

def Relevelled (entries entries' : List Entry) : Prop :=
  ∃ change : Entry → Entry, (∀ entry, (change entry).key = entry.key ∧
    (change entry).node = entry.node ∧ (change entry).marked = entry.marked) ∧
      entries' = entries.map change

theorem Relevelled.refl (entries : List Entry) : Relevelled entries entries :=
  ⟨id, fun _ => ⟨rfl, rfl, rfl⟩, (List.map_id _).symm⟩

theorem Relevelled.trans {first second third : List Entry} (left : Relevelled first second)
    (right : Relevelled second third) : Relevelled first third := by
  obtain ⟨change, same, rfl⟩ := left
  obtain ⟨change', same', rfl⟩ := right
  refine ⟨change' ∘ change, fun entry => ?_, List.map_map⟩
  obtain ⟨key, node, marked⟩ := same entry
  obtain ⟨key', node', marked'⟩ := same' (change entry)
  exact ⟨key'.trans key, node'.trans node, marked'.trans marked⟩

namespace Index

theorem raise_relevelled (index : Index) (height : Nat) (keys : List Nat) :
    Relevelled index.entries (index.raise height keys).entries := by
  refine ⟨fun entry => if entry.key ∈ keys then { entry with level := height + 1 } else entry, ?_, rfl⟩
  intro entry
  dsimp only
  split <;> exact ⟨rfl, rfl, rfl⟩

theorem raiseRows_relevelled (count : Nat) : ∀ i (index : Index) raised,
    Relevelled index.entries (raiseRows count i index raised).1.entries := by
  induction count with
  | zero => exact fun i index raised => Relevelled.refl _
  | succ count ih =>
      intro i index raised
      have row : Relevelled index.entries (index.raiseIlevel i).1.entries :=
        raise_relevelled (index.unlinkMarked i) (i + 1) _
      exact row.trans (ih (i + 1) (index.raiseIlevel i).1 _)

theorem entries_ite_grow (grows : Prop) [Decidable grows] (index : Index) :
    (if grows then index.grow else index).entries = index.entries := by
  split <;> rfl

theorem raiseIndexLayer_relevelled (int : Int → Int) (index : Index) :
    Relevelled (index.entries.filter Entry.stays) (index.raiseIndexLayer int).entries := by
  dsimp only [raiseIndexLayer]
  rw [entries_ite_grow]
  refine Relevelled.trans ?_ (raiseRows_relevelled _ 0 _ _)
  rw [entries_ite_grow]
  exact raise_relevelled (index.trav int) 0 _

theorem updateIndexLayer_relevelled (int : Int → Int) (index : Index) :
    Relevelled (index.entries.filter Entry.stays) (index.updateIndexLayer int).entries := by
  have raised := raiseIndexLayer_relevelled int index
  rw [updateIndexLayer]
  split
  · refine raised.trans ⟨_, fun entry => ?_, rfl⟩
    split <;> exact ⟨rfl, rfl, rfl⟩
  · exact raised

theorem reset_relevelled (index : Index) : Relevelled index.entries index.reset.entries :=
  ⟨fun entry => { entry with level := 0 }, fun _ => ⟨rfl, rfl, rfl⟩, rfl⟩

end Index

/-- The entries are what the jobs, oldest first, have made of an empty list. -/
structure Replays (jobs : List Job) (entries : List Entry) : Prop where
  sorted : entries.Pairwise fun x y => x.key < y.key
  latest : ∀ entry ∈ entries, ∃ job, latestJob jobs entry.key = some job ∧
    entry.marked = decide (job.node = 0)
  inserted : ∀ entry ∈ entries, ∃ job ∈ jobs, job.key = entry.key ∧ job.node ≠ 0 ∧
    job.node = entry.node
  present : ∀ key job, latestJob jobs key = some job → job.node ≠ 0 →
    ∃ entry ∈ entries, entry.key = key

namespace Replays

variable {jobs : List Job} {entries entries' : List Entry}

theorem relevelled (replays : Replays jobs entries) (levels : Relevelled entries entries') :
    Replays jobs entries' := by
  obtain ⟨change, same, rfl⟩ := levels
  refine ⟨?_, ?_, ?_, ?_⟩
  · rw [List.pairwise_map]
    refine replays.sorted.imp fun {x y} less => ?_
    rw [(same x).1, (same y).1]
    exact less
  · intro entry member
    obtain ⟨old, inOld, rfl⟩ := List.mem_map.mp member
    rw [(same old).1, (same old).2.2]
    exact replays.latest old inOld
  · intro entry member
    obtain ⟨old, inOld, rfl⟩ := List.mem_map.mp member
    rw [(same old).1, (same old).2.1]
    exact replays.inserted old inOld
  · intro key job latest inserts
    obtain ⟨old, inOld, sameKey⟩ := replays.present key job latest inserts
    exact ⟨change old, List.mem_map_of_mem inOld, (same old).1.trans sameKey⟩

theorem stays (replays : Replays jobs entries) : Replays jobs (entries.filter Entry.stays) := by
  refine ⟨replays.sorted.filter _, ?_, ?_, ?_⟩
  · exact fun entry member => replays.latest entry (List.mem_of_mem_filter member)
  · exact fun entry member => replays.inserted entry (List.mem_of_mem_filter member)
  · intro key job latest inserts
    obtain ⟨entry, member, rfl⟩ := replays.present key job latest inserts
    obtain ⟨job', latest', marked⟩ := replays.latest entry member
    obtain rfl := Option.some.inj (latest.symm.trans latest')
    refine ⟨entry, List.mem_filter.mpr ⟨member, ?_⟩, rfl⟩
    simp [Entry.stays, marked, inserts]

end Replays

theorem mem_applyJob (job : Job) {entries : List Entry} {entry : Entry}
    (sorted : entries.Pairwise fun x y => x.key < y.key) :
    entry ∈ applyJob job entries ↔ (entry.key ≠ job.key ∧ entry ∈ entries) ∨
      (∃ old ∈ entries, old.key = job.key ∧ entry = { old with marked := decide (job.node = 0) }) ∨
      (job.node ≠ 0 ∧ (∀ old ∈ entries, old.key ≠ job.key) ∧
        entry = ⟨job.key, job.node, 0, false⟩) := by
  induction entries with
  | nil => by_cases inserts : job.node = 0 <;> simp [applyJob, inserts]
  | cons head rest ih =>
      obtain ⟨above, sortedRest⟩ := List.pairwise_cons.mp sorted
      rcases Nat.lt_trichotomy head.key job.key with smaller | same | greater
      · have different : head.key ≠ job.key := Nat.ne_of_lt smaller
        rw [applyJob, if_pos smaller, List.mem_cons, ih sortedRest]
        constructor
        · rintro (rfl | ⟨other, member⟩ | ⟨old, member, facts⟩ | ⟨inserts, absent, equal⟩)
          · exact .inl ⟨different, List.mem_cons_self⟩
          · exact .inl ⟨other, List.mem_cons_of_mem _ member⟩
          · exact .inr (.inl ⟨old, List.mem_cons_of_mem _ member, facts⟩)
          · exact .inr (.inr ⟨inserts, List.forall_mem_cons.mpr ⟨different, absent⟩, equal⟩)
        · rintro (⟨other, member⟩ | ⟨old, member, facts⟩ | ⟨inserts, absent, equal⟩)
          · rcases List.mem_cons.mp member with rfl | inRest
            · exact .inl rfl
            · exact .inr (.inl ⟨other, inRest⟩)
          · rcases List.mem_cons.mp member with rfl | inRest
            · exact absurd facts.1 different
            · exact .inr (.inr (.inl ⟨old, inRest, facts⟩))
          · exact .inr (.inr (.inr ⟨inserts, (List.forall_mem_cons.mp absent).2, equal⟩))
      · have others : ∀ old ∈ rest, old.key ≠ job.key := fun old member =>
          Nat.ne_of_gt (same ▸ above old member)
        rw [applyJob_present job rest same, List.mem_cons]
        constructor
        · rintro (rfl | member)
          · exact .inr (.inl ⟨head, List.mem_cons_self, same, rfl⟩)
          · exact .inl ⟨others entry member, List.mem_cons_of_mem _ member⟩
        · rintro (⟨other, member⟩ | ⟨old, member, sameKey, equal⟩ | ⟨_, absent, _⟩)
          · rcases List.mem_cons.mp member with rfl | inRest
            · exact absurd same other
            · exact .inr inRest
          · rcases List.mem_cons.mp member with rfl | inRest
            · exact .inl equal
            · exact absurd sameKey (others old inRest)
          · exact absurd same (absent head List.mem_cons_self)
      · have greaterAll : ∀ old ∈ head :: rest, job.key < old.key :=
          List.forall_mem_cons.mpr ⟨greater, fun old member => Nat.lt_trans greater (above old member)⟩
        have others : ∀ old ∈ head :: rest, old.key ≠ job.key := fun old member =>
          Nat.ne_of_gt (greaterAll old member)
        rw [applyJob_absent job greaterAll]
        constructor
        · intro member
          split at member
          · rcases List.mem_cons.mp member with rfl | old
            · exact .inr (.inr ⟨by assumption, others, rfl⟩)
            · exact .inl ⟨others entry old, old⟩
          · exact .inl ⟨others entry member, member⟩
        · rintro (⟨_, member⟩ | ⟨old, member, sameKey, _⟩ | ⟨inserts, _, rfl⟩)
          · split
            · exact List.mem_cons_of_mem _ member
            · exact member
          · exact absurd sameKey (others old member)
          · rw [if_pos inserts]
            exact List.mem_cons_self

theorem applyJob_sorted (job : Job) {entries : List Entry}
    (sorted : entries.Pairwise fun x y => x.key < y.key) :
    (applyJob job entries).Pairwise fun x y => x.key < y.key := by
  induction entries with
  | nil =>
      rw [applyJob]
      split
      · exact List.pairwise_singleton _ _
      · exact List.Pairwise.nil
  | cons head rest ih =>
      obtain ⟨above, sortedRest⟩ := List.pairwise_cons.mp sorted
      rw [applyJob]
      split
      · rename_i smaller
        refine List.pairwise_cons.mpr ⟨fun entry member => ?_, ih sortedRest⟩
        rcases (mem_applyJob job sortedRest).mp member with ⟨_, old⟩ | ⟨old, inRest, _, rfl⟩ | ⟨_, _, rfl⟩
        · exact above entry old
        · exact above old inRest
        · exact smaller
      · split
        · exact List.pairwise_cons.mpr ⟨above, sortedRest⟩
        · split
          · refine List.pairwise_cons.mpr ⟨List.forall_mem_cons.mpr ⟨?_, fun entry member => ?_⟩, sorted⟩
            · dsimp only
              omega
            · have later := above entry member
              dsimp only
              omega
          · exact sorted

theorem applyJob_keys {job : Job} {entries : List Entry}
    (sorted : entries.Pairwise fun x y => x.key < y.key) (inserts : job.node ≠ 0) :
    (applyJob job entries).map Entry.key = entries.map Entry.key ∨
      ∃ first second, entries.map Entry.key = first ++ second ∧
        (applyJob job entries).map Entry.key = first ++ job.key :: second ∧
        job.key ∉ entries.map Entry.key := by
  induction entries with
  | nil => exact .inr ⟨[], [], rfl, by simp [applyJob, inserts], List.not_mem_nil⟩
  | cons head rest ih =>
      obtain ⟨above, sortedRest⟩ := List.pairwise_cons.mp sorted
      rcases Nat.lt_trichotomy head.key job.key with smaller | same | greater
      · rw [applyJob, if_pos smaller, List.map_cons, List.map_cons]
        rcases ih sortedRest with same | ⟨first, second, split, added, fresh⟩
        · exact .inl (by rw [same])
        · refine .inr ⟨head.key :: first, second, by rw [split]; rfl, by rw [added]; rfl, ?_⟩
          exact fun again => (List.mem_cons.mp again).elim (Nat.ne_of_gt smaller) fresh
      · left
        rw [applyJob_present job rest same]
        rfl
      · right
        have greaterAll : ∀ old ∈ head :: rest, job.key < old.key :=
          List.forall_mem_cons.mpr ⟨greater, fun old member => Nat.lt_trans greater (above old member)⟩
        refine ⟨[], (head :: rest).map Entry.key, rfl, ?_, ?_⟩
        · rw [applyJob_absent job greaterAll, if_pos inserts]
          rfl
        · intro again
          obtain ⟨old, member, same⟩ := List.mem_map.mp again
          exact absurd same.symm (Nat.ne_of_lt (greaterAll old member))

namespace Replays

variable {jobs : List Job} {entries : List Entry}

theorem snoc (replays : Replays jobs entries) (job : Job) :
    Replays (jobs ++ [job]) (applyJob job entries) := by
  refine ⟨applyJob_sorted job replays.sorted, ?_, ?_, ?_⟩
  · intro entry member
    rw [latestJob_snoc]
    rcases (mem_applyJob job replays.sorted).mp member with
      ⟨other, old⟩ | ⟨old, _, sameKey, rfl⟩ | ⟨inserts, _, rfl⟩
    · rw [if_neg (Ne.symm other)]
      exact replays.latest entry old
    · exact ⟨job, if_pos sameKey.symm, rfl⟩
    · exact ⟨job, if_pos rfl, by simp [inserts]⟩
  · intro entry member
    rcases (mem_applyJob job replays.sorted).mp member with
      ⟨_, old⟩ | ⟨old, inOld, _, rfl⟩ | ⟨inserts, _, rfl⟩
    · obtain ⟨earlier, inJobs, facts⟩ := replays.inserted entry old
      exact ⟨earlier, List.mem_append_left _ inJobs, facts⟩
    · obtain ⟨earlier, inJobs, facts⟩ := replays.inserted old inOld
      exact ⟨earlier, List.mem_append_left _ inJobs, facts⟩
    · exact ⟨job, List.mem_append_right _ List.mem_cons_self, rfl, inserts, rfl⟩
  · intro key last latest inserts
    rw [latestJob_snoc] at latest
    split at latest
    · rename_i sameKey
      obtain rfl := Option.some.inj latest
      by_cases there : ∃ old ∈ entries, old.key = job.key
      · obtain ⟨old, member, oldKey⟩ := there
        exact ⟨_, (mem_applyJob job replays.sorted).mpr (.inr (.inl ⟨old, member, oldKey, rfl⟩)),
          oldKey.trans sameKey⟩
      · have absent : ∀ old ∈ entries, old.key ≠ job.key :=
          fun old member same => there ⟨old, member, same⟩
        exact ⟨_, (mem_applyJob job replays.sorted).mpr (.inr (.inr ⟨inserts, absent, rfl⟩)), sameKey⟩
    · rename_i otherKey
      obtain ⟨entry, member, rfl⟩ := replays.present key last latest inserts
      exact ⟨entry, (mem_applyJob job replays.sorted).mpr (.inl ⟨Ne.symm otherKey, member⟩), rfl⟩

end Replays

theorem calls_replay (int : Int → Int) (calls : List Call) :
    Replays (jobsOf calls) (calls.foldl (Index.call int) Index.initial).entries := by
  induction calls using List.reverseRecOn with
  | nil =>
      exact ⟨List.Pairwise.nil, by simp [Index.initial], by simp [Index.initial], by simp [latestJob]⟩
  | append_singleton calls call ih =>
      rw [jobsOf_snoc, List.foldl_append, List.foldl_cons, List.foldl_nil]
      cases call with
      | job job => exact ih.snoc job
      | pass =>
          rw [show jobsOf calls ++ Call.pass.asJob.toList = jobsOf calls from List.append_nil _]
          exact ih.stays.relevelled (Index.updateIndexLayer_relevelled int _)
      | reset =>
          rw [show jobsOf calls ++ Call.reset.asJob.toList = jobsOf calls from List.append_nil _]
          exact ih.relevelled (Index.reset_relevelled _)

/-- The mnode list of the enclave, with increasing keys that are those of the data nodes: behind
the sentinel mnode, the unmarked ones are the keys whose latest job inserted them, with its node,
and the latest job of a marked one was a deletion. -/
def Enclave.ReplaysJobs (e : Enclave) (jobs : List Job) : Prop :=
  ∃ sentinel height list, e.inode e.sentinel = some sentinel ∧
    Intermed e.mnodes e.nodes sentinel.intermed height list ∧
    (∀ key node, (∃ p ∈ list.tail, p.2.marked = false ∧ p.2.key = key ∧ p.2.node = node) ↔
      node ≠ 0 ∧ latestJob jobs key = some ⟨key, node⟩) ∧
    ∀ p ∈ list.tail, p.2.marked = true → latestJob jobs p.2.key = some ⟨p.2.key, 0⟩

theorem Repr.replays_jobs {e : Enclave} {l : Layout} {nodes : Nodes} {jobs : List Job}
    (repr : Repr e l) (jobsOk : JobsOk nodes jobs) (replays : Replays jobs (abs e l).entries) :
    e.ReplaysJobs jobs := by
  obtain ⟨_, sentinel, _, _, _, found, _, isBase⟩ := repr.sentinel
  have latest : ∀ p ∈ l.mnodes.tail, ∃ job, latestJob jobs p.2.key = some job ∧
      job.key = p.2.key ∧ p.2.marked = decide (job.node = 0) ∧
        (job.node ≠ 0 → job.node = p.2.node) := by
    intro p member
    have inEntries : p.2 ∈ (abs e l).entries := List.mem_map_of_mem member
    obtain ⟨job, isLatest, marked⟩ := replays.latest p.2 inEntries
    obtain ⟨insertion, inJobs, sameKey, inserts, node⟩ := replays.inserted p.2 inEntries
    obtain ⟨latestIn, latestKey⟩ := latestJob_key isLatest
    refine ⟨job, isLatest, latestKey, marked, fun jobInserts => ?_⟩
    rw [← node]
    exact jobsOk.sameNode job latestIn insertion inJobs (latestKey.trans sameKey.symm) jobInserts inserts
  refine ⟨sentinel, l.rows.length, l.mnodes, found, isBase ▸ repr.intermed, ?_, ?_⟩
  · intro key node
    constructor
    · rintro ⟨p, member, unmarked, rfl, rfl⟩
      obtain ⟨job, isLatest, sameKey, marked, sameNode⟩ := latest p member
      have inserts : job.node ≠ 0 := by simpa [unmarked] using marked
      rw [isLatest, ← sameNode inserts, ← sameKey]
      exact ⟨inserts, rfl⟩
    · rintro ⟨inserts, isLatest⟩
      obtain ⟨entry, inEntries, rfl⟩ := replays.present key _ isLatest inserts
      obtain ⟨p, member, rfl⟩ := List.mem_map.mp inEntries
      obtain ⟨job, isLatest', _, marked, sameNode⟩ := latest p member
      obtain rfl := Option.some.inj (isLatest.symm.trans isLatest')
      exact ⟨p, member, by simpa [inserts] using marked, rfl, (sameNode inserts).symm⟩
  · intro p member isMarked
    obtain ⟨job, isLatest, sameKey, marked, _⟩ := latest p member
    have deletes : job.node = 0 := by simpa [isMarked] using marked
    rw [isLatest, ← sameKey, ← deletes]

/-- After every call of a run that drops its rows cleanly, the intermediate layer is what the jobs
so far make of it. -/
theorem intermediate_layer_replays_jobs (setting : Setting) {calls : List Call}
    (jobs : JobsOk setting.nodes (jobsOf calls)) (clean : setting.Cleanly calls) :
    ∀ first rest, calls = first ++ rest →
      ∃ e, setting.run first = some e ∧ e.ReplaysJobs (jobsOf first) := by
  intro first rest split
  obtain ⟨jobsFirst, cleanFirst⟩ := setting.prefix_ok jobs clean split
  obtain ⟨e, l, ran, _, repr, absEq⟩ := setting.run_refines jobsFirst cleanFirst
  refine ⟨e, ran, repr.replays_jobs jobsFirst ?_⟩
  rw [absEq]
  exact calls_replay setting.platform.int first

theorem twiceLowered_replayed : ∃ e, (numaSetting twiceLoweredKeys).run twiceLowered = some e ∧
    e.ReplaysJobs (jobsOf twiceLowered) :=
  intermediate_layer_replays_jobs (numaSetting twiceLoweredKeys) twiceLowered_ok.1 twiceLowered_ok.2
    twiceLowered [] (List.append_nil _).symm

theorem blanked_loses_insertion :
    JobsOk blankedSetting.nodes (jobsOf (blanked ++ [insertJob 44])) ∧
      ¬ ∃ e, blankedSetting.run (blanked ++ [insertJob 44]) = some e ∧
        e.ReplaysJobs (jobsOf (blanked ++ [insertJob 44])) := by
  refine ⟨⟨by decide, by decide, by decide⟩, ?_⟩
  rintro ⟨e', ran', _⟩
  obtain ⟨e, ran, _, _, _, fails⟩ := blanked_ends
  rw [Setting.run, Runs.run_snoc, ← Setting.run, ran] at ran'
  exact absurd (fails.symm.trans ran') (Option.some_ne_none e').symm

end Hosk
