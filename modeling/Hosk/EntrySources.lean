import Hosk.DataLayerList
import Hosk.JobReplay

/-! Where the data nodes under the mnodes come from: the sentinel's and those of the jobs. -/

namespace Hosk

theorem applyJob_source (job : Job) {entries : List Entry} {entry : Entry}
    (member : entry ∈ applyJob job entries) :
    (∃ old ∈ entries, old.node = entry.node) ∨ job.node ≠ 0 ∧ job.node = entry.node := by
  rcases applyJob_origin member with old | ⟨_, _, ⟨old, inOld, _, same⟩ | fresh⟩
  · exact .inl ⟨entry, old, rfl⟩
  · exact .inl ⟨old, inOld, same⟩
  · exact .inr fresh

theorem Relevelled.source {entries entries' : List Entry} (levels : Relevelled entries entries')
    {entry : Entry} (member : entry ∈ entries') : ∃ old ∈ entries, old.node = entry.node := by
  obtain ⟨change, same, rfl⟩ := levels
  obtain ⟨old, inOld, rfl⟩ := List.mem_map.mp member
  exact ⟨old, inOld, (same old).2.1.symm⟩

theorem Index.call_source (int : Int → Int) (index : Index) (call : Call) {entry : Entry}
    (member : entry ∈ (index.call int call).entries) : (∃ old ∈ index.entries, old.node = entry.node) ∨
      ∃ job, call = .job job ∧ job.node ≠ 0 ∧ job.node = entry.node := by
  cases call with
  | job job =>
      rcases applyJob_source job member with old | fresh
      · exact .inl old
      · exact .inr ⟨job, rfl, fresh⟩
  | pass =>
      obtain ⟨old, kept, same⟩ := (Index.updateIndexLayer_relevelled int index).source member
      exact .inl ⟨old, List.mem_of_mem_filter kept, same⟩
  | reset => exact .inl ((Index.reset_relevelled index).source member)

def Layout.Sourced (l : Layout) (known : Nat → Prop) : Prop := ∀ p ∈ l.mnodes, known p.2.node

namespace Repr

variable {e e' : Enclave} {l l' : Layout} {good : Nat → Prop} {known : Nat → Prop}

theorem call_sourced {int : Int → Int} {call : Call} (repr : Repr e l) (repr' : Repr e' l')
    (keeps : Keeps good (l.mnodes.filter fun p => call ≠ .pass || p.2.stays) e l e' l')
    (absEq : abs e' l' = (abs e l).call int call) (sourced : l.Sourced known)
    (jobKnown : ∀ job, call = .job job → job.node ≠ 0 → known job.node) : l'.Sourced known := by
  intro p member
  obtain ⟨node', rest', split', _⟩ := repr'.base_stored
  have inList := member
  rw [split'] at member
  rcases List.mem_cons.mp member with rfl | inRest
  · obtain ⟨node, rest, split, _⟩ := repr.base_stored
    have isFirst : (l.base, (⟨0, node, l.rows.length, false⟩ : Entry)) ∈ l.mnodes := by simp [split]
    obtain ⟨entry, inNew, key, sameNode⟩ := keeps.listed _
      (List.mem_filter.mpr ⟨isFirst, by simp [Entry.stays]⟩)
    have equal := repr'.intermed.eq_of_key inNew inList key
    have same : entry.node = node' := congrArg (fun p : Nat × Entry => p.2.node) equal
    have known' := sourced _ isFirst
    rw [← sameNode, same] at known'
    exact known'
  · have inEntries : p.2 ∈ (abs e' l').entries := by
      rw [abs, split']
      exact List.mem_map_of_mem inRest
    rw [absEq] at inEntries
    rcases Index.call_source int (abs e l) call inEntries with ⟨old, inOld, same⟩ | ⟨job, isJob, fresh, same⟩
    · obtain ⟨q, inTail, rfl⟩ := List.mem_map.mp inOld
      rw [← same]
      exact sourced q (List.mem_of_mem_tail inTail)
    · rw [← same]
      exact jobKnown job isJob fresh

theorem calls_sourced {platform : Platform} (honest : platform.Honest) (known : Nat → Prop)
    (calls : List Call) : ∀ e l, Repr e l → l.Sourced known → JobsOk e.nodes (jobsOf calls) →
    (∀ job ∈ jobsOf calls, job.node ≠ 0 → known job.node) →
    Runs.Along (Enclave.turn platform)
      (fun state call => ∀ e, state = some e → call = .pass → e.CleanPass platform) (some e) calls →
    ∃ e' l', Runs.run (Enclave.turn platform) (some e) calls = some e' ∧
      LevelsOnly e.nodes e'.nodes ∧ Repr e' l' ∧ l'.Sourced known := by
  induction calls with
  | nil =>
      intro e l repr sourced _ _ _
      exact ⟨e, l, rfl, LevelsOnly.refl _, repr, sourced⟩
  | cons call rest ih =>
      intro e l repr sourced jobs jobsKnown clean
      obtain ⟨cleanNow, cleanLater⟩ := clean
      rw [jobsOf_cons] at jobsKnown
      obtain ⟨middle, l₁, called, levels, repr₁, keeps, absEq⟩ := repr.call_keeps honest call jobs.first
        (cleanNow e rfl) (fun root (none : root ∈ []) => absurd none List.not_mem_nil)
        fun _ => e.passesBy_nil platform
      have sourced₁ := repr.call_sourced repr₁ keeps absEq sourced fun job isJob =>
        jobsKnown job (by simp [isJob, Call.asJob])
      have turned : Enclave.turn platform (some e) call = some middle := called
      rw [turned] at cleanLater
      obtain ⟨e', l', ran, levels', repr', sourced'⟩ := ih middle l₁ repr₁ sourced₁ (jobs.later levels)
        (fun job member => jobsKnown job (List.mem_append_right _ member)) cleanLater
      refine ⟨e', l', ?_, levels.trans levels', repr', sourced'⟩
      rw [Runs.run_cons, turned]
      exact ran

end Repr

theorem LevelsOnly.nextOf {nodes nodes' : Nodes} (levels : LevelsOnly nodes nodes') :
    nextOf nodes' = nextOf nodes := by
  funext address
  have same := congrArg (Option.map Node.next) (levels address)
  rwa [Option.map_map, Option.map_map] at same

theorem LevelsOnly.get_elim {α : Type} {nodes nodes' : Nodes} (levels : LevelsOnly nodes nodes')
    (other : α) (read : Node → α) (blind : ∀ node : Node, read (node.atLevel 0) = read node)
    (address : Nat) :
    (Store.get nodes' address).elim other read = (Store.get nodes address).elim other read := by
  have same := congrArg (fun node => node.elim other read) (levels address)
  cases before : Store.get nodes address <;> cases after : Store.get nodes' address <;>
    simp_all

def DataNodes.Linked (data : DataNodes) (nodes : Nodes) (node : Nat) : Prop :=
  Chain.Follows (nextOf nodes) data.sentinel node

structure DataNodes.DataJobs (data : DataNodes) (jobs : List Job) : Prop where
  ok : JobsOk data.nodes jobs
  linked : ∀ job ∈ jobs, job.node ≠ 0 → data.Linked data.nodes job.node

theorem Setting.run_sourced (setting : Setting) {calls : List Call}
    (jobs : setting.DataJobs (jobsOf calls)) (clean : setting.Cleanly calls) : ∃ e l,
      setting.run calls = some e ∧ LevelsOnly setting.nodes e.nodes ∧ Repr e l ∧
      l.Sourced (setting.Linked setting.nodes) := by
  obtain ⟨first, l, begins, nodes, repr, _, base⟩ := setting.starts
  have jobsOk := jobs.ok
  rw [Setting.Cleanly, begins] at clean
  rw [← nodes] at jobsOk
  have sourced : l.Sourced (setting.Linked setting.nodes) := by
    intro p member
    rw [base p member]
    exact Relation.ReflTransGen.refl
  obtain ⟨e, l', ran, levels, repr', sourced'⟩ := Repr.calls_sourced setting.honest _ calls first l repr
    sourced jobsOk jobs.linked clean
  refine ⟨e, l', ?_, nodes ▸ levels, repr', sourced'⟩
  rw [Setting.run, begins]
  exact ran

end Hosk
