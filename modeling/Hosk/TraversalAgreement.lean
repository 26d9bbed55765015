import Hosk.IndexLayer
import Hosk.StandingTowers

/-! Searches through the index against a plain scan of the intermediate list. -/

namespace Hosk

namespace Enclave

def scan (e : Enclave) (key : Nat) : Option Nat := do
  let sentinel ← e.inode e.sentinel
  let listed := chainFrom (nextAt e.mnodes) e.mnodes.length sentinel.intermed
  (listed.filter fun address => ((e.mnode address).elim 0 Mnode.key) ≤ key).getLast?

/-- The loop of `sl_traverse_index` over the mnodes, which tests the other way round. -/
def walkMnodes (e : Enclave) (key : Nat) : Nat → Nat → Option Nat
  | 0, _ => none
  | fuel + 1, item => do
      let mnode ← e.mnode item
      if mnode.next ≠ 0 then do
        let next ← e.mnode mnode.next
        if next.key ≤ key then walkMnodes e key fuel mnode.next else some item
      else some item

def enter (e : Enclave) (key : Nat) : Option Nat := do
  let entry ← e.traverseInodes key (e.inodes.length + 1) e.sentinel
  let found ← e.walkMnodes key (e.mnodes.length + 1) entry
  let mnode ← e.mnode found
  some mnode.node

def applyJobAt (platform : Platform) (e : Enclave) (job : Job) (found : Nat) : Option Enclave := do
  let mnode ← e.mnode found
  if job.node ≠ 0 then
    if mnode.key = job.key then
      if mnode.marked then e.setMarked found false else some e
    else do
      let (fresh, e) ← mnodeNew platform e mnode.next job.node 0
      e.setNext found fresh
  else if mnode.key = job.key then e.setMarked found true
  else some e

theorem walkMnodes_eq (e : Enclave) (key : Nat) : ∀ fuel item,
    e.walkMnodes key fuel item = e.traverseMnodes key fuel item := by
  intro fuel
  induction fuel with
  | zero => intro item; rfl
  | succ fuel ih =>
      intro item
      rw [walkMnodes, traverseMnodes]
      cases e.mnode item with
      | none => rfl
      | some mnode =>
          simp only [Option.bind_eq_bind, Option.bind_some]
          by_cases last : mnode.next = 0
          · rw [if_neg (not_not.mpr last), if_pos last]
          · rw [if_pos last, if_neg last]
            cases e.mnode mnode.next with
            | none => rfl
            | some next =>
                simp only [Option.bind_some]
                by_cases past : key < next.key
                · rw [if_neg (Nat.not_le.mpr past), if_pos past]
                · rw [if_pos (Nat.not_lt.mp past), if_neg past, ih]

theorem enter_eq (e : Enclave) (key : Nat) : e.enter key = e.slTraverseIndex key := by
  rw [enter, slTraverseIndex, search]
  simp only [walkMnodes_eq, Option.bind_eq_bind, Option.bind_assoc]

/-- Both traversals end at the mnode of the scan. -/
def TraversesAlike (platform : Platform) (e : Enclave) (key : Nat) : Prop :=
  ∃ found mnode, e.scan key = some found ∧ e.mnode found = some mnode ∧
    e.enter key = some mnode.node ∧
    ∀ job : Job, job.key = key →
      e.updateIntermediateLayer platform job = e.applyJobAt platform job found

end Enclave

namespace Repr

variable {e : Enclave} {l : Layout}

theorem scan_returns (repr : Repr e l) {key : Nat} {before after : List (Nat × Entry)}
    {p : Nat × Entry} (split : l.mnodes = before ++ p :: after) (notPast : p.2.key ≤ key)
    (past : ∀ r ∈ after, key < r.2.key) : e.scan key = some p.1 := by
  obtain ⟨_, inode, _, _, _, found, _, isBase⟩ := repr.sentinel
  have chain := repr.intermed.chain
  have listed := chainFrom_eq chain (chain_length_le e.mnodes Mnode.next chain)
  have keyOf : ∀ q ∈ l.mnodes, (e.mnode q.1).elim 0 Mnode.key = q.2.key := by
    intro q member
    obtain ⟨next, stored⟩ := repr.intermed.holds q member
    rw [show e.mnode q.1 = some _ from stored]
    rfl
  have sorted := repr.intermed.sorted
  rw [split, List.pairwise_append] at sorted
  have first : before.filter (fun q => ((e.mnode q.1).elim 0 Mnode.key) ≤ key) = before := by
    apply List.filter_eq_self.mpr
    intro q member
    rw [keyOf q (by simp [split, member]), decide_eq_true_eq]
    exact Nat.le_trans (Nat.le_of_lt (sorted.2.2 q member p List.mem_cons_self)) notPast
  have last : after.filter (fun q => ((e.mnode q.1).elim 0 Mnode.key) ≤ key) = [] := by
    apply List.filter_eq_nil_iff.mpr
    intro q member
    rw [keyOf q (by simp [split, member]), decide_eq_true_eq]
    exact Nat.not_le.mpr (past q member)
  have here : decide ((e.mnode p.1).elim 0 Mnode.key ≤ key) = true := by
    rw [keyOf p (by simp [split])]
    exact decide_eq_true notPast
  rw [Enclave.scan, found]
  simp only [Option.bind_eq_bind, Option.bind_some, isBase, listed, List.filter_map, split,
    List.filter_append, List.filter_cons, Function.comp_def]
  rw [first, last, if_pos here]
  simp

theorem traversesAlike (repr : Repr e l) (platform : Platform) (key : Nat) :
    e.TraversesAlike platform key := by
  obtain ⟨before, p, after, split, notPast, past, searched⟩ := repr.search_returns key
  obtain ⟨next, stored⟩ := repr.intermed.holds p (by simp [split])
  refine ⟨p.1, _, repr.scan_returns split notPast past, stored, ?_, ?_⟩
  · rw [Enclave.enter_eq, Enclave.slTraverseIndex, searched]
    simp only [Option.bind_eq_bind, Option.bind_some, show e.mnode p.1 = some _ from stored]
  · rintro job rfl
    rw [Enclave.updateIntermediateLayer, searched]
    rfl

end Repr

/-- In a run that drops its rows cleanly, every search through the index ends where the plain scan
does, and a job of the same key is applied there. -/
theorem searches_end_at_scan (setting : Setting) {calls : List Call}
    (jobs : JobsOk setting.nodes (jobsOf calls)) (clean : setting.Cleanly calls) :
    ∀ first rest key, calls = first ++ rest → 1 ≤ key →
      ∃ e, setting.run first = some e ∧ e.TraversesAlike setting.platform key := by
  intro first rest key split _
  obtain ⟨jobsFirst, cleanFirst⟩ := setting.prefix_ok jobs clean split
  obtain ⟨e, l, ran, _, repr, _⟩ := setting.run_refines jobsFirst cleanFirst
  exact ⟨e, ran, repr.traversesAlike setting.platform key⟩

theorem twiceLowered_search : ∃ e, (numaSetting twiceLoweredKeys).run twiceLowered = some e ∧
    e.TraversesAlike numa.guarded 25 :=
  searches_end_at_scan (numaSetting twiceLoweredKeys) twiceLowered_ok.1 twiceLowered_ok.2 twiceLowered []
    25 (List.append_nil _).symm (by decide)

/-- The search for key 44 comes to the deleted inode of key 42 and goes on through NULL. -/
theorem blanked_search_lost : JobsOk blankedSetting.nodes (jobsOf blanked) ∧
    ∃ e, blankedSetting.run blanked = some e ∧ ¬ e.TraversesAlike blankedSetting.platform 44 := by
  have ended : (blankedSetting.run blanked).map (fun e => e.enter 44) = some none := by
    decide +kernel
  obtain ⟨e, ran, lost⟩ := Option.map_eq_some_iff.mp ended
  refine ⟨blanked_jobs, e, ran, ?_⟩
  rintro ⟨found, mnode, _, _, entered, _⟩
  exact absurd (lost.symm.trans entered) (Option.some_ne_none mnode.node).symm

end Hosk
