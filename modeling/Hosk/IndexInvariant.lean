import Hosk.DeletedNodes
import Hosk.StandingTowers

/-! The shape of the index layer in every state of a run. -/

namespace Hosk

namespace Enclave

def Listed (e : Enclave) (address : Nat) : Prop :=
  ∃ sentinel, e.inode e.sentinel = some sentinel ∧
    Chain.Follows (nextAt e.mnodes) sentinel.intermed address

/-- An inode with the key of its mnode, which is listed with at least this level. -/
def Covers (e : Enclave) (address level : Nat) : Prop :=
  ∃ inode mnode, e.inode address = some inode ∧ e.mnode inode.intermed = some mnode ∧
    inode.key = mnode.key ∧ e.Listed inode.intermed ∧ level ≤ mnode.level

structure IndexOk (e : Enclave) : Prop where
  column : ∃ heads sentinel mnode, Chain (downAt e.inodes) e.sentinel heads ∧
    e.inode e.sentinel = some sentinel ∧ e.mnode sentinel.intermed = some mnode ∧
    heads.length = mnode.level ∧
    ∀ head ∈ heads, ∃ inode, e.inode head = some inode ∧ inode.intermed = sentinel.intermed
  covers : ∀ address, e.InodeReached address → e.Covers address 1
  rows : ∀ heads i head address, Chain (downAt e.inodes) e.sentinel heads →
    heads.reverse[i]? = some head → Chain.Follows (rightAt e.inodes) head address →
      e.Covers address (i + 1)
  increasing : ∀ address inode, e.InodeReached address → e.inode address = some inode →
    inode.right ≠ 0 → ∃ next, e.inode inode.right = some next ∧ inode.key < next.key
  towers : ∀ address inode, e.InodeReached address → e.inode address = some inode →
    inode.down ≠ 0 → ∃ below, e.inode inode.down = some below ∧ below.intermed = inode.intermed

end Enclave

namespace Repr

variable {e : Enclave} {l : Layout}

theorem listed (repr : Repr e l) {p : Nat × Entry} (member : p ∈ l.mnodes) : e.Listed p.1 := by
  obtain ⟨_, sentinel, _, _, _, found, _, isBase⟩ := repr.sentinel
  obtain ⟨node, rest, split⟩ := repr.intermed.first
  have nonzero : l.base ≠ 0 := repr.intermed.nonzero (by rw [split]; exact List.mem_cons_self)
  refine ⟨sentinel, found, ?_⟩
  rw [isBase]
  exact (repr.intermed.chain.follows_iff nonzero).mpr (List.mem_map_of_mem member)

theorem covers (repr : Repr e l) {address : Nat} (good : l.good address) : e.Covers address 1 := by
  obtain ⟨inode, found, _⟩ := repr.grid.goods address good
  obtain ⟨entry, next, member, key, level, stored⟩ := repr.under good found
  exact ⟨inode, _, found, stored, key.symm, repr.listed member, level⟩

theorem index_ok (repr : Repr e l) : e.IndexOk := by
  refine ⟨?_, ?_, ?_, ?_, ?_⟩
  · obtain ⟨_, sentinel, _, _, _, found, _, isBase⟩ := repr.sentinel
    obtain ⟨node, rest, _, stored⟩ := repr.base_stored
    refine ⟨l.heads.reverse, sentinel, _, repr.column, found, isBase ▸ stored, ?_, ?_⟩
    · rw [List.length_reverse, heads_length]
    · intro head member
      obtain ⟨i, isHead⟩ := List.getElem?_of_mem (List.mem_reverse.mp member)
      have bound : i < l.rows.length := by
        rw [← heads_length]
        exact (List.getElem?_eq_some_iff.mp isHead).1
      obtain ⟨_, _, inode, _, isHead', stored, intermed, _⟩ :=
        repr.head_facts (List.getElem?_eq_getElem bound)
      obtain rfl := Option.some.inj (isHead'.symm.trans isHead)
      exact ⟨inode, stored, intermed.trans isBase.symm⟩
  · exact fun address reached => repr.covers (repr.reached_good reached)
  · intro heads i head address chain isHead follows
    rw [chain.unique repr.column, List.reverse_reverse] at isHead
    have bound : i < l.rows.length := by
      rw [← heads_length]
      exact (List.getElem?_eq_some_iff.mp isHead).1
    have located := List.getElem?_eq_getElem bound
    obtain ⟨p, inRow, rfl⟩ := List.mem_map.mp ((repr.follows_second located isHead).mp follows)
    obtain ⟨inode, entry, next, found, key, inList, sameKey, level, stored⟩ :=
      repr.cell located inRow
    exact ⟨inode, _, found, stored, key.trans sameKey.symm, repr.listed inList, level⟩
  · intro address inode reached found nonzero
    obtain ⟨inode', found', ok⟩ := repr.grid.goods address (repr.reached_good reached)
    obtain rfl : inode' = inode := Option.some.inj (found'.symm.trans found)
    exact (ok.right nonzero).2.2
  · intro address inode reached found nonzero
    have good := repr.reached_good reached
    obtain ⟨inode', found', ok⟩ := repr.grid.goods address good
    obtain rfl : inode' = inode := Option.some.inj (found'.symm.trans found)
    obtain ⟨goodBelow, _, below, belowFound, belowKey⟩ := ok.down nonzero
    obtain ⟨entry, _, inList, key, _⟩ := repr.under good found
    obtain ⟨entryBelow, _, inListBelow, keyBelow, _⟩ := repr.under goodBelow belowFound
    have same := repr.intermed.eq_of_key inListBelow inList
      (keyBelow.trans (belowKey.trans key.symm))
    exact ⟨below, belowFound, congrArg Prod.fst same⟩

end Repr

/-- A run that drops its rows cleanly never fails an assertion, takes a level below 0 or follows
NULL, and the index layer has its shape after every call. -/
theorem index_layer_ok (setting : Setting) {calls : List Call}
    (jobs : JobsOk setting.nodes (jobsOf calls)) (clean : setting.Cleanly calls) :
    ∀ first rest, calls = first ++ rest → ∃ e, setting.run first = some e ∧ e.IndexOk := by
  intro first rest split
  obtain ⟨jobsFirst, cleanFirst⟩ := setting.prefix_ok jobs clean split
  obtain ⟨e, l, ran, _, repr, _⟩ := setting.run_refines jobsFirst cleanFirst
  exact ⟨e, ran, repr.index_ok⟩

theorem twiceLowered_index_ok : ∃ e, (numaSetting twiceLoweredKeys).run twiceLowered = some e ∧
    e.IndexOk :=
  index_layer_ok (numaSetting twiceLoweredKeys) twiceLowered_ok.1 twiceLowered_ok.2 twiceLowered []
    (List.append_nil _).symm

/-- Key 42 is raised behind key 40 with the last block there is, and 40 is unlinked after that. -/
def blanked : List Call :=
  (List.range' 5 15 5).map insertJob ++ [.pass] ++
    [5, 10, 15, 25, 30, 35, 45, 50, 55, 60, 65, 70, 75].map deleteJob ++ [.pass] ++
    [41, 42, 43].map insertJob ++ [20, 40].map deleteJob ++ [.pass] ++
    [41, 42, 43].map deleteJob ++ List.replicate 24 .pass

def blankedSetting : Setting := numaSetting (List.range' 5 15 5 ++ [41, 42, 43, 44])

theorem blanked_jobs : JobsOk blankedSetting.nodes (jobsOf blanked) :=
  ⟨by decide, by decide, by decide⟩

theorem blanked_ends : ∃ e, blankedSetting.run blanked = some e ∧ e.InodeReached 35 ∧
    e.inode 35 = some ⟨0, 0, 0, 0⟩ ∧ e.mnode 0 = none ∧
      e.call numa.guarded (insertJob 44) = none := by
  have ended : (blankedSetting.run blanked).map (fun e =>
      ([downAt e.inodes e.sentinel, rightAt e.inodes 29, downAt e.inodes 30, downAt e.inodes 27,
        rightAt e.inodes 21], e.inode 35, e.mnode 0, e.call numa.guarded (insertJob 44))) =
      some ([some 29, some 30, some 27, some 21, some 35], some ⟨0, 0, 0, 0⟩, none, none) := by
    decide +kernel
  obtain ⟨e, ran, facts⟩ := Option.map_eq_some_iff.mp ended
  simp only [Prod.mk.injEq, List.cons.injEq, and_true] at facts
  obtain ⟨⟨first, second, third, fourth, fifth⟩, zeroed, noMnode, fails⟩ := facts
  have reached : e.InodeReached 29 := Relation.ReflTransGen.single ⟨by decide, .inr first⟩
  exact ⟨e, ran, (((reached.tail ⟨by decide, .inl second⟩).tail ⟨by decide, .inr third⟩).tail
    ⟨by decide, .inr fourth⟩).tail ⟨by decide, .inl fifth⟩, zeroed, noMnode, fails⟩

theorem blanked_index_broken : JobsOk blankedSetting.nodes (jobsOf blanked) ∧
    ∃ e, blankedSetting.run blanked = some e ∧ ¬ e.IndexOk := by
  obtain ⟨e, ran, reached, zeroed, noMnode, _⟩ := blanked_ends
  refine ⟨blanked_jobs, e, ran, fun ok => ?_⟩
  obtain ⟨inode, mnode, found, stored, _⟩ := ok.covers 35 reached
  obtain rfl := Option.some.inj (zeroed.symm.trans found)
  exact absurd (noMnode.symm.trans stored) (Option.some_ne_none mnode).symm

end Hosk
