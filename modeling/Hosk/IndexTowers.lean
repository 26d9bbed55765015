import Hosk.IndexBalance
import Hosk.IndexLayer

/-! Towers of inodes over one mnode: when each level counts the rows, and each row has the next. -/

namespace Hosk

namespace Enclave

structure TowersWhole (e : Enclave) : Prop where
  towers : ∀ (i : Nat) low high, e.linkedRows[i]? = some low → e.linkedRows[i + 1]? = some high →
    ∀ address ∈ high, ∃ inode, e.inode address = some inode ∧ inode.down ∈ low ∧
      e.isOver inode.intermed inode.down = true
  levels : ∀ address mnode, e.Listed address → e.mnode address = some mnode →
    mnode.level = e.linkedRows.countP fun row => row.any (e.isOver address)

end Enclave

namespace Repr

variable {e : Enclave} {l : Layout} {platform : Platform}

theorem linked_row (repr : Repr e l) {i : Nat} {addresses : List Nat}
    (located : e.linkedRows[i]? = some addresses) :
    ∃ row, l.rows[i]? = some row ∧ addresses = row.map Prod.fst := by
  rw [repr.indexLayer.linkedRows_eq, List.getElem?_map] at located
  obtain ⟨row, found, same⟩ := Option.map_eq_some_iff.mp located
  exact ⟨row, found, same.symm⟩

theorem rows_over_sentinel (repr : Repr e l) :
    (l.rows.countP fun row => (0 : Nat) ∈ row.map Prod.snd) = l.rows.length := by
  rw [List.countP_eq_length]
  intro row member
  obtain ⟨head, rest, rfl⟩ := repr.grid.heads row member
  simp

theorem rows_over_entry (repr : Repr e l) {key : Nat} (positive : key ≠ 0) :
    (l.rows.countP fun row => key ∈ row.map Prod.snd) = linkedIn (abs e l).rows key := by
  rw [linkedIn, abs, List.countP_map]
  refine List.countP_congr fun row member => ?_
  obtain ⟨head, rest, rfl⟩ := repr.grid.heads row member
  simp [positive]

theorem truthful_iff_entries (repr : Repr e l) : Truthful l.mnodes l.rows ↔
    ∀ entry ∈ (abs e l).entries, entry.level = linkedIn (abs e l).rows entry.key := by
  constructor
  · intro truthful entry member
    obtain ⟨p, inTail, rfl⟩ := List.mem_map.mp member
    rw [← repr.rows_over_entry (repr.entry_positive inTail)]
    exact truthful p (List.mem_of_mem_tail inTail)
  · intro levels p member
    obtain ⟨node, rest, split, _⟩ := repr.base_stored
    rw [split] at member
    rcases List.mem_cons.mp member with rfl | inRest
    · exact repr.rows_over_sentinel.symm
    · have inTail : p ∈ l.mnodes.tail := by rwa [split]
      exact (levels p.2 (List.mem_map_of_mem inTail)).trans
        (repr.rows_over_entry (repr.entry_positive inTail)).symm

theorem levelsTruthful_iff (repr : Repr e l) : e.LevelsTruthful ↔
    ∀ entry ∈ (abs e l).entries, entry.level = linkedIn (abs e l).rows entry.key :=
  (repr.indexLayer.truthful_iff (List.ne_nil_of_length_pos repr.grid.nonempty)).trans
    repr.truthful_iff_entries

theorem cell_below (repr : Repr e l) (balanced : (abs e l).Balanced)
    (levels : ∀ entry ∈ (abs e l).entries, entry.level = linkedIn (abs e l).rows entry.key) {i : Nat}
    {row : List (Nat × Nat)} (located : l.rows[i]? = some row) {p : Nat × Entry}
    (member : p ∈ l.mnodes) (below : i < p.2.level) : ∃ q ∈ row, q.2 = p.2.key := by
  obtain ⟨node, rest, split, _⟩ := repr.base_stored
  rw [split] at member
  rcases List.mem_cons.mp member with rfl | inRest
  · obtain ⟨head, cells, rfl⟩ := repr.grid.heads row (List.mem_of_getElem? located)
    exact ⟨(head, 0), List.mem_cons_self, rfl⟩
  · have inEntries : p.2 ∈ (abs e l).entries := by
      rw [abs, split]
      exact List.mem_map_of_mem inRest
    obtain ⟨keys, found, linked⟩ := balanced.linked_below inEntries (levels p.2 inEntries) below
    rw [Repr.abs_row located] at found
    obtain rfl := Option.some.inj found
    obtain ⟨q, inTail, same⟩ := List.mem_map.mp linked
    exact ⟨q, List.mem_of_mem_tail inTail, same⟩

/-- The towers are whole exactly if no inode was ever unlinked. -/
theorem towersWhole_iff (repr : Repr e l) (balanced : (abs e l).Balanced) :
    e.TowersWhole ↔ (abs e l).unlinks = 0 := by
  rw [← balanced.levels_iff]
  constructor
  · exact fun whole => repr.levelsTruthful_iff.mp whole.levels
  · intro levels
    refine ⟨?_, repr.levelsTruthful_iff.mpr levels⟩
    intro i low high isLow isHigh address member
    obtain ⟨lowRow, locatedLow, rfl⟩ := repr.linked_row isLow
    obtain ⟨highRow, locatedHigh, rfl⟩ := repr.linked_row isHigh
    obtain ⟨p, inHigh, rfl⟩ := List.mem_map.mp member
    obtain ⟨inode, entry, _, found, _, inList, sameKey, level, _⟩ := repr.cell locatedHigh inHigh
    obtain ⟨q, inLow, lowKey⟩ := repr.cell_below balanced levels locatedLow inList
      (show i < entry.level by omega)
    have down := repr.grid.towers i lowRow highRow p q locatedLow locatedHigh inHigh inLow
      (lowKey.trans sameKey).symm
    rw [downAt_found found] at down
    have isDown := Option.some.inj down
    obtain ⟨below, lower, _, belowFound, _, lowerIn, lowerKey, _⟩ := repr.cell locatedLow inLow
    have same := repr.intermed.eq_of_key lowerIn inList (lowerKey.trans lowKey)
    refine ⟨inode, found, isDown ▸ List.mem_map_of_mem inLow, ?_⟩
    rw [Enclave.isOver, isDown, belowFound, decide_eq_true_eq, Option.map_some]
    exact congrArg some (congrArg Prod.fst same)

theorem not_lowers (honest : platform.Honest) (repr : Repr e l)
    (stays : e.lowersAt platform = none) :
    (abs e l).updateIndexLayer platform.int = (abs e l).raiseIndexLayer platform.int := by
  obtain ⟨middle, l₁, inodes, raised, _, _, _, heads, absEq⟩ := repr.raiseIndexLayer_refines honest
  rw [Enclave.lowersAt, raised] at stays
  rcases lowers_eq platform middle l₁ heads with ⟨_, notLower⟩ | ⟨newLow, drops, _⟩
  · rw [Index.updateIndexLayer, ← absEq, notLower]
    rfl
  · exact absurd (stays.symm.trans drops) (Option.some_ne_none newLow).symm

theorem call_balanced (honest : platform.Honest) (repr : Repr e l) (balanced : (abs e l).Balanced)
    (call : Call) (noReset : call ≠ .reset) (stays : call = .pass → e.lowersAt platform = none) :
    ((abs e l).call platform.int call).Balanced := by
  cases call with
  | job job => exact balanced.job job
  | reset => exact absurd rfl noReset
  | pass =>
      rw [Index.call, repr.not_lowers honest (stays rfl)]
      refine balanced.raiseIndexLayer ?_ _
      rw [rows_length]
      exact repr.grid.nonempty

end Repr

theorem Index.initial_balanced : Index.initial.Balanced := by
  refine ⟨List.Pairwise.nil, ?_, ?_, rfl⟩
  · intro row member
    rw [List.mem_singleton.mp member]
    exact List.nodup_nil
  · intro i row key located member
    rw [List.mem_singleton.mp (List.mem_of_getElem? located)] at member
    exact absurd member List.not_mem_nil

theorem Setting.run_balanced (setting : Setting) {calls : List Call}
    (jobs : JobsOk setting.nodes (jobsOf calls)) (noReset : .reset ∉ calls)
    (never : setting.NeverLowers calls) : ∃ e l,
      setting.run calls = some e ∧ Repr e l ∧ (abs e l).Balanced := by
  have isGiven : ∀ call ∈ calls, call ≠ .reset := by
    rintro call member rfl
    exact noReset member
  have along : Runs.Along (Enclave.turn setting.platform)
      (fun state call => ∀ e, state = some e → call = .pass → e.lowersAt setting.platform = none)
      setting.start calls := by
    refine Runs.Along.imp ?_ calls never
    rintro state call stays e rfl
    exact stays
  obtain ⟨e, l, ran, _, repr, balanced, _⟩ := setting.run_rule
    (motive := fun _ index => index.Balanced) Index.initial_balanced
    (fun e l _ call repr balanced given stays =>
      ⟨fun isPass => Enclave.cleanPass_of_stays (stays isPass),
        repr.call_balanced setting.honest balanced call given stays⟩) jobs isGiven along
  exact ⟨e, l, ran, repr, balanced⟩

/-- In a run of jobs and passes that lower nothing, the towers are whole exactly if no pass has
unlinked an inode. -/
theorem towers_whole_iff_nothing_unlinked (setting : Setting) {calls : List Call}
    (jobs : JobsOk setting.nodes (jobsOf calls)) (noReset : .reset ∉ calls)
    (never : setting.NeverLowers calls) : ∃ e, setting.run calls = some e ∧
      (e.TowersWhole ↔ ∀ address, .unlink address ∉ e.trace) := by
  obtain ⟨e, l, ran, repr, balanced⟩ := setting.run_balanced jobs noReset never
  refine ⟨e, ran, (repr.towersWhole_iff balanced).trans ?_⟩
  rw [show (abs e l).unlinks = e.trace.countP isUnlink from rfl, List.countP_eq_zero]
  constructor
  · exact fun none address member => none _ member rfl
  · intro none event member isUnlinked
    cases event with
    | unlink address => exact none address member
    | inodeNew | mnodeNew | inodeDelete | mnodeDelete | lower =>
        exact absurd isUnlinked Bool.false_ne_true

def revived : List Call :=
  (List.range' 1 5).map insertJob ++ [.pass, deleteJob 2, .pass, insertJob 2]

theorem revived_ok : JobsOk (numaSetting (List.range' 1 5)).nodes (jobsOf revived) ∧
    .reset ∉ revived ∧ (numaSetting (List.range' 1 5)).NeverLowers revived :=
  ⟨⟨by decide, by decide, by decide⟩, by decide, by decide +kernel⟩

theorem revived_unlinks : ∃ e, (numaSetting (List.range' 1 5)).run revived = some e ∧
    (e.TowersWhole ↔ ∀ address, .unlink address ∉ e.trace) :=
  towers_whole_iff_nothing_unlinked (numaSetting (List.range' 1 5)) revived_ok.1 revived_ok.2.1
    revived_ok.2.2

/-- Key 2 is there again, with level 1 and in no row. -/
theorem revived_towers_broken : (JobsOk (numaSetting (List.range' 1 5)).nodes (jobsOf revived) ∧
    .reset ∉ revived ∧ (numaSetting (List.range' 1 5)).NeverLowers revived) ∧
    ∃ e, (numaSetting (List.range' 1 5)).run revived = some e ∧ ¬ e.TowersWhole := by
  have ended : ((numaSetting (List.range' 1 5)).run revived).map (fun e =>
      (e.inode e.sentinel, nextAt e.mnodes 1, nextAt e.mnodes 3, e.mnode 4,
        e.linkedRows.countP fun row => row.any (e.isOver 4))) =
      some (some ⟨0, 2, 1, 0⟩, some 3, some 4, some ⟨5, 1002, 2, 1, false⟩, 0) := by
    decide +kernel
  obtain ⟨e, ran, facts⟩ := Option.map_eq_some_iff.mp ended
  simp only [Prod.mk.injEq] at facts
  obtain ⟨sentinel, first, second, stored, unlinked⟩ := facts
  refine ⟨revived_ok, e, ran, fun whole => ?_⟩
  have listed : e.Listed 4 := ⟨_, sentinel,
    (Relation.ReflTransGen.single ⟨by decide, first⟩).tail ⟨by decide, second⟩⟩
  have level := whole.levels 4 _ listed stored
  rw [unlinked] at level
  exact absurd level Nat.one_ne_zero

end Hosk
