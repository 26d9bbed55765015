import Hosk.BlockReuse
import Hosk.IndexTowers

/-! What `bg_lower_ilevel` leaves of the levels, in any index layer whose levels are right. -/

namespace Hosk

section Levels

variable {list : List (Nat × Entry)} {low second : List (Nat × Nat)} {rest : List (List (Nat × Nat))}

theorem truthful_linked {rows : List (List (Nat × Nat))} (truthful : Truthful list rows)
    {p : Nat × Entry} (member : p ∈ list) {row : List (Nat × Nat)} (inRows : row ∈ rows)
    (links : Links row p.2.key) : 1 ≤ p.2.level := by
  rw [truthful p member]
  exact List.countP_pos_iff.mpr ⟨row, inRows, decide_eq_true links⟩

/-- The levels that are lowered along the second row are right again exactly if the two rows that
are the lowest link the same mnodes. -/
theorem lowerKeys_truthful_iff (truthful : Truthful list (low :: second :: rest)) :
    Truthful (lowerKeys (second.map Prod.snd) list) (second :: rest) ↔
      ∀ p ∈ list, Links low p.2.key ↔ Links second p.2.key := by
  have lowered : ∀ p ∈ list,
      (if p.2.key ∈ second.map Prod.snd then (p.1, { p.2 with level := p.2.level - 1 }) else p).2.level =
        (second :: rest).countP (fun row => Links row p.2.key) ↔
      (Links low p.2.key ↔ Links second p.2.key) := by
    intro p member
    have level := truthful p member
    simp only [List.countP_cons, decide_eq_true_eq] at level ⊢
    by_cases inLow : Links low p.2.key <;> by_cases inSecond : Links second p.2.key <;>
      have linked := inSecond <;> rw [Links] at linked <;>
      simp [inLow, inSecond, linked] at level ⊢ <;> omega
  rw [Truthful, lowerKeys, List.forall_mem_map]
  constructor
  · intro all p member
    have level := all p member
    refine (lowered p member).mp (level.trans ?_)
    split <;> rfl
  · intro all p member
    refine ((lowered p member).mpr (all p member)).trans ?_
    split <;> rfl

theorem lowered_level_le (truthful : Truthful list (low :: second :: rest)) {p : Nat × Entry}
    (member : p ∈ list) (links : Links low p.2.key) :
    ∃ q ∈ lowerKeys (second.map Prod.snd) list, q.1 = p.1 ∧ q.2.key = p.2.key ∧
      (second :: rest).countP (fun row => Links row p.2.key) ≤ q.2.level := by
  refine ⟨_, List.mem_map_of_mem member, ?_⟩
  have level := truthful p member
  simp only [List.countP_cons, decide_eq_true_eq, if_pos links] at level ⊢
  split
  · exact ⟨rfl, rfl, by dsimp only; omega⟩
  · exact ⟨rfl, rfl, by omega⟩

theorem lowerKeys_addresses (keys : List Nat) (list : List (Nat × Entry)) :
    (lowerKeys keys list).map Prod.fst = list.map Prod.fst := by
  rw [lowerKeys, List.map_map]
  refine List.map_congr_left fun p _ => ?_
  rw [Function.comp_apply]
  split <;> rfl

end Levels

namespace Enclave

/-- `Spares`, if the block handed out last is linked in a row that stays. -/
def SparesLinked (e : Enclave) : Prop :=
  (∃ row ∈ e.linkedRows.tail, (bump e.trace).2 ∈ row) → e.Spares

instance (e : Enclave) : Decidable e.SparesLinked := inferInstanceAs (Decidable (_ → _))

end Enclave

namespace IndexLayer

variable {e e' after : Enclave} {list : List (Nat × Entry)} {rows : List (List (Nat × Nat))}
  {low second : List (Nat × Nat)} {rest : List (List (Nat × Nat))}

theorem linkedRows_congr (layer : IndexLayer e list rows) (sentinel : e'.sentinel = e.sentinel)
    (kept : ∀ row ∈ rows, ∀ p ∈ row, rightAt e'.inodes p.1 = rightAt e.inodes p.1 ∧
      downAt e'.inodes p.1 = downAt e.inodes p.1) :
    e'.linkedRows = e.linkedRows := by
  rw [layer.linkedRows_eq]
  refine e'.linkedRows_of ?_ fun row inRows => ?_
  · rw [sentinel]
    refine layer.column.congr fun address member => ?_
    obtain ⟨row, inRows, rfl⟩ := List.mem_map.mp (List.mem_reverse.mp member)
    obtain ⟨head, cells, rfl⟩ := layer.heads row inRows
    exact (kept _ inRows _ List.mem_cons_self).2
  · refine (layer.chains row inRows).congr fun address member => ?_
    obtain ⟨p, inRow, rfl⟩ := List.mem_map.mp member
    exact (kept row inRows p inRow).1

theorem congr (layer : IndexLayer e list rows) (mnodes : e'.mnodes = e.mnodes)
    (nodes : e'.nodes = e.nodes) (sentinel : e'.sentinel = e.sentinel)
    (kept : ∀ row ∈ rows, ∀ p ∈ row, e'.inode p.1 = e.inode p.1) : IndexLayer e' list rows := by
  obtain ⟨intermed, column, chains, heads, increasing, cells, apart, ground⟩ := layer
  refine ⟨?_, ?_, ?_, heads, increasing, ?_, apart, ?_⟩
  · rw [mnodes, nodes]
    exact intermed
  · rw [sentinel]
    refine column.congr fun address member => ?_
    obtain ⟨row, inRows, rfl⟩ := List.mem_map.mp (List.mem_reverse.mp member)
    obtain ⟨head, cells, rfl⟩ := heads row inRows
    exact congrArg (Option.map Inode.down) (kept _ inRows _ List.mem_cons_self)
  · intro row inRows
    refine (chains row inRows).congr fun address member => ?_
    obtain ⟨p, inRow, rfl⟩ := List.mem_map.mp member
    exact congrArg (Option.map Inode.right) (kept row inRows p inRow)
  · intro row inRows p inRow
    rw [kept row inRows p inRow]
    exact cells row inRows p inRow
  · intro row isLow p inRow
    exact (congrArg (Option.map Inode.down) (kept row (List.mem_of_mem_head? isLow) p inRow)).trans
      (ground row isLow p inRow)

theorem notIn_low (layer : IndexLayer e list (low :: second :: rest)) {row : List (Nat × Nat)}
    (inRows : row ∈ second :: rest) {p : Nat × Nat} (inRow : p ∈ row) : p.1 ∉ low.map Prod.fst := by
  intro again
  obtain ⟨q, inLow, same⟩ := List.mem_map.mp again
  exact layer.disjoint.1 row inRows q inLow p inRow same

section Taken

variable {list' : List (Nat × Entry)} {p : Nat × Nat}

theorem taken_ends (layer : IndexLayer e list (low :: second :: rest))
    (layerAfter : IndexLayer after list' (second :: rest)) (taken : Taken e low p.1 e' after)
    (inLow : p ∈ low) {row : List (Nat × Nat)} (inRows : row ∈ second :: rest)
    (linked : (bump e.trace).2 ∈ row.map Prod.fst) :
    rightAt after.inodes (bump e.trace).2 = some 0 ∧ downAt after.inodes (bump e.trace).2 = some 0 := by
  have isAt : ∀ get : Inode → Nat, (after.inode (bump e.trace).2).map get = (e.inode p.1).map get :=
    fun get => congrArg (Option.map get) taken.alike
  have inLow' : p.1 ∈ low.map Prod.fst := List.mem_map_of_mem inLow
  constructor
  · obtain ⟨cell, _, found, _⟩ := layer.cells low List.mem_cons_self p inLow
    have right : rightAt e.inodes p.1 = some cell.right := rightAt_found found
    have rightAfter : rightAt after.inodes (bump e.trace).2 = some cell.right :=
      (isAt Inode.right).trans right
    rcases (layer.chains low List.mem_cons_self).next_mem inLow' right with null | inLow''
    · rw [rightAfter, null]
    rcases (layerAfter.chains row inRows).next_mem linked rightAfter with null | inRow
    · rw [rightAfter, null]
    · obtain ⟨q, inCells, same⟩ := List.mem_map.mp inRow
      exact absurd (same ▸ inLow'') (layer.notIn_low inRows inCells)
  · exact (isAt Inode.down).trans (layer.ground low rfl p inLow)

theorem taken_linkedRows (layer : IndexLayer e list (low :: second :: rest))
    (layerAfter : IndexLayer after list' (second :: rest)) (taken : Taken e low p.1 e' after)
    (inLow : p ∈ low) : e'.linkedRows = after.linkedRows := by
  refine layerAfter.linkedRows_congr taken.sentinel fun row inRows q inRow => ?_
  have now := taken.inodes q.1 (layer.notIn_low inRows inRow)
  rw [rightAt, rightAt, downAt, downAt, show Store.get e'.inodes q.1 = _ from now]
  by_cases isLast : (bump e.trace).2 = q.1
  · obtain ⟨right, down⟩ := layer.taken_ends layerAfter taken inLow inRows
      (isLast ▸ List.mem_map_of_mem inRow)
    rw [isLast] at right down
    rw [if_pos isLast]
    exact ⟨right.symm, down.symm⟩
  · rw [if_neg isLast]
    exact ⟨rfl, rfl⟩

/-- The mnode of the inode that was zeroed is linked in one row less than its level says. -/
theorem taken_levels (layer : IndexLayer e list (low :: second :: rest))
    (truthful : Truthful list (low :: second :: rest))
    (layerAfter : IndexLayer after (lowerKeys (second.map Prod.snd) list) (second :: rest))
    (taken : Taken e low p.1 e' after) (inLow : p ∈ low)
    (linked : ∃ row ∈ second :: rest, (bump e.trace).2 ∈ row.map Prod.fst) {listed : Nat → Prop}
    (isListed : ∀ address, listed address ↔ ∃ p ∈ list, p.1 = address) : ¬ e'.LevelsCount listed := by
  intro levels
  obtain ⟨row, inRows, isLinked⟩ := linked
  obtain ⟨q, inRow, isLast⟩ := List.mem_map.mp isLinked
  obtain ⟨cell, entry, found, inList, key⟩ := layer.cells low List.mem_cons_self p inLow
  have foundAfter : after.inode q.1 = some cell := by
    rw [isLast, taken.alike, found]
  have zeroed : e'.inode q.1 = some ⟨0, 0, 0, 0⟩ := by
    rw [taken.inodes q.1 (layer.notIn_low inRows inRow), if_pos isLast.symm]
  obtain ⟨_, _, intermed⟩ := layer.intermed
  have nonzero : cell.intermed ≠ 0 := intermed.nonzero inList
  have links : Links low entry.key := key ▸ List.mem_map_of_mem inLow
  obtain ⟨lowered, inLowered, sameAddress, sameKey, enough⟩ := lowered_level_le truthful inList links
  -- no row links an inode of the mnode that it did not link before, and this one links none
  have fewer : ∀ other ∈ second :: rest, (other.map Prod.fst).any (e'.isOver cell.intermed) = true →
      (other.map Prod.fst).any (after.isOver cell.intermed) = true ∧ other ≠ row := by
    intro other inOther any
    obtain ⟨address, member, isOver⟩ := List.any_eq_true.mp any
    obtain ⟨r, inCells, rfl⟩ := List.mem_map.mp member
    rw [Enclave.isOver, taken.inodes r.1 (layer.notIn_low inOther inCells), decide_eq_true_eq] at isOver
    by_cases here : (bump e.trace).2 = r.1
    · rw [if_pos here] at isOver
      exact absurd (Option.some.inj isOver).symm nonzero
    rw [if_neg here] at isOver
    refine ⟨List.any_eq_true.mpr ⟨r.1, member, decide_eq_true isOver⟩, ?_⟩
    rintro rfl
    obtain ⟨inode, stored, isMnode⟩ := Option.map_eq_some_iff.mp isOver
    have same := layerAfter.over_unique inOther inCells inRow stored foundAfter isMnode
    exact here (isLast.symm.trans (congrArg Prod.fst same).symm)
  have counts : (after.linkedRows.countP fun row => row.any (e'.isOver cell.intermed)) <
      after.linkedRows.countP fun row => row.any (after.isOver cell.intermed) := by
    rw [layerAfter.linkedRows_eq, List.countP_map, List.countP_map]
    obtain ⟨before, later, split⟩ := List.append_of_mem inRows
    have anyHere : (row.map Prod.fst).any (after.isOver cell.intermed) = true :=
      List.any_eq_true.mpr ⟨q.1, List.mem_map_of_mem inRow, by rw [Enclave.isOver, foundAfter]; simp⟩
    have noneHere : ¬ (row.map Prod.fst).any (e'.isOver cell.intermed) = true := fun any =>
      (fewer row inRows any).2 rfl
    have part : ∀ rows : List (List (Nat × Nat)), rows ⊆ second :: rest →
        rows.countP ((fun row => row.any (e'.isOver cell.intermed)) ∘ List.map Prod.fst) ≤
          rows.countP ((fun row => row.any (after.isOver cell.intermed)) ∘ List.map Prod.fst) :=
      fun rows inside => List.countP_mono_left fun other member any =>
        (fewer other (inside member) any).1
    have first := part before fun _ member => split ▸ List.mem_append_left _ member
    have last := part later fun _ member =>
      split ▸ List.mem_append_right _ (List.mem_cons_of_mem _ member)
    rw [split, List.countP_append, List.countP_append, List.countP_cons, List.countP_cons,
      Function.comp_apply, Function.comp_apply, if_pos anyHere, if_neg noneHere]
    omega
  obtain ⟨_, _, intermedAfter⟩ := layerAfter.intermed
  obtain ⟨next, stored⟩ := intermedAfter.holds lowered inLowered
  rw [sameAddress] at stored
  have level := levels cell.intermed (lowered.2.at next)
    ((isListed cell.intermed).mpr ⟨_, inList, rfl⟩) ((congrArg (Store.get · _) taken.mnodes).trans stored)
  rw [layer.taken_linkedRows layerAfter taken inLow] at level
  have counted := layerAfter.countP_over inLowered
  rw [sameAddress, sameKey] at counted
  refine absurd (counts.trans_le ?_) (Nat.lt_irrefl _)
  calc after.linkedRows.countP (fun row => row.any (after.isOver cell.intermed))
      = (second :: rest).countP fun row => Links row entry.key := counted
    _ ≤ lowered.2.level := enough
    _ = after.linkedRows.countP fun row => row.any (e'.isOver cell.intermed) := level

end Taken

end IndexLayer

/-- After `bg_lower_ilevel` the levels of the mnodes count the rows that are left, exactly if the row
it took away links the same mnodes as the next one and `nfree` took none of its inodes for another
one that stays linked. -/
theorem lowered_levels_truthful_iff {e : Enclave} {list : List (Nat × Entry)}
    {low second : List (Nat × Nat)} {rest : List (List (Nat × Nat))}
    (layer : IndexLayer e list (low :: second :: rest)) (truthful : e.LevelsTruthful) : ∃ e',
      e.bgLowerIlevel numa (firstOf second) = some e' ∧ e'.linkedRows = e.linkedRows.tail ∧
      (e'.LevelsCount e.Listed ↔ e.SparesLinked ∧ ∀ address, e.Listed address →
        ((low.map Prod.fst).any (e.isOver address) = true ↔
          (second.map Prod.fst).any (e.isOver address) = true)) := by
  have nonempty := List.cons_ne_nil low (second :: rest)
  have levels := (layer.truthful_iff nonempty).mp truthful
  have isListed : ∀ address, e.Listed address ↔ ∃ p ∈ list, p.1 = address :=
    fun _ => layer.listed_iff nonempty
  have raised : ∀ p ∈ list, Links second p.2.key → 1 ≤ p.2.level := fun p member links =>
    truthful_linked levels member (List.mem_cons_of_mem _ List.mem_cons_self) links
  have sameRows : (∀ address, e.Listed address →
      ((low.map Prod.fst).any (e.isOver address) = true ↔
        (second.map Prod.fst).any (e.isOver address) = true)) ↔
      ∀ p ∈ list, Links low p.2.key ↔ Links second p.2.key := by
    have links : ∀ p ∈ list, (low.map Prod.fst).any (e.isOver p.1) = true ↔ Links low p.2.key :=
      fun _ => layer.any_over_iff List.mem_cons_self
    have linksNext : ∀ p ∈ list,
        (second.map Prod.fst).any (e.isOver p.1) = true ↔ Links second p.2.key :=
      fun _ => layer.any_over_iff (List.mem_cons_of_mem _ List.mem_cons_self)
    constructor
    · intro same p member
      rw [← links p member, ← linksNext p member]
      exact same p.1 ((isListed p.1).mpr ⟨p, member, rfl⟩)
    · intro same address listed
      obtain ⟨p, member, rfl⟩ := (isListed address).mp listed
      rw [links p member, linksNext p member]
      exact same p member
  have exactly : ∀ {e'}, IndexLayer e' (lowerKeys (second.map Prod.snd) list) (second :: rest) →
      e.SparesLinked → e'.linkedRows = e.linkedRows.tail ∧ (e'.LevelsCount e.Listed ↔
        e.SparesLinked ∧ ∀ address, e.Listed address →
          ((low.map Prod.fst).any (e.isOver address) = true ↔
            (second.map Prod.fst).any (e.isOver address) = true)) := by
    intro e' layer' spares
    have isListed' : ∀ address, e.Listed address ↔
        ∃ p ∈ lowerKeys (second.map Prod.snd) list, p.1 = address := by
      intro address
      rw [isListed, ← List.mem_map, ← List.mem_map, lowerKeys_addresses]
    refine ⟨?_, ?_⟩
    · rw [layer'.linkedRows_eq, layer.linkedRows_eq]
      rfl
    · rw [layer'.levelsCount_iff isListed', lowerKeys_truthful_iff levels, sameRows, and_iff_right spares]
  by_cases spares : e.Spares
  · obtain ⟨e', lowers, layer'⟩ := layer.bgLowerIlevel_returns numa.guarded_honest raised
    rw [← layer.bgLowerIlevel_same raised spares] at lowers
    exact ⟨e', lowers, exactly layer' fun _ => spares⟩
  obtain ⟨p, inLow, e', after, lowers, _, layerAfter, taken⟩ := layer.bgLowerIlevel_takes raised spares
  have stays : e.linkedRows.tail = (second :: rest).map (List.map Prod.fst) := by
    rw [layer.linkedRows_eq]
    rfl
  by_cases linked : ∃ row ∈ second :: rest, (bump e.trace).2 ∈ row.map Prod.fst
  · refine ⟨e', lowers, ?_, iff_of_false ?_ ?_⟩
    · rw [layer.taken_linkedRows layerAfter taken inLow, layerAfter.linkedRows_eq, stays]
    · exact layer.taken_levels levels layerAfter taken inLow linked isListed
    · rintro ⟨sparesLinked, _⟩
      obtain ⟨row, inRows, isLinked⟩ := linked
      exact spares (sparesLinked ⟨_, stays ▸ List.mem_map_of_mem inRows, isLinked⟩)
  · have layer' := layerAfter.congr taken.mnodes taken.nodes taken.sentinel fun row inRows q inRow => by
      have isOther : (bump e.trace).2 ≠ q.1 := fun isLast =>
        linked ⟨row, inRows, isLast ▸ List.mem_map_of_mem inRow⟩
      rw [taken.inodes q.1 (layer.notIn_low inRows inRow), if_neg isOther]
    refine ⟨e', lowers, exactly layer' fun isLinked => absurd ?_ linked⟩
    rw [stays] at isLinked
    obtain ⟨_, inRows, member⟩ := isLinked
    obtain ⟨row, inCells, rfl⟩ := List.mem_map.mp inRows
    exact ⟨row, inCells, member⟩

/-- The pass raises key 2 into the only row there is, and a second row over it. -/
def secondRaised : List Call := [insertJob 1, insertJob 2, insertJob 3, .pass]

theorem secondRaised_layer : ∃ e list low second,
    (numaSetting [1, 2, 3]).run secondRaised = some e ∧ IndexLayer e list [low, second] ∧
      e.LevelsTruthful ∧ firstOf second = 7 := by
  have jobs : JobsOk (numaSetting [1, 2, 3]).nodes (jobsOf secondRaised) :=
    ⟨by decide, by decide, by decide⟩
  have never : (numaSetting [1, 2, 3]).NeverLowers secondRaised := by decide +kernel
  obtain ⟨e, l, ran, repr, balanced⟩ := (numaSetting [1, 2, 3]).run_balanced jobs (by decide) never
  have ended : ((numaSetting [1, 2, 3]).run secondRaised).map (fun e =>
      (e.linkedRows, e.trace.countP isUnlink)) = some ([[2, 6], [7]], 0) := by decide +kernel
  rw [ran, Option.map_some] at ended
  obtain ⟨linked, unlinks⟩ := Prod.mk.inj (Option.some.inj ended)
  have layer := repr.indexLayer
  rw [layer.linkedRows_eq] at linked
  have truthful : e.LevelsTruthful := repr.levelsTruthful_iff.mpr (balanced.levels_iff.mpr unlinks)
  obtain ⟨low, rest, rows, _, others⟩ := List.map_eq_cons_iff.mp linked
  obtain ⟨second, none, rfl, first, isNone⟩ := List.map_eq_cons_iff.mp others
  obtain rfl : none = [] := List.map_eq_nil_iff.mp isNone
  rw [rows] at layer
  refine ⟨e, l.mnodes, low, second, ran, layer, truthful, ?_⟩
  rw [firstOf, first]
  rfl

theorem secondRaised_lowered : ∃ e list low second,
    (numaSetting [1, 2, 3]).run secondRaised = some e ∧ IndexLayer e list [low, second] ∧ ∃ e',
      e.bgLowerIlevel numa (firstOf second) = some e' ∧ e'.linkedRows = e.linkedRows.tail ∧
      (e'.LevelsCount e.Listed ↔ e.SparesLinked ∧ ∀ address, e.Listed address →
        ((low.map Prod.fst).any (e.isOver address) = true ↔
          (second.map Prod.fst).any (e.isOver address) = true)) := by
  obtain ⟨e, list, low, second, ran, layer, truthful, _⟩ := secondRaised_layer
  exact ⟨e, list, low, second, ran, layer, lowered_levels_truthful_iff layer truthful⟩

/-- The mnode of key 2 keeps level 1 when the row that linked its inode is gone. -/
theorem secondRaised_keeps_level : ∃ e list low second,
    (numaSetting [1, 2, 3]).run secondRaised = some e ∧ IndexLayer e list [low, second] ∧
      e.LevelsTruthful ∧ ∃ e', e.bgLowerIlevel numa (firstOf second) = some e' ∧
        ¬ e'.LevelsTruthful := by
  obtain ⟨e, list, low, second, ran, layer, truthful, first⟩ := secondRaised_layer
  have ended : (((numaSetting [1, 2, 3]).run secondRaised).bind fun e =>
      e.bgLowerIlevel numa 7).map (fun e =>
      (e.inode e.sentinel, nextAt e.mnodes 1, nextAt e.mnodes 3, e.mnode 4,
        e.linkedRows.countP fun row => row.any (e.isOver 4))) =
      some (some ⟨0, 0, 1, 0⟩, some 3, some 4, some ⟨5, 1002, 2, 1, false⟩, 0) := by
    decide +kernel
  rw [ran, Option.bind_some] at ended
  obtain ⟨e', lowers, facts⟩ := Option.map_eq_some_iff.mp ended
  simp only [Prod.mk.injEq] at facts
  obtain ⟨sentinel, first', second', stored, unlinked⟩ := facts
  refine ⟨e, list, low, second, ran, layer, truthful, e', first ▸ lowers, fun truthful' => ?_⟩
  have listed : e'.Listed 4 := ⟨_, sentinel,
    (Relation.ReflTransGen.single ⟨by decide, first'⟩).tail ⟨by decide, second'⟩⟩
  have level := truthful' 4 _ listed stored
  rw [unlinked] at level
  exact absurd level Nat.one_ne_zero

end Hosk
