import Mathlib.Data.List.TakeWhile
import Hosk.InsertedRuns
import Hosk.RebuiltHeight
import Hosk.SearchCost

/-!
How long a search takes in an index that passes have rebuilt: so many reads for each row, and so
many for each mnode that it walks over. Where a row links its key, it leaves the index at the
inode before, and the higher that row the more mnodes are left to walk over.
-/

namespace Hosk

section Gaps

variable {first p r : Nat} {low : List Nat}

theorem everySecond_neighbours (low : List Nat) : ∀ {first : Nat} {before after : List Nat},
    first :: everySecond low = before ++ p :: r :: after →
    ∃ before' skipped after', first :: low = before' ++ p :: skipped :: r :: after' := by
  induction low using everySecond.induct with
  | case1 skipped key next rest ih =>
      intro first before after split
      rw [everySecond] at split
      cases before with
      | nil =>
          obtain ⟨rfl, onward⟩ := List.cons.inj split
          obtain ⟨rfl, _⟩ := List.cons.inj onward
          exact ⟨[], skipped, next :: rest, rfl⟩
      | cons head before =>
          obtain ⟨before', between, after', found⟩ := ih (List.cons.inj split).2
          exact ⟨first :: skipped :: before', between, after', by rw [found]; rfl⟩
  | case2 low short =>
      intro first before after split
      rw [everySecond] at split
      · have size := congrArg List.length split
        simp only [List.length_append, List.length_cons, List.length_nil] at size
        omega
      · exact short

theorem everySecond_third (low : List Nat) : ∀ {first : Nat} {before : List Nat}
    {x y z : Nat} {rest : List Nat}, (first :: low).Nodup → p ∈ first :: everySecond low →
    first :: low = before ++ p :: x :: y :: z :: rest → y ∈ everySecond low := by
  induction low using everySecond.induct with
  | case1 skipped key next rest ih =>
      intro first before x y z later distinct member split
      rw [everySecond] at member ⊢
      have behind := (List.nodup_cons.mp distinct).2
      cases before with
      | nil =>
          obtain ⟨_, behindP⟩ := List.cons.inj split
          obtain ⟨_, behindX⟩ := List.cons.inj behindP
          obtain ⟨rfl, _⟩ := List.cons.inj behindX
          exact List.mem_cons_self
      | cons head before =>
          obtain ⟨_, behindHead⟩ := List.cons.inj split
          have inRest : p ∈ skipped :: key :: next :: rest := by
            rw [behindHead]
            exact List.mem_append_right before List.mem_cons_self
          have notFirst : p ≠ first := fun same => (List.nodup_cons.mp distinct).1 (same ▸ inRest)
          have onward := (List.mem_cons.mp member).resolve_left notFirst
          cases before with
          | nil =>
              obtain ⟨rfl, _⟩ := List.cons.inj behindHead
              refine absurd ?_ (List.nodup_cons.mp behind).1
              rcases List.mem_cons.mp onward with rfl | inHigh
              · exact List.mem_cons_self
              · exact List.mem_cons_of_mem _ ((everySecond_sublist _).subset inHigh)
          | cons head before =>
              have found := ih (List.nodup_cons.mp behind).2 onward (List.cons.inj behindHead).2
              exact List.mem_cons_of_mem _ found
  | case2 low short =>
      intro first before x y z later distinct member split
      rw [everySecond, List.mem_singleton] at member
      · subst member
        obtain rfl : before = [] := by
          cases before with
          | nil => rfl
          | cons head before =>
              obtain ⟨_, behindHead⟩ := List.cons.inj split
              have inLow : p ∈ low := by
                rw [behindHead]
                exact List.mem_append_right before List.mem_cons_self
              exact absurd inLow (List.nodup_cons.mp distinct).1
        exact absurd (List.cons.inj split).2 (short x y z _)
      · exact short

theorem split_unique {α : Type} {before before' after after' : List α} {x : α}
    (distinct : (before ++ x :: after).Nodup)
    (same : before ++ x :: after = before' ++ x :: after') : before = before' ∧ after = after' := by
  have apart := distinct
  rw [List.nodup_append, List.nodup_cons] at apart
  have notBefore : x ∉ before := fun member => apart.2.2 x member x List.mem_cons_self rfl
  obtain ⟨sameBefore, _, sameAfter⟩ :=
    (List.append_cons_inj_of_notMem notBefore apart.2.1.1).mp same
  exact ⟨sameBefore, sameAfter⟩

theorem filled_neighbours (keys : List Nat) (first : Nat) (distinct : (first :: keys).Nodup) (i : Nat) :
    ∀ {p r : Nat} {before after : List Nat}, first :: filled keys i = before ++ p :: r :: after →
    ∃ before' between after', first :: keys = before' ++ p :: (between ++ r :: after') ∧
      between.length + 1 = 2 ^ (i + 1) := by
  induction i with
  | zero =>
      intro p r before after split
      obtain ⟨before', skipped, after', found⟩ := everySecond_neighbours keys split
      exact ⟨before', [skipped], after', found, rfl⟩
  | succ i ih =>
      intro p r before after split
      obtain ⟨before', skipped, after', found⟩ := everySecond_neighbours (filled keys i) split
      obtain ⟨before₁, left, after₁, split₁, size₁⟩ := ih found
      rw [show before' ++ p :: skipped :: r :: after' = (before' ++ [p]) ++ skipped :: r :: after' by
        simp] at found
      obtain ⟨before₂, right, after₂, split₂, size₂⟩ := ih found
      have regroup : first :: keys = (before₁ ++ p :: left) ++ skipped :: after₁ := by
        rw [split₁]
        simp
      obtain ⟨_, rfl⟩ := split_unique (regroup ▸ distinct) (regroup.symm.trans split₂)
      refine ⟨before₁, left ++ skipped :: right, after₂, ?_, ?_⟩
      · rw [split₁]
        simp
      · rw [List.length_append, List.length_cons, Nat.pow_succ]
        omega

theorem passed_le_two {key : Nat} {before passed rest : List Nat}
    (sorted : (first :: low).Pairwise (· < ·)) (member : p ∈ first :: everySecond low)
    (beyond : ∀ r ∈ everySecond low, p < r → key < r)
    (split : first :: low = before ++ p :: (passed ++ rest)) (upTo : ∀ r ∈ passed, r ≤ key) :
    passed.length ≤ 2 := by
  rcases passed with _ | ⟨x, _ | ⟨y, _ | ⟨z, passed⟩⟩⟩
  · simp
  · simp
  · simp
  · have inHigh := everySecond_third low (sorted.imp Nat.ne_of_lt) member split
    rw [split, List.pairwise_append, List.pairwise_cons] at sorted
    have greater := beyond y inHigh (sorted.2.1.1 y (by simp))
    have notPast := upTo y (by simp)
    omega

end Gaps

theorem cut_at {α : Type} (keyOf : α → Nat) (bound : Nat) (list : List α)
    (sorted : list.Pairwise fun p q => keyOf p < keyOf q) : ∃ passed rest, list = passed ++ rest ∧
      (∀ q ∈ passed, keyOf q < bound) ∧ ∀ r ∈ rest, bound ≤ keyOf r := by
  induction list with
  | nil => exact ⟨[], [], rfl, by simp, by simp⟩
  | cons head list ih =>
      rw [List.pairwise_cons] at sorted
      by_cases less : keyOf head < bound
      · obtain ⟨passed, rest, parts, smaller, atLeast⟩ := ih sorted.2
        refine ⟨head :: passed, rest, by rw [parts]; rfl, ?_, atLeast⟩
        simpa [less] using smaller
      · refine ⟨[], head :: list, rfl, by simp, ?_⟩
        intro r member
        rcases List.mem_cons.mp member with rfl | inList
        · exact Nat.le_of_not_lt less
        · have greater := sorted.1 r inList
          omega

/-- Each row links every second key of what is below it, and the top row links none. -/
structure Filled (l : Layout) (keys : List Nat) : Prop where
  mnodes : l.mnodes.map (fun p => p.2.key) = 0 :: keys
  rows : ∀ (i : Nat) row, l.rows[i]? = some row → row.map Prod.snd = 0 :: filled keys i
  top : filled keys l.rows.length = []

/-- The key of the mnode where a search leaves the index: below the bottom row, or from the inode
before the one with its key, in the highest row that links this one. -/
inductive Leaves (keys : List Nat) (rows key : Nat) : Nat → Prop where
  | ground {m : Nat} : m ∈ 0 :: filled keys 0 → (∀ r ∈ filled keys 0, m < r → key < r) → m < key →
      Leaves keys rows key m
  | found {m : Nat} (i : Nat) {before after : List Nat} : i < rows →
      0 :: filled keys i = before ++ m :: key :: after → key ∉ filled keys (i + 1) →
      Leaves keys rows key m

theorem Leaves.mono {keys : List Nat} {rows rows' key m : Nat} (leaves : Leaves keys rows key m)
    (more : rows ≤ rows') : Leaves keys rows' key m := by
  cases leaves with
  | ground member beyond less => exact .ground member beyond less
  | found i bound split unlinked => exact .found i (Nat.lt_of_lt_of_le bound more) split unlinked

namespace Repr

open Enclave

variable {e : Enclave} {l : Layout} {keys : List Nat} {key : Nat}

theorem reads_row (repr : Repr e l) (full : Filled l keys) {i : Nat} {row before after : List (Nat × Nat)}
    {p : Nat × Nat} (located : l.rows[i]? = some row) (split : row = before ++ p :: after)
    (less : p.2 < key) (member : p.2 ∈ 0 :: filled keys (i + 1))
    (beyond : ∀ r ∈ filled keys (i + 1), p.2 < r → key < r) :
    (∃ mnode entry, (mnode, entry) ∈ l.mnodes ∧ e.Reaches key 10 (.right p.1) (.next mnode) ∧
      Leaves keys (i + 1) key entry.key) ∨
    (∃ q ∈ row, q.2 < key ∧ e.Reaches key 8 (.right p.1) (.down q.1) ∧
      ∀ r ∈ filled keys i, q.2 < r → key < r) := by
  have links := full.rows i row located
  have sorted : (0 :: filled keys i).Pairwise (· < ·) := by
    rw [← links]
    exact List.pairwise_map.mpr (repr.grid.sorted row (List.mem_of_getElem? located))
  have ascending := repr.grid.sorted row (List.mem_of_getElem? located)
  rw [split, List.pairwise_append, List.pairwise_cons] at ascending
  obtain ⟨passed, rest, parts, smaller, atLeast⟩ := cut_at Prod.snd key after ascending.2.1.2
  subst parts
  obtain ⟨before', q, split', among, reads⟩ := repr.reads_right located passed before p rest split smaller
  have qLess : q.2 < key := by
    rcases among with rfl | inPassed
    · exact less
    · exact smaller q inPassed
  have few : passed.length ≤ 2 := by
    have keysParts : 0 :: filled keys i =
        before.map Prod.snd ++ p.2 :: (passed.map Prod.snd ++ rest.map Prod.snd) := by
      rw [← links, split]
      simp
    rw [← passed.length_map]
    exact passed_le_two sorted member beyond keysParts
      (List.forall_mem_map.mpr fun q isPassed => Nat.le_of_lt (smaller q isPassed))
  have arrives : e.Reaches key 6 (.right p.1) (.right q.1) :=
    (Reaches.exactly reads).mono (by omega)
  have keysSplit : 0 :: filled keys i = before'.map Prod.snd ++ q.2 :: rest.map Prod.snd := by
    rw [← links, split']
    simp
  by_cases hit : ∃ r ∈ rest, r.2 = key
  · obtain ⟨r, inRest, same⟩ := hit
    obtain ⟨later, rfl⟩ : ∃ later, rest = r :: later := by
      cases rest with
      | nil => exact absurd inRest List.not_mem_nil
      | cons head later =>
          rcases List.mem_cons.mp inRest with rfl | inLater
          · exact ⟨later, rfl⟩
          · have behind := (List.pairwise_append.mp ascending.2.1.2).2.1
            have less := (List.pairwise_cons.mp behind).1 r inLater
            have notLess := atLeast head List.mem_cons_self
            omega
    obtain ⟨entry, mnode, inList, sameKey, found⟩ := repr.reads_found located split' same
    refine .inl ⟨mnode, entry, inList, arrives.trans found, ?_⟩
    rw [sameKey]
    refine .found i (Nat.lt_succ_self i) (by rw [keysSplit, List.map_cons, same]) ?_
    intro linked
    exact Nat.lt_irrefl key (beyond key linked less)
  · have past : ∀ r ∈ rest, key < r.2 := fun r inRest =>
      Nat.lt_of_le_of_ne (atLeast r inRest) fun same => hit ⟨r, inRest, same.symm⟩
    refine .inr ⟨q, by simp [split'], qLess,
      arrives.trans (repr.reads_past located split' past), ?_⟩
    intro r linked greater
    have among : r ∈ before'.map Prod.snd ++ q.2 :: rest.map Prod.snd :=
      keysSplit ▸ List.mem_cons_of_mem 0 linked
    rw [keysSplit, List.pairwise_append] at sorted
    rw [List.mem_append, List.mem_cons] at among
    rcases among with inBefore | rfl | inRest
    · have smallerOne := sorted.2.2 r inBefore q.2 List.mem_cons_self
      omega
    · exact absurd greater (Nat.lt_irrefl _)
    · obtain ⟨p', isPast, rfl⟩ := List.mem_map.mp inRest
      exact past p' isPast

/-- Nine reads for each row down to where the search leaves the index. -/
theorem reads_index (repr : Repr e l) (full : Filled l keys) (i : Nat) :
    ∀ {row before after} {p : Nat × Nat}, l.rows[i]? = some row → row = before ++ p :: after →
    p.2 < key → p.2 ∈ 0 :: filled keys (i + 1) → (∀ r ∈ filled keys (i + 1), p.2 < r → key < r) →
    ∃ mnode entry, (mnode, entry) ∈ l.mnodes ∧
      e.Reaches key (9 * (i + 1) + 1) (.right p.1) (.next mnode) ∧
      Leaves keys (i + 1) key entry.key := by
  induction i with
  | zero =>
      intro row before after p located split less member beyond
      rcases repr.reads_row full located split less member beyond with leaves | onward
      · exact leaves
      · obtain ⟨q, inRow, qLess, down, behind⟩ := onward
        obtain ⟨entry, mnode, inList, sameKey, ground⟩ := repr.reads_ground located inRow
        refine ⟨mnode, entry, inList, down.trans ground, ?_⟩
        rw [sameKey]
        refine .ground ?_ behind qLess
        rw [← full.rows 0 row located]
        exact List.mem_map_of_mem inRow
  | succ i ih =>
      intro row before after p located split less member beyond
      rcases repr.reads_row full located split less member beyond with leaves | onward
      · obtain ⟨mnode, entry, inList, reads, leaves⟩ := leaves
        exact ⟨mnode, entry, inList, reads.mono (by omega), leaves⟩
      · obtain ⟨q, inRow, qLess, down, behind⟩ := onward
        have bound := (List.getElem?_eq_some_iff.mp located).1
        have lowLocated := List.getElem?_eq_getElem (Nat.lt_of_succ_lt bound)
        have linked : q.2 ∈ 0 :: filled keys (i + 1) := by
          rw [← full.rows (i + 1) row located]
          exact List.mem_map_of_mem inRow
        have below : q.2 ∈ 0 :: filled keys i :=
          List.cons_subset_cons 0 (filled_succ_subset keys i) linked
        rw [← full.rows i _ lowLocated] at below
        obtain ⟨r, inLow, same⟩ := List.mem_map.mp below
        obtain ⟨front, back, lowSplit⟩ := List.append_of_mem inLow
        have step : e.Reaches key 1 (.down q.1) (.right r.1) :=
          repr.reads_down lowLocated located inRow inLow same.symm
        obtain ⟨mnode, entry, inList, reads, leaves⟩ :=
          ih lowLocated lowSplit (same ▸ qLess) (same ▸ linked) (same ▸ behind)
        refine ⟨mnode, entry, inList, ?_, leaves.mono (Nat.le_succ _)⟩
        exact ((down.trans step).trans reads).mono (by omega)

end Repr

section Walk

variable {keys : List Nat} {rows key : Nat}

theorem takeWhile_parts {passed rest : List Nat} (upTo : ∀ r ∈ passed, r ≤ key)
    (past : ∀ r ∈ rest, key < r) : (passed ++ rest).takeWhile (fun r => r ≤ key) = passed := by
  rw [List.takeWhile_append_of_pos fun r member => decide_eq_true (upTo r member)]
  cases rest with
  | nil => rw [List.takeWhile_nil, List.append_nil]
  | cons r rest =>
      have greater := past r List.mem_cons_self
      rw [List.takeWhile_cons_of_neg (by simpa using greater), List.append_nil]

theorem tower_unlinked (keys : List Nat) {i key : Nat} (unlinked : key ∉ filled keys i) :
    ∀ {rows : Nat}, i ≤ rows → tower keys rows key = tower keys i key := by
  intro rows more
  induction more with
  | refl => rfl
  | step more ih =>
      rw [tower_succ, ih, if_neg fun linked => unlinked (filled_subset keys more linked)]
      rfl

theorem Leaves.walks {m : Nat} (leaves : Leaves keys rows key m) {before passed rest : List Nat}
    (sorted : (0 :: keys).Pairwise (· < ·)) (split : 0 :: keys = before ++ m :: (passed ++ rest))
    (upTo : ∀ r ∈ passed, r ≤ key) (past : ∀ r ∈ rest, key < r) :
    tower keys rows key = 0 ∧ passed.length ≤ 2 ∨
      tower keys rows key ≠ 0 ∧ passed.length = 2 ^ tower keys rows key := by
  cases leaves with
  | ground member beyond less =>
      refine .inl ⟨?_, passed_le_two sorted member beyond split upTo⟩
      exact tower_unlinked keys (fun linked => Nat.lt_irrefl key (beyond key linked less))
        (Nat.zero_le rows)
  | found i bound linkedSplit unlinked =>
      have distinct := sorted.imp Nat.ne_of_lt
      obtain ⟨before', between, after', found, size⟩ := filled_neighbours keys 0 distinct i linkedSplit
      have linked : key ∈ filled keys i := by
        have among : key ∈ 0 :: filled keys i := by simp [linkedSplit]
        have ascending : (0 :: filled keys i).Pairwise (· < ·) :=
          sorted.sublist ((filled_keys keys i).cons_cons 0)
        rw [linkedSplit, List.pairwise_append, List.pairwise_cons] at ascending
        have greater := ascending.2.1.1 key List.mem_cons_self
        exact (List.mem_cons.mp among).resolve_left (by omega)
      have height : tower keys rows key = i + 1 := by
        rw [tower_unlinked keys unlinked bound, tower_of_mem linked (Nat.le_refl _)]
      obtain ⟨_, onward⟩ := split_unique (split ▸ distinct) (split.symm.trans found)
      rw [found, List.pairwise_append, List.pairwise_cons, List.pairwise_append,
        List.pairwise_cons] at sorted
      obtain ⟨_, ⟨_, _, ⟨behindKey, _⟩, betweenKey⟩, _⟩ := sorted
      have same : passed = between ++ [key] := by
        rw [← takeWhile_parts upTo past, onward, List.append_cons]
        refine takeWhile_parts ?_ behindKey
        intro r member
        rcases List.mem_append.mp member with inBetween | isKey
        · exact Nat.le_of_lt (betweenKey r inBetween key List.mem_cons_self)
        · exact Nat.le_of_eq (List.mem_singleton.mp isKey)
      refine .inr ⟨by omega, ?_⟩
      rw [height, same, List.length_append, List.length_singleton, size]

end Walk

namespace Repr

open Enclave

variable {e : Enclave} {l : Layout} {keys : List Nat} {key : Nat}

/-- The whole search: from the sentinel down, then along the intermediate layer. -/
theorem search_cost (repr : Repr e l) (full : Filled l keys) (positive : 0 < key) :
    (∃ node, e.Reaches key (9 * l.rows.length + 4 * 2 ^ tower keys l.rows.length key + 9)
      (.right e.sentinel) (.returned node)) ∧
    (tower keys l.rows.length key ≠ 0 → ∀ count node,
      e.readFor key count (.right e.sentinel) = some (.returned node) →
        4 * 2 ^ tower keys l.rows.length key < count) := by
  obtain ⟨row, _, isLast, isSentinel, _⟩ := repr.sentinel
  obtain ⟨i, rows⟩ := Nat.exists_eq_add_one.mpr repr.grid.nonempty
  have located : l.rows[i]? = some row := by
    rw [← isLast, List.getLast?_eq_getElem?, rows, Nat.add_sub_cancel]
  obtain ⟨head, later, _, split, _⟩ := repr.head located
  have isHead : head = e.sentinel := by
    rw [← isSentinel, split, firstOf_cons]
  have top := full.top
  rw [rows] at top
  obtain ⟨mnode, entry, inList, enters, leaves⟩ := repr.reads_index full i located
    (show row = [] ++ (head, 0) :: later from split) positive List.mem_cons_self
    (by rw [top]; exact fun r member => absurd member List.not_mem_nil)
  rw [← rows] at enters leaves
  rw [isHead] at enters
  have sorted : (0 :: keys).Pairwise (· < ·) := by
    rw [← full.mnodes]
    exact List.pairwise_map.mpr repr.intermed.sorted
  obtain ⟨before, after, mnodesSplit⟩ := List.append_of_mem inList
  have ascending := repr.intermed.sorted
  rw [mnodesSplit, List.pairwise_append, List.pairwise_cons] at ascending
  obtain ⟨passed, rest, parts, upTo, past⟩ :=
    cut_at (fun q => q.2.key) (key + 1) after ascending.2.1.2
  subst parts
  obtain ⟨before', q, mnodesSplit', walks⟩ := repr.reads_mnodes passed before (mnode, entry) rest
    mnodesSplit fun q member => Nat.le_of_lt_succ (upTo q member)
  have ends := repr.reads_returned mnodesSplit' past
  have keysSplit : 0 :: keys = (before.map fun q => q.2.key) ++
      entry.key :: ((passed.map fun q => q.2.key) ++ rest.map fun q => q.2.key) := by
    rw [← full.mnodes, mnodesSplit]
    simp
  have count := leaves.walks sorted keysSplit
    (List.forall_mem_map.mpr fun q member => Nat.le_of_lt_succ (upTo q member))
    (List.forall_mem_map.mpr past)
  rw [List.length_map] at count
  constructor
  · refine ⟨q.2.node, ((enters.trans (Reaches.exactly walks)).trans ends).mono ?_⟩
    have positive := Nat.two_pow_pos (tower keys l.rows.length key)
    omega
  · intro linked count' node returned
    obtain ⟨start, _, entered⟩ := enters
    have under : e.readFor key (start + 4 * passed.length) (.right e.sentinel) =
        some (.next q.1) := by
      rw [readFor_add, entered]
      exact walks
    have more := lt_of_returned under (fun _ wrong => SearchPc.noConfusion wrong) returned
    omega

theorem filled_of_stacked (repr : Repr e l) {base : List Entry} {rows : Nat}
    (stacked : Index.Stacked base rows (abs e l)) (isFull : rows + 1 = fullRows base) :
    Filled l (base.map Entry.key) ∧ l.rows.length = fullRows base := by
  have size : l.rows.length = fullRows base := by
    rw [← rows_length, stacked.rows_length, isFull]
  have linked := stacked.full isFull
  refine ⟨⟨?_, ?_, ?_⟩, size⟩
  · obtain ⟨node, rest, first⟩ := repr.intermed.first
    have entries := stacked.entries
    rw [abs, first, List.tail_cons] at entries
    rw [first, List.map_cons, ← levelled_keys base rows, ← entries, List.map_map]
    rfl
  · intro i row located
    obtain ⟨head, rest, _, split, _⟩ := repr.head located
    have bound := (List.getElem?_eq_some_iff.mp located).1
    have row' : (abs e l).rows[i]? = some (row.tail.map Prod.snd) := by
      rw [abs, List.getElem?_map, located]
      rfl
    rw [linked, List.getElem?_map, List.getElem?_range (size ▸ bound), Option.map_some] at row'
    rw [Option.some.inj row', split]
    rfl
  · by_contra nonempty
    rw [size] at nonempty
    have more := (filled_iff_full base (fullRows base)).mp nonempty
    omega

end Repr

theorem Repr.slTraverseIndex_some {e : Enclave} {l : Layout} (repr : Repr e l) (key : Nat) :
    ∃ node, e.slTraverseIndex key = some node := by
  obtain ⟨before, p, after, split, _, _, searched⟩ := repr.search_returns key
  have stored : e.mnode p.1 = some (p.2.at (firstOf after)) := repr.intermed.at_split split
  refine ⟨p.2.node, ?_⟩
  rw [Enclave.slTraverseIndex, searched]
  simp [stored, Entry.at]

namespace Repr

variable {platform : Platform}

/-- What so many passes count stays within the limit if the last of them does. -/
theorem passes_fit (honest : platform.Honest) (wraps : platform.Wraps32) (passes : Nat) :
    ∀ e l, Repr e l → (abs e l).Undeleted →
    (abs e l).nonDel + passes * (abs e l).entries.length ≤ counterLimit →
    Runs.Along (Enclave.turn platform)
      (fun state call => call = .pass → ∀ e ∈ state, e.IntFits platform) (some e)
      (List.replicate passes .pass) := by
  induction passes with
  | zero => exact fun _ _ _ _ _ => trivial
  | succ passes ih =>
      intro e l repr undeleted bound
      have counted := undeleted.counted
      have all : unmarkedIn (abs e l).entries = (abs e l).entries.length :=
        List.countP_eq_length.mpr fun entry member => decide_eq_true (undeleted.unmarked entry member)
      rw [Int.natCast_add, Int.add_mul, Int.natCast_one, Int.one_mul] at bound
      have later : 0 ≤ (passes : Int) * (abs e l).entries.length :=
        Int.mul_nonneg (Int.natCast_nonneg _) (Int.natCast_nonneg _)
      have fits : e.IntFits platform := by
        apply wraps.intFits
        rw [Enclave.CountFits, repr.listedEntries_eq, all, show e.nonDel = (abs e l).nonDel from rfl]
        omega
      have isExact := repr.passExact_of_fits honest undeleted fits
      obtain ⟨middle, l₁, called, _, repr₁, undeleted₁, abs₁⟩ := repr.call_undeleted honest undeleted
        .pass (fun job wrong => Call.noConfusion wrong) (fun job wrong => Call.noConfusion wrong)
        fun _ => isExact
      refine ⟨fun _ state isEnclave => Option.some.inj isEnclave ▸ fits, ?_⟩
      rw [show Enclave.turn platform (some e) .pass = some middle from called]
      apply ih middle l₁ repr₁ undeleted₁
      obtain ⟨change, _, same⟩ := (abs e l).raiseIndexLayer_relevelled platform.int
      have stays : (abs e l).entries.filter Entry.stays = (abs e l).entries := by
        apply List.filter_eq_self.mpr
        intro entry member
        simp [Entry.stays, undeleted.unmarked entry member]
      rw [Index.call, repr.not_lowers honest isExact.stays] at abs₁
      rw [abs₁, (repr.raised_counts honest isExact).1, same, stays, List.length_map, all]
      omega

end Repr

section Rebuilt

variable (setting : Setting) {calls : List Call}

theorem Setting.rebuilt (wraps : setting.platform.Wraps32) (jobs : JobsOk setting.nodes (jobsOf calls))
    (inserts : ∀ job ∈ jobsOf calls, job.node ≠ 0) : ∃ e₀, setting.run (calls ++ [.reset]) = some e₀ ∧
      (0 ≤ e₀.nonDel → ∀ passes : Nat, fullRows e₀.listedEntries ≤ passes →
        e₀.nonDel + passes * e₀.listedEntries.length ≤ counterLimit → ∃ e l rows,
          setting.run (calls ++ [.reset] ++ List.replicate passes .pass) = some e ∧ Repr e l ∧
          Index.Stacked e₀.listedEntries rows (abs e l) ∧ rows + 1 = fullRows e₀.listedEntries) := by
  have jobsReset : jobsOf (calls ++ [.reset]) = jobsOf calls := by
    rw [jobsOf_snoc]
    exact List.append_nil _
  obtain ⟨e, l, ran, _, repr, spread, absEq⟩ :=
    setting.run_spread (jobsReset ▸ jobs) (jobsReset ▸ inserts)
  refine ⟨e, ran, fun counted passes enough few => ?_⟩
  have undeleted : (abs e l).Undeleted := ⟨spread.unmarked, counted, spread.noneTall⟩
  have sorted : (abs e l).entries.Pairwise fun x y => x.key < y.key := by
    rw [absEq]
    exact (calls_replay setting.platform.int (calls ++ [.reset])).sorted
  have stacked : Index.Stacked (abs e l).entries 0 (abs e l) := by
    have last := Index.reset_stacked (calls.foldl (Index.call setting.platform.int) Index.initial)
    rw [List.foldl_append, List.foldl_cons, List.foldl_nil, Index.call] at absEq
    rw [← absEq] at last
    exact last.rebase
  rw [repr.listedEntries_eq] at enough few ⊢
  obtain ⟨e', l', rows, ran', repr', _, stacked', bound, filled⟩ :=
    Repr.passes_rebuild setting.honest sorted undeleted.unmarked passes e l 0 repr undeleted stacked
      (fullRows_positive _) (Repr.passes_fit setting.honest wraps passes e l repr undeleted few)
  refine ⟨e', l', rows, ?_, repr', stacked', by omega⟩
  rw [Setting.run, Runs.run_append]
  exact (congrArg (fun state => Runs.run _ state _) ran).trans ran'

/-- In an enclave that is given no delete job a search takes logarithmically many reads once passes after
a reset have rebuilt the index, and four more for each of the `2 ^ height` mnodes that it walks over when
`height` rows link its key; so it does until the count of the passes comes to the limit. -/
theorem rebuilt_search_cost (wraps : setting.platform.Wraps32) (jobs : JobsOk setting.nodes (jobsOf calls))
    (inserts : ∀ job ∈ jobsOf calls, job.node ≠ 0) : ∃ e₀, setting.run (calls ++ [.reset]) = some e₀ ∧
      (0 ≤ e₀.nonDel → ∀ passes : Nat, max 1 (Nat.log 2 (e₀.listedEntries.length + 1)) ≤ passes →
        e₀.nonDel + passes * e₀.listedEntries.length ≤ counterLimit → ∃ e,
          setting.run (calls ++ [.reset] ++ List.replicate passes .pass) = some e ∧
          e.listedEntries.length = e₀.listedEntries.length ∧
          ∀ key, 0 < key → ∀ height, (e.linkedKeys.countP fun row => key ∈ row) = height →
            ∃ node count, e.slTraverseIndex key = some node ∧ e.ReturnsAfter key count node ∧
              count ≤ 9 * Nat.log 2 (e.listedEntries.length + 1) + 4 * 2 ^ height + 18 ∧
              (height ≠ 0 → 4 * 2 ^ height < count)) := by
  obtain ⟨e₀, ran₀, rebuilt⟩ := setting.rebuilt wraps jobs inserts
  refine ⟨e₀, ran₀, fun counted passes enough few => ?_⟩
  obtain ⟨e, l, rows, ran, repr, stacked, isFull⟩ := rebuilt counted passes enough few
  generalize e₀.listedEntries = base at stacked isFull
  obtain ⟨full, size⟩ := repr.filled_of_stacked stacked isFull
  have kept : e.listedEntries.length = base.length := by
    rw [repr.listedEntries_eq, stacked.entries, levelled, List.length_map]
  refine ⟨e, ran, kept, ?_⟩
  rintro key positive height rfl
  have isTower : (e.linkedKeys.countP fun row => key ∈ row) =
      tower (base.map Entry.key) l.rows.length key := by
    rw [repr.linkedKeys_eq, stacked.full isFull, List.countP_map, tower, size]
    rfl
  have few : l.rows.length ≤ Nat.log 2 (base.length + 1) + 1 := by
    rw [size, fullRows]
    omega
  obtain ⟨⟨node, reaches⟩, walks⟩ := repr.search_cost full positive
  obtain ⟨count, bound, returns⟩ := reaches.returnsAfter
  obtain ⟨result, returned⟩ := repr.slTraverseIndex_some key
  obtain ⟨count', sameEnd⟩ := (Enclave.slTraverseIndex_reads returned).counted
  obtain rfl := Enclave.returned_unique sameEnd returns.1
  rw [isTower, kept]
  refine ⟨result, count, returned, returns, by omega, ?_⟩
  exact fun linked => walks linked count result returns.1

end Rebuilt

theorem sevenKeys_search_cost : ∃ e, (numaSetting (List.range' 1 7)).run
      ((List.range' 1 7).map insertJob ++ [.reset] ++ List.replicate 3 .pass) = some e ∧
    ∃ node count, e.slTraverseIndex 4 = some node ∧ e.ReturnsAfter 4 count node ∧
      4 * 2 ^ 2 < count ∧ count ≤ 9 * 3 + 4 * 2 ^ 2 + 18 := by
  have jobs : JobsOk (numaSetting (List.range' 1 7)).nodes
      (jobsOf ((List.range' 1 7).map insertJob)) := ⟨by decide, by decide, by decide⟩
  obtain ⟨e₀, ran₀, searches⟩ :=
    rebuilt_search_cost (numaSetting (List.range' 1 7)) numa_wraps jobs (by decide)
  have before : ((numaSetting (List.range' 1 7)).run ((List.range' 1 7).map insertJob ++ [.reset])).map
      (fun e => (e.nonDel, e.listedEntries.length)) = some (0, 7) := by decide +kernel
  rw [ran₀, Option.map_some, Option.some_inj] at before
  obtain ⟨nonDel, length⟩ := Prod.mk.inj before
  obtain ⟨e, ran, kept, onward⟩ := searches (Int.le_of_eq nonDel.symm) 3 (by rw [length]; decide)
    (by rw [nonDel, length]; decide)
  have linked : ((numaSetting (List.range' 1 7)).run
      ((List.range' 1 7).map insertJob ++ [.reset] ++ List.replicate 3 .pass)).map
        (fun e => e.linkedKeys.countP fun row => 4 ∈ row) = some 2 := by decide +kernel
  rw [ran, Option.map_some, Option.some_inj] at linked
  obtain ⟨node, count, returned, returns, bound, above⟩ := onward 4 (by decide) 2 linked
  rw [kept, length] at bound
  exact ⟨e, ran, node, count, returned, returns, above (by decide), bound⟩

end Hosk
