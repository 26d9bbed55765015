import Hosk.IndexRows

/-! `update_index_layer` up to its test for lowering, as a function of the lists. -/

namespace Hosk

namespace Repr

variable {e : Enclave} {l : Layout} {platform : Platform} {i : Nat} {row : List (Nat × Nat)}

theorem rows_length (e : Enclave) (l : Layout) : (abs e l).rows.length = l.rows.length := by
  simp [abs]

theorem heads_length (l : Layout) : l.heads.length = l.rows.length := by
  simp [Layout.heads]

theorem wide_of_second {newLow : Nat} (isHead : l.heads[1]? = some newLow) : 1 < l.rows.length := by
  rw [← heads_length]
  exact (List.getElem?_eq_some_iff.mp isHead).1

theorem abs_getD (located : l.rows[i]? = some row) :
    (abs e l).rows.getD i [] = row.tail.map Prod.snd :=
  getD_row (Repr.abs_row located)

theorem head_facts (repr : Repr e l) (located : l.rows[i]? = some row) : ∃ head rest inode,
    row = (head, 0) :: rest ∧ l.heads[i]? = some head ∧ e.inode head = some inode ∧
      inode.intermed = l.base ∧ inode.key = 0 ∧ inode.right = firstOf rest ∧
      e.levelOver head = some l.rows.length := by
  obtain ⟨head, rest, inode, same, found, key, intermed, right⟩ := repr.head located
  obtain ⟨node, others, split, stored⟩ := repr.base_stored
  refine ⟨head, rest, inode, same, ?_, found, intermed, key, right, ?_⟩
  · rw [Layout.heads, List.getElem?_map, located, same]
    rfl
  · rw [Enclave.levelOver, found]
    simp only [Option.bind_eq_bind, Option.bind_some, intermed, stored]

theorem head_nonzero (repr : Repr e l) {head : Nat} (isHead : l.heads[i]? = some head) :
    head ≠ 0 := by
  have bound : i < l.rows.length := by
    rw [← heads_length]
    exact (List.getElem?_eq_some_iff.mp isHead).1
  have located := List.getElem?_eq_getElem bound
  obtain ⟨first, rest, _, same, isFirst, _⟩ := repr.head_facts located
  obtain rfl : first = head := Option.some.inj (isFirst.symm.trans isHead)
  exact repr.grid.nonzero located (show (first, 0) ∈ l.rows[i] by simp [same])

theorem last_row (repr : Repr e l) : ∃ row, l.rows[l.rows.length - 1]? = some row ∧
    l.heads[l.rows.length - 1]? = some e.sentinel := by
  obtain ⟨row, isLast, first⟩ := repr.grid.top
  have located : l.rows[l.rows.length - 1]? = some row := by
    rw [← List.getLast?_eq_getElem?]
    exact isLast
  refine ⟨row, located, ?_⟩
  rw [Layout.heads, List.getElem?_map, located, ← first]
  rfl

theorem sentinelLevel_returns (repr : Repr e l) : e.sentinelLevel = some l.rows.length := by
  obtain ⟨row, located, isSentinel⟩ := repr.last_row
  obtain ⟨head, _, _, _, isHead, _, _, _, _, level⟩ := repr.head_facts located
  obtain rfl : head = e.sentinel := Option.some.inj (isHead.symm.trans isSentinel)
  exact level

theorem head_down (repr : Repr e l) {head : Nat} (isHead : l.heads[i]? = some head) :
    ∃ inode, e.inode head = some inode ∧
      (i = 0 ∧ inode.down = 0 ∨ ∃ j, i = j + 1 ∧ l.heads[j]? = some inode.down) := by
  have bound : i < l.rows.length := by
    rw [← heads_length]
    exact (List.getElem?_eq_some_iff.mp isHead).1
  have located := List.getElem?_eq_getElem bound
  obtain ⟨head', rest, inode, same, isHead', found, _⟩ := repr.head_facts located
  obtain rfl : head' = head := Option.some.inj (isHead'.symm.trans isHead)
  have inRow : (head', 0) ∈ l.rows[i] := by
    rw [same]
    exact List.mem_cons_self
  refine ⟨inode, found, ?_⟩
  cases i with
  | zero =>
      have down := repr.grid.ground _ (head', 0) located inRow
      rw [downAt_found found] at down
      exact .inl ⟨rfl, Option.some.inj down⟩
  | succ j =>
      have locatedLow := List.getElem?_eq_getElem (show j < l.rows.length by omega)
      obtain ⟨low, restLow, _, sameLow, isLow, _⟩ := repr.head_facts locatedLow
      have inLow : (low, 0) ∈ l.rows[j] := by
        rw [sameLow]
        exact List.mem_cons_self
      have down := repr.grid.towers j _ _ (head', 0) (low, 0) locatedLow located inRow inLow rfl
      rw [downAt_found found] at down
      exact .inr ⟨j, rfl, by rw [isLow, Option.some.inj down]⟩

theorem firstInodes_returns (repr : Repr e l) (level : Nat) :
    ∀ item found, (level = 0 ∧ item = 0 ∨ ∃ j, level = j + 1 ∧ l.heads[j]? = some item) →
      e.firstInodes level item found = some (l.heads.take level ++ found) := by
  induction level with
  | zero =>
      rintro item found (⟨_, rfl⟩ | ⟨j, wrong, _⟩)
      · rw [Enclave.firstInodes, if_pos rfl]
        rfl
      · exact absurd wrong (Nat.succ_ne_zero j).symm
  | succ level ih =>
      rintro item found (⟨wrong, _⟩ | ⟨j, same, isHead⟩)
      · exact absurd wrong (Nat.succ_ne_zero level)
      · obtain rfl : level = j := Nat.succ.inj same
        obtain ⟨inode, stored, down⟩ := repr.head_down isHead
        obtain ⟨bound, value⟩ := List.getElem?_eq_some_iff.mp isHead
        rw [Enclave.firstInodes, stored]
        simp only [Option.bind_eq_bind, Option.bind_some]
        rw [ih inode.down (item :: found) down, List.take_succ_eq_append_getElem bound, value]
        simp

theorem bgRaiseIlevel_refines (honest : platform.Honest) (repr : Repr e l) {low high : Nat}
    (isLow : l.heads[i]? = some low) (isHigh : l.heads[i + 1]? = some high) : ∃ e' l',
      e.bgRaiseIlevel platform low high (i + 1) =
        some (!((abs e l).raiseIlevel i).2.isEmpty, e') ∧
      LevelsOnly e.nodes e'.nodes ∧ Repr e' l' ∧ l'.heads = l.heads ∧
      Keeps l.good l.mnodes e l e' l' ∧
      abs e' l' = ((abs e l).raiseIlevel i).1 := by
  have highBound : i + 1 < l.rows.length := by
    rw [← heads_length]
    exact (List.getElem?_eq_some_iff.mp isHigh).1
  have locatedLow := List.getElem?_eq_getElem (show i < l.rows.length by omega)
  have locatedHigh := List.getElem?_eq_getElem highBound
  obtain ⟨low', rest, inode, same, isLow', found, _, _, right, level⟩ := repr.head_facts locatedLow
  obtain ⟨high', restHigh, _, sameHigh, isHigh', _⟩ := repr.head_facts locatedHigh
  obtain rfl : low' = low := Option.some.inj (isLow'.symm.trans isLow)
  obtain rfl : high' = high := Option.some.inj (isHigh'.symm.trans isHigh)
  have size := repr.grid.row_length_le locatedLow
  rw [same, List.length_cons] at size
  obtain ⟨e', l', loop, levels, repr', heads, keeps, absEq⟩ :=
    raiseIlevelLoop_refines honest (e.inodes.length + 1) e l _ _ [] (low', 0) rest []
      (high', 0) restHigh _ false repr locatedLow same locatedHigh sameHigh (Nat.le_refl _) level
      (by omega)
  have keys : (abs e l).rows.getD i [] = rest.map Prod.snd := by
    rw [Repr.abs_getD locatedLow, same]
    rfl
  refine ⟨e', l', ?_, levels, repr', heads, keeps, ?_⟩
  · rw [Enclave.bgRaiseIlevel, found]
    simp only [Option.bind_eq_bind, Option.bind_some, right, loop, Index.raiseIlevel, keys,
      rows_length, Bool.false_or]
  · rw [absEq, Index.raiseIlevel, Index.unlinkMarked]
    simp only [keys, rows_length, List.length_map]
    rfl

theorem growSentinel_refines (honest : platform.Honest) (repr : Repr e l) : ∃ e' l',
    e.growSentinel platform = some e' ∧ LevelsOnly e.nodes e'.nodes ∧ Repr e' l' ∧
      l'.heads = l.heads ++ [e'.sentinel] ∧ Keeps l.good l.mnodes e l e' l' ∧
      abs e' l' = (abs e l).grow := by
  obtain ⟨freshNonzero, freshNotLive⟩ := honest.places e
  obtain ⟨node, rest, split, stored⟩ := repr.base_stored
  obtain ⟨row, inode, isLast, first, goodSentinel, found, key, intermed⟩ := repr.sentinel
  have notListed : ∀ q ∈ l.mnodes, platform.place e ≠ q.1 := by
    intro q member same
    exact freshNotLive (same ▸ repr.liveMnodes q member)
  have notGood : ¬ l.good (platform.place e) := fun good => freshNotLive (repr.liveInodes _ good)
  have isListed : (l.base, (⟨0, node, l.rows.length, false⟩ : Entry)) ∈ l.mnodes := by simp [split]
  have apart : ∀ address, l.good address → platform.place e ≠ address :=
    fun address good same => notGood (same ▸ good)
  obtain ⟨dataNode, nodeFound, _⟩ := repr.intermed.nodes _ isListed
  let made : Enclave := { e with
    inodes := Store.set e.inodes (platform.place e) ⟨0, e.sentinel, l.base, 0⟩
    mnodes := Store.erase e.mnodes (platform.place e)
    trace := .inodeNew (platform.place e) false :: e.trace }
  let raised : Enclave := { made with sentinel := platform.place e }.setMnode l.base
    ⟨firstOf rest, node, 0, l.rows.length + 1, false⟩
  obtain ⟨nodes, levelled, levelsOnly⟩ :=
    raised.raiseNodeLevel_returns (l.rows.length + 1) nodeFound
  have kept : Store.get made.mnodes l.base = some ⟨firstOf rest, node, 0, l.rows.length, false⟩ :=
    (Store.get_erase_other (notListed _ isListed)).trans stored
  have computed : e.growSentinel platform = some { raised with nodes := nodes } := by
    have allocated : e.inodeNew platform 0 e.sentinel l.base = some (platform.place e, made) := by
      rw [Enclave.inodeNew, stored]
      rfl
    have again : ({ made with sentinel := platform.place e } : Enclave).mnode l.base =
        some ⟨firstOf rest, node, 0, l.rows.length, false⟩ := kept
    have levelSet : ({ made with sentinel := platform.place e } : Enclave).setLevel l.base
        (l.rows.length + 1) = some raised := by
      rw [Enclave.setLevel, again]
      rfl
    rw [Enclave.growSentinel, found]
    simp only [Option.bind_eq_bind, Option.bind_some, intermed, allocated, again, levelSet, levelled]
  let list : List (Nat × Entry) := (l.base, ⟨0, node, l.rows.length + 1, false⟩) :: rest
  have isOver : ∀ mnode key level, 1 ≤ level → Over l.mnodes mnode key level →
      Over list mnode key level := by
    rintro mnode key level _ ⟨entry, member, sameKey, enough⟩
    rw [split] at member
    rcases List.mem_cons.mp member with same | inRest
    · obtain ⟨rfl, rfl⟩ := Prod.mk.inj same
      exact ⟨_, List.mem_cons_self, sameKey, Nat.le_succ_of_le enough⟩
    · exact ⟨entry, List.mem_cons_of_mem _ inRest, sameKey, enough⟩
  have overBase : Over list l.base 0 (l.rows.length + 1) :=
    ⟨_, List.mem_cons_self, rfl, Nat.le_refl _⟩
  have sentinelRank : l.rank e.sentinel = l.lowest + (l.rows.length - 1) := by
    obtain ⟨row, located, isSentinel⟩ := repr.last_row
    obtain ⟨head, rest, _, same, isHead, _⟩ := repr.head_facts located
    have isFirst : head = e.sentinel := Option.some.inj (isHead.symm.trans isSentinel)
    rw [← isFirst]
    exact (repr.grid.cells _ row (head, 0) located (by simp [same])).2.1
  have rank : Function.update l.rank (platform.place e) (l.lowest + l.rows.length) e.sentinel =
      l.rank e.sentinel := Function.update_of_ne (Ne.symm (apart _ goodSentinel)) _ _
  have grid : Grid made.inodes (platform.place e) { l with
      mnodes := list
      rows := l.rows ++ [[(platform.place e, 0)]]
      good := fun address => l.good address ∨ address = platform.place e
      rank := Function.update l.rank (platform.place e) (l.lowest + l.rows.length) } := by
    have framed : Grid made.inodes e.sentinel { l with mnodes := list } :=
      (repr.grid.congr fun address good => Store.get_set_other _ (apart address good)).mono isOver
    have added := framed.addFresh (l.lowest + l.rows.length) notGood (Store.get_set_same _ _ _)
      ⟨overBase.lower (Nat.le_add_left 1 _), fun present => absurd rfl present, ?_⟩
    · exact added.push (Store.get_set_same _ _ _) freshNonzero (.inr rfl) (by simp) overBase
    · intro _
      refine ⟨.inl goodSentinel, ?_, inode, ?_, key⟩
      · have enough := repr.grid.nonempty
        dsimp only
        rw [rank, sentinelRank, Function.update_self]
        omega
      · exact (Store.get_set_other _ (apart _ goodSentinel)).trans found
  have behind : l.mnodes = [] ++ (l.base, ⟨0, node, l.rows.length, false⟩) :: rest := split
  let last : Enclave := { raised with nodes := nodes }
  obtain ⟨liveMnodes, liveInodes, noInode, strays⟩ :=
    repr.fresh_inode ⟨0, node, l.rows.length + 1, false⟩ behind notListed
      (show last.trace = _ from rfl) rfl fun address notFresh _ => Store.get_set_other _ notFresh
  refine ⟨_, { l with
    mnodes := list
    rows := l.rows ++ [[(platform.place e, 0)]]
    good := fun address => l.good address ∨ address = platform.place e
    rank := Function.update l.rank (platform.place e) (l.lowest + l.rows.length) },
    computed, levelsOnly, ⟨?_, grid, liveMnodes, liveInodes, noInode, strays⟩, ?_, ⟨rfl, ?_, ?_, ?_⟩, ?_⟩
  · have framed : Intermed made.mnodes e.nodes l.base l.rows.length l.mnodes :=
      repr.intermed.congr (fun q member => Store.get_erase_other (notListed q member))
        fun address node found => ⟨node, found, rfl⟩
    have rewritten : Intermed raised.mnodes e.nodes l.base (l.rows.length + 1) list := by
      let entry : Entry := ⟨0, node, l.rows.length + 1, false⟩
      have sameKey : entry.key = 0 := rfl
      have sameNode : entry.node = node := rfl
      exact framed.rewrite behind sameKey sameNode ⟨node, rest, rfl⟩
    have renamed := rewritten.congr (fun _ _ => rfl) levelsOnly.keys
    have grown : (l.rows ++ [[(platform.place e, 0)]]).length = l.rows.length + 1 := by simp
    rw [← grown] at renamed
    exact renamed
  · rw [Layout.heads, List.map_append]
    rfl
  · exact fun address good =>
      ⟨.inl good, Function.update_of_ne (Ne.symm (apart address good)) _ _⟩
  · exact fun address inode good stored =>
      ⟨inode, (Store.get_set_other _ (apart address good)).trans stored, rfl⟩
  · exact Keeps.mem_rewritten [] behind rfl rfl
  · rw [abs, Index.grow, abs, split, List.map_append]
    rfl

theorem raiseRows_refines (honest : platform.Honest) (count : Nat) :
    ∀ fuel e l i raised, Repr e l → i + count + 1 = l.rows.length → count < fuel →
      ∃ e' l', e.raiseRows platform l.heads fuel i raised =
          some ((Index.raiseRows count i (abs e l) raised).2, e') ∧
        LevelsOnly e.nodes e'.nodes ∧ Repr e' l' ∧ l'.heads = l.heads ∧
        Keeps l.good l.mnodes e l e' l' ∧
        abs e' l' = (Index.raiseRows count i (abs e l) raised).1 := by
  induction count with
  | zero =>
      intro fuel e l i raised repr size bound
      obtain ⟨fuel, rfl⟩ := Nat.exists_eq_succ_of_ne_zero (Nat.ne_of_gt bound)
      refine ⟨e, l, ?_, LevelsOnly.refl _, repr, rfl, .refl e l, rfl⟩
      rw [Enclave.raiseRows, repr.sentinelLevel_returns]
      simp only [Option.bind_eq_bind, Option.bind_some]
      rw [if_neg (by omega)]
      rfl
  | succ count ih =>
      intro fuel e l i raised repr size bound
      obtain ⟨fuel, rfl⟩ := Nat.exists_eq_succ_of_ne_zero (Nat.ne_of_gt (Nat.zero_lt_of_lt bound))
      have lowHead := List.getElem?_eq_getElem (show i < l.heads.length by rw [heads_length]; omega)
      have highHead :=
        List.getElem?_eq_getElem (show i + 1 < l.heads.length by rw [heads_length]; omega)
      obtain ⟨middle, l₁, raisedRow, levels, repr₁, heads₁, keeps₁, abs₁⟩ :=
        repr.bgRaiseIlevel_refines honest lowHead highHead
      have sameLength : l₁.rows.length = l.rows.length := by
        rw [← heads_length, heads₁, heads_length]
      obtain ⟨e', l', loop, levels', final, heads', keeps', absFinal⟩ :=
        ih fuel middle l₁ (i + 1) (!((abs e l).raiseIlevel i).2.isEmpty) repr₁ (by omega) (by omega)
      rw [abs₁] at loop absFinal
      refine ⟨e', l', ?_, levels.trans levels', final, heads'.trans heads₁, keeps₁.onward keeps',
        absFinal⟩
      rw [Enclave.raiseRows, repr.sentinelLevel_returns]
      simp only [Option.bind_eq_bind, Option.bind_some]
      rw [if_pos (by omega), lowHead, highHead]
      simp only [Option.bind_some, raisedRow]
      rw [← heads₁]
      exact loop

theorem rows_le (repr : Repr e l) : l.rows.length ≤ e.inodes.length := by
  have distinct : l.heads.Nodup := by
    rw [List.nodup_iff_injective_getElem]
    intro i j same
    have iBound : i.val < l.rows.length := by rw [← heads_length]; exact i.isLt
    have jBound : j.val < l.rows.length := by rw [← heads_length]; exact j.isLt
    obtain ⟨low, _, _, sameLow, isLow, _⟩ := repr.head_facts (List.getElem?_eq_getElem iBound)
    obtain ⟨high, _, _, sameHigh, isHigh, _⟩ := repr.head_facts (List.getElem?_eq_getElem jBound)
    rw [List.getElem?_eq_getElem i.isLt] at isLow
    rw [List.getElem?_eq_getElem j.isLt] at isHigh
    have equal : low = high :=
      (Option.some.inj isLow).symm.trans (same.trans (Option.some.inj isHigh))
    exact Fin.ext (repr.grid.row_unique (List.getElem?_eq_getElem iBound)
      (List.getElem?_eq_getElem jBound) (by rw [sameLow]; exact List.mem_cons_self)
      (by rw [sameHigh]; exact List.mem_cons_self) (show (low, 0).1 = (high, 0).1 from equal))
  have inside : l.heads ⊆ e.inodes.map Prod.fst := by
    intro head member
    obtain ⟨i, isHead⟩ := List.getElem?_of_mem member
    obtain ⟨inode, found, _⟩ := repr.head_down isHead
    exact Store.mem_of_get found
  have bound := (distinct.subperm inside).length_le
  rwa [heads_length, List.length_map] at bound

theorem growFirst_refines (honest : platform.Honest) (repr : Repr e l) (wanted : Prop)
    [Decidable wanted] : ∃ e' l',
      (if wanted then do
          let e ← e.growSentinel platform
          some (l.heads ++ [e.sentinel], e)
        else some (l.heads, e)) = some (l'.heads, e') ∧
      LevelsOnly e.nodes e'.nodes ∧ Repr e' l' ∧ Keeps l.good l.mnodes e l e' l' ∧
      abs e' l' = if wanted then (abs e l).grow else abs e l := by
  by_cases grows : wanted
  · obtain ⟨e', l', grown, levels, repr', heads, keeps, absEq⟩ := repr.growSentinel_refines honest
    refine ⟨e', l', ?_, levels, repr', keeps, ?_⟩
    · rw [if_pos grows, grown, heads]
      rfl
    · rw [if_pos grows, absEq]
  · refine ⟨e, l, ?_, LevelsOnly.refl _, repr, .refl e l, ?_⟩
    · rw [if_neg grows]
    · rw [if_neg grows]

theorem growLast_refines (honest : platform.Honest) (repr : Repr e l) (raised : Bool) : ∃ e' l',
    (if raised then e.growSentinel platform else some e) = some e' ∧
      LevelsOnly e.nodes e'.nodes ∧ Repr e' l' ∧ Keeps l.good l.mnodes e l e' l' ∧
      (l'.heads = l.heads ∨ raised = true ∧ l'.heads = l.heads ++ [e'.sentinel]) ∧
      abs e' l' = if raised then (abs e l).grow else abs e l := by
  cases raised with
  | true =>
      obtain ⟨e', l', grown, levels, repr', heads, keeps, absEq⟩ := repr.growSentinel_refines honest
      exact ⟨e', l', grown, levels, repr', keeps, .inr ⟨rfl, heads⟩, absEq⟩
  | false => exact ⟨e, l, rfl, LevelsOnly.refl _, repr, .refl e l, .inl rfl, rfl⟩

end Repr

namespace Index

def bottomKeys (int : Int → Int) (index : Index) : List Nat :=
  raisedM (index.trav int).rows.length (index.trav int).entries

def bottomRaised (int : Int → Int) (index : Index) : Index :=
  let raised := (index.trav int).raise 0 (index.bottomKeys int)
  if (!(index.bottomKeys int).isEmpty) = true ∧ raised.rows.length = 1 then raised.grow else raised

def rowsRaised (int : Int → Int) (index : Index) : Index × Bool :=
  Index.raiseRows ((index.bottomRaised int).rows.length - 1) 0 (index.bottomRaised int)
    (!(index.bottomKeys int).isEmpty)

theorem raiseIndexLayer_eq (int : Int → Int) (index : Index) : index.raiseIndexLayer int =
    if (index.rowsRaised int).2 then (index.rowsRaised int).1.grow else (index.rowsRaised int).1 := rfl

theorem counts_links (int : Int → Int) (entries : List Entry) : ∀ index : Index,
    (entries.foldl (Index.count int) index).rows = index.rows ∧
      (entries.foldl (Index.count int) index).unlinks = index.unlinks := by
  induction entries with
  | nil => exact fun index => ⟨rfl, rfl⟩
  | cons entry rest ih =>
      intro index
      obtain ⟨rows, unlinks⟩ := ih (index.count int entry)
      rw [List.foldl_cons, rows, unlinks, Index.count]
      split
      · exact ⟨rfl, rfl⟩
      · split <;> exact ⟨rfl, rfl⟩

theorem trav_rows (int : Int → Int) (index : Index) : (index.trav int).rows = index.rows :=
  (counts_links int _ index).1

theorem bottomRaised_nonempty (int : Int → Int) {index : Index} (nonempty : 0 < index.rows.length) :
    0 < (index.bottomRaised int).rows.length := by
  have rows := trav_rows int index
  rw [bottomRaised]
  split <;> simp [Index.grow, Index.raise, rows, nonempty]

end Index

namespace Enclave

/-- `update_index_layer` up to its loop over the rows: the first inodes, whether anything was raised
into the lowest row, and the state. -/
def beginRows (platform : Platform) (e : Enclave) : Option (List Nat × Bool × Enclave) := do
  let e ← bgTravMnodes platform e
  let level ← e.sentinelLevel
  let inodes ← firstInodes e level e.sentinel []
  let lowest ← inodes.head?
  let bottom ← e.inode lowest
  let (raised, e) ← bgRaiseMlevel platform e bottom.intermed lowest
  let level ← e.sentinelLevel
  if raised ∧ level = 1 then do
    let e ← growSentinel platform e
    some (inodes ++ [e.sentinel], raised, e)
  else some (inodes, raised, e)

theorem beginRows_returns {platform : Platform} {e e₁ e₂ e₃ : Enclave} {level count lowest : Nat}
    {inodes heads : List Nat} {bottom : Inode} {raised : Bool}
    (traversed : e.bgTravMnodes platform = some e₁) (level₁ : e₁.sentinelLevel = some level)
    (collected : e₁.firstInodes level e₁.sentinel [] = some inodes)
    (first : inodes.head? = some lowest) (found : e₁.inode lowest = some bottom)
    (raises : e₁.bgRaiseMlevel platform bottom.intermed lowest = some (raised, e₂))
    (level₂ : e₂.sentinelLevel = some count)
    (grown : (if raised = true ∧ count = 1 then do
        let e ← e₂.growSentinel platform
        some (inodes ++ [e.sentinel], e)
      else some (inodes, e₂)) = some (heads, e₃)) :
    e.beginRows platform = some (heads, raised, e₃) := by
  rw [beginRows, traversed]
  simp only [Option.bind_eq_bind, Option.bind_some, level₁, collected, first, found, raises, level₂]
  by_cases grows : raised = true ∧ count = 1
  · rw [if_pos grows] at grown ⊢
    obtain ⟨made, isMade, same⟩ := Option.bind_eq_some_iff.mp grown
    obtain ⟨sameHeads, rfl⟩ := Prod.mk.inj (Option.some.inj same)
    rw [isMade, Option.bind_some, sameHeads]
  · rw [if_neg grows] at grown ⊢
    obtain ⟨sameHeads, rfl⟩ := Prod.mk.inj (Option.some.inj grown)
    rw [sameHeads]

theorem raiseIndexLayer_begins (platform : Platform) (e : Enclave) :
    e.raiseIndexLayer platform = (do
      let (inodes, raised, e) ← e.beginRows platform
      let (raised, e) ← raiseRows platform inodes (e.inodes.length + 1) e 0 raised
      let e ← if raised then growSentinel platform e else some e
      some (inodes, e)) := by
  rw [raiseIndexLayer, beginRows]
  simp only [Option.bind_eq_bind, Option.bind_assoc]
  refine congrArg _ (funext fun e => congrArg _ (funext fun level => congrArg _ (funext fun inodes =>
    congrArg _ (funext fun lowest => congrArg _ (funext fun bottom => congrArg _ (funext fun result =>
      congrArg _ (funext fun level => ?_)))))))
  split
  · simp only [Option.bind_assoc, Option.bind_some]
  · rfl

end Enclave

namespace Repr

variable {e : Enclave} {l : Layout} {platform : Platform}

theorem beginRows_refines (honest : platform.Honest) (repr : Repr e l) : ∃ e' l',
    e.beginRows platform =
        some (l'.heads, !((abs e l).bottomKeys platform.int).isEmpty, e') ∧
      LevelsOnly e.nodes e'.nodes ∧ Repr e' l' ∧
      Keeps l.good (l.mnodes.filter (·.2.stays)) e l e' l' ∧
      abs e' l' = (abs e l).bottomRaised platform.int := by
  obtain ⟨e₁, mnodes, traversed, nodes₁, repr₁, keeps₁, abs₁⟩ := repr.bgTravMnodes_refines honest
  obtain ⟨row, _, isSentinel⟩ := repr₁.last_row
  have nonempty : 0 < l.rows.length := repr.grid.nonempty
  have collected : e₁.firstInodes l.rows.length e₁.sentinel [] = some l.heads := by
    rw [repr₁.firstInodes_returns l.rows.length e₁.sentinel []
      (.inr ⟨l.rows.length - 1, by omega, isSentinel⟩)]
    rw [List.append_nil, ← heads_length]
    exact congrArg some (List.take_length)
  have bottomHead := List.getElem?_eq_getElem (show 0 < l.rows.length from nonempty)
  obtain ⟨bottom, _, inode, _, isBottom, bottomFound, isBase, _⟩ := repr₁.head_facts bottomHead
  have isFirst : l.heads.head? = some bottom := by
    rw [List.head?_eq_getElem?]
    exact isBottom
  obtain ⟨e₂, l₂, raisedM₂, levels₂, repr₂, heads₂, keeps₂, abs₂⟩ :=
    repr₁.bgRaiseMlevel_refines honest isFirst
  have keysAre : raisedM l.rows.length (abs e₁ { l with mnodes := mnodes }).entries =
      (abs e l).bottomKeys platform.int := by
    rw [abs₁, Index.bottomKeys, Index.trav_rows, rows_length]
  generalize isKeys : (abs e l).bottomKeys platform.int = keys at keysAre ⊢
  obtain ⟨e₃, l₃, grown, levels₃, repr₃, keeps₃, abs₃⟩ :=
    repr₂.growFirst_refines honest ((!keys.isEmpty) = true ∧ l₂.rows.length = 1)
  rw [keysAre] at raisedM₂ abs₂
  rw [heads₂, show Layout.heads { l with mnodes := mnodes } = l.heads from rfl] at grown
  refine ⟨e₃, l₃, ?_, ?_, repr₃, (keeps₁.onward keeps₂).onward keeps₃, ?_⟩
  · rw [← isBase] at raisedM₂
    exact Enclave.beginRows_returns traversed repr₁.sentinelLevel_returns collected isFirst bottomFound
      raisedM₂ repr₂.sentinelLevel_returns grown
  · rw [← nodes₁]
    exact levels₂.trans levels₃
  · have lengths : l₂.rows.length = (abs e₂ l₂).rows.length := (rows_length e₂ l₂).symm
    rw [abs₃, lengths, abs₂, abs₁, Index.bottomRaised, isKeys]

/-- Everything `update_index_layer` does before its test for lowering. -/
theorem raiseIndexLayer_refines (honest : platform.Honest) (repr : Repr e l) : ∃ e' l' inodes,
    e.raiseIndexLayer platform = some (inodes, e') ∧ LevelsOnly e.nodes e'.nodes ∧ Repr e' l' ∧
      Keeps l.good (l.mnodes.filter (·.2.stays)) e l e' l' ∧ (∀ i, i < 2 → inodes[i]? = l'.heads[i]?) ∧
      abs e' l' = (abs e l).raiseIndexLayer platform.int := by
  obtain ⟨e₃, l₃, begins, levels₃, repr₃, keeps₃, abs₃⟩ := repr.beginRows_refines honest
  generalize isKeys : (abs e l).bottomKeys platform.int = keys at begins
  have rows₃ := rows_length e₃ l₃
  have bound := repr₃.rows_le
  have nonempty₃ := repr₃.grid.nonempty
  obtain ⟨e₄, l₄, raisedRows, levels₄, repr₄, heads₄, keeps₄, abs₄⟩ :=
    raiseRows_refines honest (l₃.rows.length - 1) (e₃.inodes.length + 1) e₃ l₃ 0 (!keys.isEmpty) repr₃
      (by omega) (by omega)
  have looped : Index.raiseRows (l₃.rows.length - 1) 0 (abs e₃ l₃) (!keys.isEmpty) =
      (abs e l).rowsRaised platform.int := by
    rw [Index.rowsRaised, isKeys, ← abs₃, rows₃]
  rw [looped] at raisedRows abs₄
  obtain ⟨e₅, l₅, grownLast, levels₅, repr₅, keeps₅, heads₅, abs₅⟩ :=
    repr₄.growLast_refines honest ((abs e l).rowsRaised platform.int).2
  refine ⟨e₅, l₅, l₃.heads, ?_, (levels₃.trans levels₄).trans levels₅, repr₅,
    (keeps₃.onward keeps₄).onward keeps₅, ?_, ?_⟩
  · rw [Enclave.raiseIndexLayer_begins, begins]
    simp only [Option.bind_eq_bind, Option.bind_some, raisedRows]
    split at grownLast
    · rw [if_pos (by assumption), grownLast]
      rfl
    · rw [if_neg (by assumption), Option.some.inj grownLast]
  · intro i small
    rcases heads₅ with same | ⟨grows, same⟩
    · rw [same, heads₄]
    · have wide : 2 ≤ l₃.heads.length := by
        rw [heads_length]
        by_contra narrow
        have single : l₃.rows.length = 1 := by omega
        -- with one row the loop does not run, so the lowest row got a key and a row was added
        rw [← looped, single] at grows
        have grown := congrArg (fun index => index.rows.length) abs₃
        simp only [rows₃, single, Index.bottomRaised, isKeys] at grown
        have notGrown : ¬ ((!keys.isEmpty) = true ∧
            (((abs e l).trav platform.int).raise 0 keys).rows.length = 1) := by
          intro both
          rw [if_pos both] at grown
          simp [Index.grow, both.2] at grown
        rw [if_neg notGrown] at grown
        exact notGrown ⟨grows, grown.symm⟩
      rw [same, heads₄, List.getElem?_append_left (by omega)]
  · rw [abs₅, abs₄, Index.raiseIndexLayer_eq]

end Repr

end Hosk
