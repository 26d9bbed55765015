import Hosk.NumaPlatform

/-!
The rows of an index read from its memory, and two conditions on them that are looked at when
`bg_lower_ilevel` is about to begin.
-/

namespace Hosk

def chainFrom (next : Nat → Option Nat) : Nat → Nat → List Nat
  | 0, _ => []
  | fuel + 1, address =>
      if address = 0 then [] else address :: ((next address).map (chainFrom next fuel)).getD []

theorem chainFrom_eq {next : Nat → Option Nat} {addresses : List Nat} : ∀ {fuel start : Nat},
    Chain next start addresses → addresses.length ≤ fuel → chainFrom next fuel start = addresses := by
  induction addresses with
  | nil =>
      intro fuel start chain _
      obtain rfl : start = 0 := chain
      cases fuel <;> rfl
  | cons head rest ih =>
      intro fuel start chain bound
      obtain ⟨fuel, rfl⟩ := Nat.exists_eq_succ_of_ne_zero (Nat.ne_of_gt (Nat.zero_lt_of_lt bound))
      obtain ⟨rfl, nonzero, successor, found, later⟩ := chain
      rw [chainFrom, if_neg nonzero, found, Option.map_some, Option.getD_some,
        ih later (by simpa using bound)]

namespace Enclave

def linkedRows (e : Enclave) : List (List Nat) :=
  (chainFrom (downAt e.inodes) e.inodes.length e.sentinel).reverse.map
    (chainFrom (rightAt e.inodes) e.inodes.length)

theorem linkedRows_of (e : Enclave) {rows : List (List (Nat × Nat))}
    (column : Chain (downAt e.inodes) e.sentinel (rows.map firstOf).reverse)
    (chains : ∀ row ∈ rows, Chain (rightAt e.inodes) (firstOf row) (row.map Prod.fst)) :
    e.linkedRows = rows.map (List.map Prod.fst) := by
  have height := chain_length_le e.inodes Inode.down column
  rw [linkedRows, chainFrom_eq column height, List.reverse_reverse, List.map_map]
  apply List.map_congr_left
  intro row member
  have chain := chains row member
  exact chainFrom_eq chain (chain_length_le e.inodes Inode.right chain)

/-- Above the second-lowest row each inode leads down to one that is linked in the row below. -/
def TowersStand (e : Enclave) : Prop :=
  e.linkedRows.tail.IsChain fun low high =>
    ∀ address ∈ high, ∃ below ∈ low, downAt e.inodes address = some below

instance (e : Enclave) : Decidable e.TowersStand :=
  inferInstanceAs (Decidable (List.IsChain _ _))

/-- Once the down pointers of the second-lowest row are NULL, no inode of the lowest row has the
contents of the block handed out last, unless it is that block. -/
def Spares (e : Enclave) : Prop :=
  let old := (bump e.trace).2
  ∀ low ∈ e.linkedRows[0]?, ∀ second ∈ e.linkedRows[1]?, ∀ address ∈ low, address ≠ old →
    e.inode address ≠ (e.inode old).map fun inode =>
      if old ∈ second then { inode with down := 0 } else inode

instance (e : Enclave) : Decidable e.Spares := inferInstanceAs (Decidable (∀ _ ∈ _, _))

def beforeLowering (platform : Platform) (e : Enclave) : Option Enclave := do
  let (inodes, middle) ← e.raiseIndexLayer platform
  let _ ← lowers platform inodes middle
  some middle

end Enclave

namespace Repr

variable {e : Enclave} {l : Layout} {platform : Platform}

theorem column_chain (repr : Repr e l) (level : Nat) : ∀ item,
    (level = 0 ∧ item = 0 ∨ ∃ j, level = j + 1 ∧ l.heads[j]? = some item) →
      Chain (downAt e.inodes) item (l.heads.take level).reverse := by
  induction level with
  | zero =>
      rintro item (⟨_, rfl⟩ | ⟨j, wrong, _⟩)
      · rw [List.take_zero]
        rfl
      · exact absurd wrong (Nat.succ_ne_zero j).symm
  | succ level ih =>
      rintro item (⟨wrong, _⟩ | ⟨j, same, isHead⟩)
      · exact absurd wrong (Nat.succ_ne_zero level)
      · obtain rfl : level = j := Nat.succ.inj same
        obtain ⟨inode, stored, down⟩ := repr.head_down isHead
        obtain ⟨bound, value⟩ := List.getElem?_eq_some_iff.mp isHead
        rw [List.take_succ_eq_append_getElem bound, List.reverse_append, value]
        exact ⟨rfl, repr.head_nonzero isHead, inode.down, downAt_found stored, ih inode.down down⟩

theorem column (repr : Repr e l) : Chain (downAt e.inodes) e.sentinel l.heads.reverse := by
  obtain ⟨_, _, isSentinel⟩ := repr.last_row
  have nonempty := repr.grid.nonempty
  have chain := repr.column_chain l.rows.length e.sentinel
    (.inr ⟨l.rows.length - 1, by omega, isSentinel⟩)
  rwa [← heads_length, List.take_length] at chain

theorem linkedRows_eq (repr : Repr e l) : e.linkedRows = l.rows.map (List.map Prod.fst) := by
  refine e.linkedRows_of repr.column fun row member => ?_
  obtain ⟨i, located⟩ := List.getElem?_of_mem member
  exact repr.grid.chains i row located

theorem open_linked (repr : Repr e l) {newLow : Nat} (isHead : l.heads[1]? = some newLow)
    (stand : e.TowersStand) {address : Nat}
    (path : Relation.ReflTransGen (e.OpenStep newLow) e.sentinel address) :
    ∃ (i : Nat) (row : List (Nat × Nat)), l.rows[i + 1]? = some row ∧ address ∈ row.map Prod.fst := by
  have wide := wide_of_second isHead
  induction path with
  | refl =>
      obtain ⟨row, located, isSentinel⟩ := repr.last_row
      obtain ⟨head, rest, rfl⟩ := repr.grid.heads row (List.mem_of_getElem? located)
      obtain ⟨i, top⟩ : ∃ i, l.rows.length - 1 = i + 1 := ⟨l.rows.length - 2, by omega⟩
      rw [top] at located isSentinel
      exact ⟨i, _, located, List.mem_map.mpr
        ⟨(head, 0), List.mem_cons_self, Repr.start_of_head located isSentinel⟩⟩
  | @tail source target _ step ih =>
      obtain ⟨i, row, located, inRow⟩ := ih
      obtain ⟨nonzero, right | ⟨down, notSecond⟩⟩ := step
      · have upper : l.heads[i + 1]? = some (firstOf row) := by
          rw [Layout.heads, List.getElem?_map, located]
          rfl
        have follows := (repr.follows_second located upper).mpr inRow
        exact ⟨i, row, located,
          (repr.follows_second located upper).mp (follows.tail ⟨nonzero, right⟩)⟩
      · cases i with
        | zero => exact absurd ((repr.follows_second located isHead).mpr inRow) notSecond
        | succ i =>
            have bound := (List.getElem?_eq_some_iff.mp located).1
            have belowLocated := List.getElem?_eq_getElem (show i + 1 < l.rows.length by omega)
            rw [Enclave.TowersStand, repr.linkedRows_eq, ← List.map_tail, List.isChain_iff_getElem]
              at stand
            have stands := stand i (by simp; omega)
            simp only [List.getElem_map, List.getElem_tail] at stands
            rw [(List.getElem?_eq_some_iff.mp located).2] at stands
            obtain ⟨below, inBelow, isBelow⟩ := stands source inRow
            obtain rfl := Option.some.inj (down.symm.trans isBelow)
            exact ⟨i, _, belowLocated, inBelow⟩

/-- A row that only standing towers rise over is dropped cleanly. -/
theorem dropsCleanly_of_stand (repr : Repr e l) {newLow : Nat} (isHead : l.heads[1]? = some newLow)
    (stand : e.TowersStand) : e.DropsCleanly newLow := by
  have wide := wide_of_second isHead
  have isLow := List.getElem?_eq_getElem (show 0 < l.rows.length by omega)
  intro oldLow address down follows path
  obtain ⟨i, row, located, inRow⟩ := repr.open_linked isHead stand path
  obtain ⟨inode, found, bottom | ⟨j, same, isDown⟩⟩ := repr.head_down isHead
  · exact absurd bottom.1 Nat.one_ne_zero
  obtain rfl : j = 0 := (Nat.succ.inj same).symm
  rw [downAt_found found] at down
  obtain rfl := Option.some.inj down
  obtain ⟨q, inLow, same⟩ := List.mem_map.mp ((repr.follows_second isLow isDown).mp follows)
  obtain ⟨p, inCells, isAddress⟩ := List.mem_map.mp inRow
  exact absurd (repr.grid.row_unique isLow located inLow inCells (same.trans isAddress.symm))
    (Nat.succ_ne_zero i).symm

theorem cleanPass_of_stand (honest : platform.Honest) (repr : Repr e l)
    (stand : ∀ middle ∈ e.beforeLowering platform, middle.TowersStand) : e.CleanPass platform := by
  intro inodes middle newLow raised drops
  obtain ⟨middle', l', inodes', raised', _, repr', _, heads, _⟩ := repr.raiseIndexLayer_refines honest
  obtain ⟨rfl, rfl⟩ := Prod.mk.inj (Option.some.inj (raised'.symm.trans raised))
  have isBefore : middle' ∈ e.beforeLowering platform := by
    simp [Enclave.beforeLowering, raised, drops]
  rcases lowers_eq platform middle' l' heads with ⟨stays, _⟩ | ⟨newLow', drops', isHead, _⟩
  · exact absurd (stays.symm.trans drops) (Option.some_ne_none newLow).symm
  · obtain rfl := Option.some.inj (drops'.symm.trans drops)
    exact repr'.dropsCleanly_of_stand isHead (stand middle' isBefore)

theorem calls_clean (honest : platform.Honest) {allowed : Enclave → Prop}
    (clean : ∀ e l, Repr e l → allowed e → e.CleanPass platform) (calls : List Call) : ∀ e l, Repr e l →
    JobsOk e.nodes (jobsOf calls) →
    Runs.Along (Enclave.turn platform) (fun state call => call = .pass → ∀ e ∈ state, allowed e)
      (some e) calls →
    Runs.Along (Enclave.turn platform)
      (fun state call => ∀ e, state = some e → call = .pass → e.CleanPass platform) (some e) calls := by
  induction calls with
  | nil => exact fun _ _ _ _ _ => trivial
  | cons call rest ih =>
      rintro e l repr jobs ⟨now, later⟩
      have cleanNow : call = .pass → e.CleanPass platform := fun isPass => clean e l repr (now isPass e rfl)
      obtain ⟨middle, l₁, called, levels, repr₁, _⟩ :=
        repr.call_refines honest call jobs.first cleanNow
      have turned : Enclave.turn platform (some e) call = some middle := called
      refine ⟨fun before same => Option.some.inj same ▸ cleanNow, ?_⟩
      rw [turned] at later ⊢
      exact ih middle l₁ repr₁ (jobs.later levels) later

end Repr

namespace Setting

variable {setting : Setting}

def Stands (setting : Setting) (calls : List Call) : Prop :=
  Runs.Along (Enclave.turn setting.platform)
    (fun state call => call = .pass → ∀ e ∈ state,
      ∀ middle ∈ e.beforeLowering setting.platform, middle.TowersStand) setting.start calls

instance (calls : List Call) : Decidable (setting.Stands calls) := Runs.decidableAlong _ _ _ _

theorem Stands.cleanly {calls : List Call} (stands : setting.Stands calls)
    (jobs : JobsOk setting.nodes (jobsOf calls)) : setting.Cleanly calls := by
  obtain ⟨first, l, begins, nodes, repr, _⟩ := setting.starts
  rw [Setting.Stands, begins] at stands
  rw [Setting.Cleanly, begins]
  exact Repr.calls_clean setting.honest
    (fun e l repr stand => repr.cleanPass_of_stand setting.honest stand) calls first l repr
    (nodes ▸ jobs) stands

end Setting

/-- Passes lower the index twice: once keys 1 to 8 are deleted, and once keys 21 to 27 have come. -/
def twiceLowered : List Call :=
  (List.range' 1 7).map insertJob ++ [.pass, insertJob 8] ++ (List.range' 1 8).map deleteJob ++
    List.replicate 48 .pass ++ (List.range' 21 7).map insertJob ++ [.pass]

def twiceLoweredKeys : List Nat := List.range' 1 8 ++ List.range' 21 7

theorem twiceLowered_ok : JobsOk (numaSetting twiceLoweredKeys).nodes (jobsOf twiceLowered) ∧
    (numaSetting twiceLoweredKeys).Cleanly twiceLowered := by
  have jobs : JobsOk (numaSetting twiceLoweredKeys).nodes (jobsOf twiceLowered) :=
    ⟨by decide, by decide, by decide⟩
  have stands : (numaSetting twiceLoweredKeys).Stands twiceLowered := by decide +kernel
  exact ⟨jobs, stands.cleanly jobs⟩

end Hosk
