import Hosk.Ends
import Hosk.IndexLayer

/-!
What comes of `nfree` comparing contents. As long as no lowering begins with an inode of the lowest row
that has the contents of the block handed out last, a helper does what it would do if `nfree` compared
addresses, as its comment says ("only free if last allocation").
-/

namespace Hosk

/-- Blocks are handed out one behind the other, and a delete zeroes the last of them and no other. -/
def Tidy : List Event → Prop
  | [] => True
  | .inodeNew address _ :: older => address = (bump older).1 ∧ Tidy older
  | .mnodeNew address :: older => address = (bump older).1 ∧ Tidy older
  | .inodeDelete address zeroed :: older => address ∈ live older ∧
      zeroed = (if address = (bump older).2 then some address else none) ∧ Tidy older
  | .mnodeDelete address zeroed :: older => address ∈ live older ∧
      zeroed = (if address = (bump older).2 then some address else none) ∧ Tidy older
  | .unlink _ :: older => Tidy older
  | .lower :: older => Tidy older

/-- Where the next block comes from: behind all live ones, or the last one again. -/
structure Bumped (trace : List Event) : Prop where
  below : ∀ address ∈ live trace, 0 < address ∧ address ≤ (bump trace).2
  next : (bump trace).1 = (bump trace).2 + 1 ∨
    (bump trace).1 = (bump trace).2 ∧ 0 < (bump trace).2 ∧ (bump trace).2 ∉ live trace
  last : (bump trace).2 ∈ live trace ∨ (bump trace).2 ∈ cleared trace ∨ live trace = []

theorem Bumped.allocated {older : List Event} (bumped : Bumped older) :
    0 < (bump older).1 ∧ ∀ address ∈ live older, address < (bump older).1 := by
  obtain ⟨below, next, _⟩ := bumped
  constructor
  · omega
  · intro address alive
    obtain ⟨_, most⟩ := below address alive
    rcases next with behind | ⟨again, _, gone⟩
    · omega
    · refine Nat.lt_of_le_of_ne (again ▸ most) fun same => gone ?_
      rw [← again, ← same]
      exact alive

theorem Bumped.deleted {older trace : List Event} {address : Nat} {zeroed : Option Nat}
    (bumped : Bumped older) (alive : address ∈ live older)
    (rightly : zeroed = if address = (bump older).2 then some address else none)
    (bumps : bump trace = zeroed.elim (bump older) fun block => (block, block))
    (lives : live trace = (live older).filter (· ≠ address))
    (clears : cleared trace = if zeroed = some address then address :: cleared older
      else (cleared older).filter (· ≠ address)) : Bumped trace := by
  obtain ⟨below, next, last⟩ := bumped
  have positive := (below address alive).1
  by_cases isLast : address = (bump older).2
  · rw [if_pos isLast] at rightly
    subst rightly
    rw [if_pos rfl] at clears
    refine ⟨?_, .inr ?_, .inr (.inl ?_)⟩
    · rw [lives, bumps]
      intro other member
      have stays := below other (List.mem_of_mem_filter member)
      exact ⟨stays.1, isLast ▸ stays.2⟩
    · rw [bumps, lives]
      exact ⟨rfl, positive, fun member => of_decide_eq_true (List.mem_filter.mp member).2 rfl⟩
    · rw [bumps, clears]
      exact List.mem_cons_self
  · rw [if_neg isLast] at rightly
    subst rightly
    rw [if_neg (Option.some_ne_none address).symm] at clears
    have other : decide ((bump older).2 ≠ address) = true := decide_eq_true (Ne.symm isLast)
    refine ⟨?_, ?_, ?_⟩
    · rw [lives, bumps]
      exact fun other member => below other (List.mem_of_mem_filter member)
    · rw [bumps, lives]
      exact next.imp id fun ⟨again, most, gone⟩ => ⟨again, most, fun member =>
        gone (List.mem_of_mem_filter member)⟩
    · rw [bumps, lives, clears]
      rcases last with isLive | isClear | none
      · exact .inl (List.mem_filter.mpr ⟨isLive, other⟩)
      · exact .inr (.inl (List.mem_filter.mpr ⟨isClear, other⟩))
      · exact absurd (none ▸ alive) List.not_mem_nil

theorem Tidy.bumped {trace : List Event} (tidy : Tidy trace) : Bumped trace := by
  induction trace with
  | nil => exact ⟨fun _ member => absurd member List.not_mem_nil, .inl rfl, .inr (.inr rfl)⟩
  | cons event older ih =>
      cases event with
      | inodeNew address _ | mnodeNew address =>
          obtain ⟨rfl, earlier⟩ := tidy
          obtain ⟨positive, behind⟩ := (ih earlier).allocated
          refine ⟨?_, .inl rfl, .inl List.mem_cons_self⟩
          intro other member
          rcases List.mem_cons.mp member with rfl | old
          · exact ⟨positive, Nat.le_refl _⟩
          · exact ⟨((ih earlier).below other old).1, Nat.le_of_lt (behind other old)⟩
      | inodeDelete address zeroed | mnodeDelete address zeroed =>
          obtain ⟨alive, rightly, earlier⟩ := tidy
          refine (ih earlier).deleted alive rightly ?_ rfl rfl
          cases zeroed <;> rfl
      | unlink _ | lower => exact ⟨(ih tidy).below, (ih tidy).next, (ih tidy).last⟩

theorem Tidy.place_eq {e : Enclave} (tidy : Tidy e.trace) : numa.guarded.place e = numa.place e := by
  obtain ⟨positive, behind⟩ := tidy.bumped.allocated
  exact if_neg (not_or.mpr ⟨Nat.ne_of_gt positive, fun alive => Nat.lt_irrefl _ (behind _ alive)⟩)

/-- As long as this holds of their trace, two platforms hand out the same blocks. -/
structure Platform.Agree (platform other : Platform) (held : List Event → Prop) : Prop where
  int : platform.int = other.int
  place : ∀ {e : Enclave}, held e.trace → platform.place e = other.place e
  inodeNew : ∀ {e : Enclave} marked, held e.trace → held (.inodeNew (platform.place e) marked :: e.trace)
  mnodeNew : ∀ {e : Enclave}, held e.trace → held (.mnodeNew (platform.place e) :: e.trace)
  unlink : ∀ {older : List Event} address, held older → held (.unlink address :: older)

theorem numa_agree : numa.Agree numa.guarded Tidy where
  int := rfl
  place tidy := tidy.place_eq.symm
  inodeNew _ tidy := ⟨rfl, tidy⟩
  mnodeNew tidy := ⟨rfl, tidy⟩
  unlink _ tidy := tidy

namespace Enclave

section Raising

variable {platform other : Platform} {held : List Event → Prop} {e : Enclave}

theorem setRight_holds (holds : held e.trace) (address right : Nat) :
    Ends (e.setRight address right) fun e' => held e'.trace :=
  .read fun _ => .some holds

theorem setLevel_holds (holds : held e.trace) (address level : Nat) :
    Ends (e.setLevel address level) fun e' => held e'.trace :=
  .read fun _ => .some holds

theorem raiseNodeLevel_holds (holds : held e.trace) (address level : Nat) :
    Ends (e.raiseNodeLevel address level) fun e' => held e'.trace :=
  .read fun _ => .ite (.read fun _ => .some holds) (.some holds)

theorem inodeNew_twins (agree : platform.Agree other held) (holds : held e.trace)
    (right down intermed : Nat) : Twins (inodeNew platform e right down intermed)
      (inodeNew other e right down intermed) fun made => held made.2.trace := by
  rw [inodeNew, inodeNew, ← agree.place holds]
  exact .one (.read fun _ => .some (agree.inodeNew _ holds))

theorem mnodeNew_twins (agree : platform.Agree other held) (holds : held e.trace)
    (next node level : Nat) : Twins (mnodeNew platform e next node level)
      (mnodeNew other e next node level) fun made => held made.2.trace := by
  rw [mnodeNew, mnodeNew, ← agree.place holds]
  exact .one (.read fun _ => .some (agree.mnodeNew holds))

theorem raiseAt_twins (agree : platform.Agree other held) (holds : held e.trace)
    (abovePrev down intermed level : Nat) :
    Twins (raiseAt platform e abovePrev down intermed level)
      (raiseAt other e abovePrev down intermed level) fun made => held made.2.trace := by
  refine .read fun behind => .bind (inodeNew_twins agree holds behind.right down intermed) fun made first => ?_
  exact .one (.bind (setRight_holds first abovePrev made.1) fun e₁ second =>
    .bind (setLevel_holds second intermed level) fun e₂ third => .read fun mnode =>
      .bind (raiseNodeLevel_holds third mnode.node level) fun e₃ fourth => .some fourth)

theorem raiseMlevelLoop_twins (agree : platform.Agree other held) (mnode fuel : Nat) : ∀ (e : Enclave)
    inode above abovePrev prev node next raised, held e.trace →
      Twins (raiseMlevelLoop platform mnode fuel e inode above abovePrev prev node next raised)
        (raiseMlevelLoop other mnode fuel e inode above abovePrev prev node next raised)
        fun ended => held ended.2.trace := by
  induction fuel with
  | zero => exact fun _ _ _ _ _ _ _ _ _ => .one (.none _)
  | succ fuel ih =>
      intro e inode above abovePrev prev node next raised holds
      refine .ite (.some holds) (.read fun _ => .read fun _ => .read fun _ => .read fun after =>
        .ite (.read fun seek => .bind (raiseAt_twins agree holds seek.2 0 node 1) fun made first => ?_)
          (ih e inode above abovePrev node next after.next raised holds))
      exact ih made.2 made.1 made.1 made.1 node next after.next true first

theorem bgRaiseMlevel_twins (agree : platform.Agree other held) (holds : held e.trace) (mnode inode : Nat) :
    Twins (bgRaiseMlevel platform e mnode inode) (bgRaiseMlevel other e mnode inode)
      fun ended => held ended.2.trace :=
  .read fun _ => .ite (.some holds) (.read fun _ =>
    raiseMlevelLoop_twins agree mnode _ e _ _ _ _ _ _ _ holds)

theorem skipMarked_holds (agree : platform.Agree other held) (iprev fuel : Nat) : ∀ (e : Enclave) index
    inext, held e.trace → Ends (skipMarked iprev fuel e index inext) fun ended => held ended.1.trace := by
  induction fuel with
  | zero => exact fun _ _ _ _ => .none _
  | succ fuel ih =>
      intro e index inext holds
      have unlinked : held (e.record (.unlink index)).trace := agree.unlink index holds
      exact .read fun _ => .read fun _ => .ite
        (.bind (setRight_holds unlinked iprev inext) fun e₁ first =>
          .ite (.some first) (.read fun next => ih e₁ inext next.right first)) (.some holds)

theorem raiseIlevelLoop_twins (agree : platform.Agree other held) (height fuel : Nat) : ∀ (e : Enclave)
    iprev iprevTall above abovePrev index raised, held e.trace →
      Twins (raiseIlevelLoop platform height fuel e iprev iprevTall above abovePrev index raised)
        (raiseIlevelLoop other height fuel e iprev iprevTall above abovePrev index raised)
        fun ended => held ended.2.trace := by
  induction fuel with
  | zero => exact fun _ _ _ _ _ _ _ _ => .one (.none _)
  | succ fuel ih =>
      intro e iprev iprevTall above abovePrev index raised holds
      refine .ite (.some holds) (.read fun first => .ite (.some holds)
        (.bind (.one (skipMarked_holds agree iprev _ e index first.right holds)) fun skipped begun => ?_))
      obtain ⟨e₁, index₁, inext⟩ := skipped
      refine .ite (.some begun) (.read fun _ => .read fun _ => .read fun _ => .ite
        (.read fun inode => .read fun mnode => .read fun seek =>
          .bind (raiseAt_twins agree begun seek.2 index₁ inode.intermed (height + 1)) fun made first => ?_) ?_)
      · exact ih made.2 index₁ made.1 made.1 made.1 inext true first
      · exact ih e₁ index₁ iprevTall above abovePrev inext raised begun

theorem bgRaiseIlevel_twins (agree : platform.Agree other held) (holds : held e.trace)
    (iprev iprevTall height : Nat) : Twins (bgRaiseIlevel platform e iprev iprevTall height)
      (bgRaiseIlevel other e iprev iprevTall height) fun ended => held ended.2.trace :=
  .read fun _ => raiseIlevelLoop_twins agree height _ e _ _ _ _ _ _ holds

theorem growSentinel_twins (agree : platform.Agree other held) (holds : held e.trace) :
    Twins (growSentinel platform e) (growSentinel other e) fun e' => held e'.trace := by
  refine .read fun old => .bind (inodeNew_twins agree holds 0 e.sentinel old.intermed) fun made first => ?_
  have grown : held { made.2 with sentinel := made.1 }.trace := first
  exact .one (.read fun mnode => .bind (setLevel_holds grown old.intermed (mnode.level + 1))
    fun e₁ second => raiseNodeLevel_holds second mnode.node (mnode.level + 1))

theorem raiseRows_twins (agree : platform.Agree other held) (inodes : List Nat) (fuel : Nat) :
    ∀ (e : Enclave) i raised, held e.trace →
      Twins (raiseRows platform inodes fuel e i raised) (raiseRows other inodes fuel e i raised)
        fun ended => held ended.2.trace := by
  induction fuel with
  | zero => exact fun _ _ _ _ => .one (.none _)
  | succ fuel ih =>
      intro e i raised holds
      exact .read fun _ => .ite (.read fun low => .read fun high =>
        .bind (bgRaiseIlevel_twins agree holds low high (i + 1)) fun ended first =>
          ih ended.2 (i + 1) ended.1 first) (.some holds)

theorem raiseIndexLayer_twins (agree : platform.Agree other held)
    (traversed : Twins (e.bgTravMnodes platform) (e.bgTravMnodes other) fun e' => held e'.trace) :
    Twins (e.raiseIndexLayer platform) (e.raiseIndexLayer other) fun ended => held ended.2.trace := by
  refine .bind traversed fun e₁ first => .read fun _ => .read fun inodes =>
    .read fun lowest => .read fun bottom =>
      .bind (bgRaiseMlevel_twins agree first bottom.intermed lowest) fun ended second =>
        .read fun level => ?_
  -- what comes after the first new row, if there is one
  have rest : ∀ (inodes : List Nat) (e₂ : Enclave), held e₂.trace → Twins
      ((raiseRows platform inodes (e₂.inodes.length + 1) e₂ 0 ended.1).bind fun rows =>
        if rows.1 = true then (growSentinel platform rows.2).bind fun e₃ => some (inodes, e₃)
        else some (inodes, rows.2))
      ((raiseRows other inodes (e₂.inodes.length + 1) e₂ 0 ended.1).bind fun rows =>
        if rows.1 = true then (growSentinel other rows.2).bind fun e₃ => some (inodes, e₃)
        else some (inodes, rows.2)) fun ended => held ended.2.trace := by
    intro inodes e₂ third
    refine .bind (raiseRows_twins agree inodes _ e₂ 0 ended.1 third) fun rows fourth => ?_
    exact .ite (.bind (growSentinel_twins agree fourth) fun e₃ fifth => .some fifth) (.some fourth)
  exact .ite
    (.bind (growSentinel_twins agree second) fun e₂ third => rest _ e₂ third)
    (rest inodes ended.2 second)

end Raising

section Deletes

variable {e : Enclave}

theorem contents_of_inode {address : Nat} {inode : Inode} (found : e.inode address = some inode) :
    e.contents address = some (.inl inode) := by
  rw [contents, found]

theorem contents_of_mnode {address : Nat} {mnode : Mnode} (none : e.inode address = none)
    (stored : e.mnode address = some mnode) : e.contents address = some (.inr mnode) := by
  rw [contents, none, stored, Option.map_some]

theorem inode_of_contents {address : Nat} {inode : Inode}
    (same : e.contents address = some (.inl inode)) : e.inode address = some inode := by
  rw [contents] at same
  cases found : e.inode address with
  | some other =>
      rw [found] at same
      rw [Sum.inl.inj (Option.some.inj same)]
  | none => cases stored : e.mnode address <;> simp [found, stored] at same

theorem mnode_of_contents {address : Nat} {mnode : Mnode}
    (same : e.contents address = some (.inr mnode)) : e.mnode address = some mnode := by
  rw [contents] at same
  cases found : e.inode address with
  | some other => simp [found] at same
  | none => cases stored : e.mnode address <;> simp_all

theorem guarded_zeroes (e : Enclave) (address : Nat) :
    numa.guarded.zeroes e address = if address = (bump e.trace).2 then some address else none := by
  dsimp only [Platform.guarded, numa]
  by_cases isLast : address = (bump e.trace).2
  · simp [← isLast]
  · rw [if_neg isLast, if_neg]
    split
    · exact fun same => isLast (Option.some.inj same).symm
    · exact (Option.some_ne_none address).symm

/-- So it does without, unless the block handed out last has the same contents. -/
theorem zeroes_eq {address : Nat}
    (apart : e.contents address = e.contents (bump e.trace).2 → address = (bump e.trace).2) :
    numa.zeroes e address = numa.guarded.zeroes e address := by
  rw [guarded_zeroes]
  dsimp only [numa]
  by_cases same : e.contents address = e.contents (bump e.trace).2
  · rw [if_pos same, if_pos (apart same), ← apart same]
  · rw [if_neg same, if_neg fun isLast => same (by rw [← isLast])]

theorem inodeDelete_same {address : Nat}
    (apart : e.contents address = e.contents (bump e.trace).2 → address = (bump e.trace).2) :
    e.inodeDelete numa address = e.inodeDelete numa.guarded address := by
  rw [inodeDelete, inodeDelete, zeroes_eq apart]

theorem mnodeDelete_same {address : Nat}
    (apart : e.contents address = e.contents (bump e.trace).2 → address = (bump e.trace).2) :
    e.mnodeDelete numa address = e.mnodeDelete numa.guarded address := by
  rw [mnodeDelete, mnodeDelete, zeroes_eq apart]

theorem inodeDelete_trace (platform : Platform) (e : Enclave) (address : Nat) :
    (e.inodeDelete platform address).trace =
      .inodeDelete address (platform.zeroes e address) :: e.trace := by
  rw [inodeDelete]
  cases platform.zeroes e address <;> rfl

theorem mnodeDelete_trace (platform : Platform) (e : Enclave) (address : Nat) :
    (e.mnodeDelete platform address).trace =
      .mnodeDelete address (platform.zeroes e address) :: e.trace := by
  rw [mnodeDelete]
  cases platform.zeroes e address <;> rfl

theorem inodeDelete_tidy {address : Nat} (tidy : Tidy e.trace) (alive : address ∈ live e.trace) :
    Tidy (e.inodeDelete numa.guarded address).trace := by
  rw [inodeDelete_trace]
  exact ⟨alive, guarded_zeroes e address, tidy⟩

theorem mnodeDelete_tidy {address : Nat} (tidy : Tidy e.trace) (alive : address ∈ live e.trace) :
    Tidy (e.mnodeDelete numa.guarded address).trace := by
  rw [mnodeDelete_trace]
  exact ⟨alive, guarded_zeroes e address, tidy⟩

end Deletes

section Collecting

variable {e : Enclave} {start head : Nat} {row rest : List Nat}

structure Collecting (e : Enclave) (start : Nat) (row : List Nat) : Prop where
  chain : Chain (rightAt e.inodes) start row
  cells : ∀ address ∈ row, ∃ inode, e.inode address = some inode ∧ inode.intermed ≠ 0

theorem Collecting.congr (collecting : Collecting e start row) {e' : Enclave}
    (kept : ∀ address ∈ row, e'.inode address = e.inode address) : Collecting e' start row := by
  refine ⟨collecting.chain.congr fun address member => ?_, fun address member => ?_⟩
  · exact congrArg (Option.map Inode.right) (kept address member)
  · rw [kept address member]
    exact collecting.cells address member

theorem Collecting.next (collecting : Collecting e start (head :: rest)) : start = head ∧
    head ∉ rest ∧ ∃ inode, e.inode head = some inode ∧ inode.intermed ≠ 0 ∧
      Collecting e inode.right rest ∧ ∀ platform fuel, collectLoop platform (fuel + 1) e start =
        collectLoop platform fuel (e.inodeDelete platform head) inode.right := by
  obtain ⟨inode, found, isOver⟩ := collecting.cells head List.mem_cons_self
  have nodup := collecting.chain.nodup
  obtain ⟨rfl, nonzero, successor, linked, later⟩ := collecting.chain
  rw [rightAt_found found] at linked
  obtain rfl := Option.some.inj linked
  refine ⟨rfl, (List.nodup_cons.mp nodup).1, inode, found, isOver,
    ⟨later, fun address member => collecting.cells address (List.mem_cons_of_mem _ member)⟩, ?_⟩
  intro platform fuel
  rw [collectLoop, if_neg nonzero, found]
  rfl

/-- No inode of the row has the contents of the block handed out last, unless it is that block. -/
def SparedBy (e : Enclave) (row : List Nat) : Prop :=
  ∀ address ∈ row, address ≠ (bump e.trace).2 → e.inode address ≠ e.inode (bump e.trace).2

theorem contents_apart {address : Nat} {inode : Inode} (found : e.inode address = some inode)
    (spared : address ≠ (bump e.trace).2 → e.inode address ≠ e.inode (bump e.trace).2) :
    e.contents address = e.contents (bump e.trace).2 → address = (bump e.trace).2 := by
  intro same
  by_contra other
  rw [contents_of_inode found] at same
  exact spared other (found.trans (inode_of_contents same.symm).symm)

theorem inodeDelete_guarded (e : Enclave) (address : Nat) : e.inodeDelete numa.guarded address =
    if address = (bump e.trace).2
      then (e.setInode address ⟨0, 0, 0, 0⟩).record (.inodeDelete address (some address))
      else e.record (.inodeDelete address none) := by
  rw [inodeDelete, guarded_zeroes]
  split <;> rfl

theorem collectLoop_same (row : List Nat) : ∀ fuel (e : Enclave) start, Collecting e start row →
    e.SparedBy row → collectLoop numa fuel e start = collectLoop numa.guarded fuel e start := by
  induction row with
  | nil =>
      intro fuel e start collecting _
      obtain rfl : start = 0 := collecting.chain
      cases fuel <;> rfl
  | cons head rest ih =>
      intro fuel e start collecting spared
      cases fuel with
      | zero => rfl
      | succ fuel =>
          obtain ⟨rfl, notAgain, inode, found, _, later, steps⟩ := collecting.next
          have same := inodeDelete_same (contents_apart found (spared start List.mem_cons_self))
          have different : ∀ address ∈ rest, start ≠ address := fun address member isStart =>
            notAgain (isStart ▸ member)
          rw [steps, steps, same, inodeDelete_guarded]
          split
          · -- the block that is zeroed now has no intermed pointer
            have kept : ∀ address ∈ rest, (e.setInode start ⟨0, 0, 0, 0⟩).inode address =
                e.inode address := fun address member => Store.get_set_other _ (different address member)
            refine ih fuel _ _ (later.congr kept) fun address member _ equal => ?_
            have zero : (e.setInode start ⟨0, 0, 0, 0⟩).inode start = some ⟨0, 0, 0, 0⟩ :=
              Store.get_set_same _ _ _
            obtain ⟨other, stored, isOver⟩ := later.cells address member
            have isZero := (stored.symm.trans (kept address member).symm).trans (equal.trans zero)
            exact isOver (congrArg Inode.intermed (Option.some.inj isZero))
          · exact ih fuel _ _ (later.congr fun _ _ => rfl) fun address member =>
              spared address (List.mem_cons_of_mem _ member)

theorem collectLoop_tidy (row : List Nat) : ∀ fuel (e : Enclave) start, Collecting e start row →
    Tidy e.trace → (∀ address ∈ row, address ∈ live e.trace) →
    Ends (collectLoop numa.guarded fuel e start) fun e' => Tidy e'.trace := by
  induction row with
  | nil =>
      intro fuel e start collecting tidy _
      obtain rfl : start = 0 := collecting.chain
      cases fuel with
      | zero => exact .none _
      | succ fuel => exact .some tidy
  | cons head rest ih =>
      intro fuel e start collecting tidy alive
      cases fuel with
      | zero => exact .none _
      | succ fuel =>
          obtain ⟨rfl, notAgain, inode, _, _, later, steps⟩ := collecting.next
          rw [steps]
          have different : ∀ address ∈ rest, start ≠ address := fun address member isStart =>
            notAgain (isStart ▸ member)
          refine ih fuel _ _ (later.congr fun address member => ?_)
            (inodeDelete_tidy tidy (alive start List.mem_cons_self)) fun address member => ?_
          · rw [inodeDelete_guarded]
            split
            · exact Store.get_set_other _ (different address member)
            · rfl
          · rw [inodeDelete_trace]
            exact List.mem_filter.mpr ⟨alive address (List.mem_cons_of_mem _ member),
              decide_eq_true (different address member).symm⟩

theorem collectLoop_unlike (row : List Nat) : ∀ fuel (e : Enclave) start, Collecting e start row →
    row.length < fuel → (∀ address ∈ row, e.inode address ≠ e.inode (bump e.trace).2) →
    ∃ trace, collectLoop numa fuel e start = some { e with trace := trace } := by
  induction row with
  | nil =>
      intro fuel e start collecting bound _
      obtain ⟨fuel, rfl⟩ := Nat.exists_eq_succ_of_ne_zero (Nat.ne_of_gt bound)
      exact ⟨e.trace, by rw [collectLoop, if_pos (show start = 0 from collecting.chain)]⟩
  | cons head rest ih =>
      intro fuel e start collecting bound unlike
      obtain ⟨fuel, rfl⟩ := Nat.exists_eq_succ_of_ne_zero (Nat.ne_of_gt (Nat.zero_lt_of_lt bound))
      obtain ⟨rfl, _, inode, found, _, later, steps⟩ := collecting.next
      have different := unlike start List.mem_cons_self
      have same := inodeDelete_same (contents_apart found fun _ => different)
      rw [steps, same, inodeDelete_guarded, if_neg fun isLast => different (by rw [← isLast])]
      exact ih fuel _ _ (later.congr fun _ _ => rfl) (by simpa using bound) fun address member =>
        unlike address (List.mem_cons_of_mem _ member)

/-- An inode of the row that has the contents of the block handed out last: that block is zeroed. -/
theorem collectLoop_takes {alike : Nat} (row : List Nat) : ∀ fuel (e : Enclave) start,
    Collecting e start row → row.length < fuel → alike ∈ row →
    (∀ address ∈ row, e.inode address = e.inode alike → address = alike) →
    alike ≠ (bump e.trace).2 → e.inode alike = e.inode (bump e.trace).2 →
    ∃ trace, collectLoop numa fuel e start =
      some { e.setInode (bump e.trace).2 ⟨0, 0, 0, 0⟩ with trace := trace } := by
  induction row with
  | nil => exact fun _ _ _ _ _ isIn => absurd isIn List.not_mem_nil
  | cons head rest ih =>
      intro fuel e start collecting bound isIn distinct isOther same
      obtain ⟨fuel, rfl⟩ := Nat.exists_eq_succ_of_ne_zero (Nat.ne_of_gt (Nat.zero_lt_of_lt bound))
      obtain ⟨rfl, notAgain, inode, found, _, later, steps⟩ := collecting.next
      have notOld : ∀ address ∈ start :: rest, (bump e.trace).2 ≠ address := by
        rintro address member rfl
        exact isOther (distinct _ member same.symm).symm
      by_cases here : start = alike
      · have zeroes : numa.zeroes e start = some (bump e.trace).2 := by
          refine if_pos ?_
          have old : e.inode (bump e.trace).2 = some inode := same.symm.trans (here ▸ found)
          rw [contents_of_inode found, contents_of_inode old]
        rw [steps, inodeDelete, zeroes]
        have kept : ∀ address ∈ rest, (e.setInode (bump e.trace).2 ⟨0, 0, 0, 0⟩).inode address =
            e.inode address := fun address member =>
          Store.get_set_other _ (notOld address (List.mem_cons_of_mem _ member))
        obtain ⟨trace, ended⟩ := collectLoop_unlike rest fuel
          ((e.setInode (bump e.trace).2 ⟨0, 0, 0, 0⟩).record (.inodeDelete start (some (bump e.trace).2)))
          inode.right (later.congr kept) (by simpa using bound) fun address member equal => by
            have zero : (e.setInode (bump e.trace).2 ⟨0, 0, 0, 0⟩).inode (bump e.trace).2 =
                some ⟨0, 0, 0, 0⟩ := Store.get_set_same _ _ _
            obtain ⟨other, stored, isOver⟩ := later.cells address member
            have isZero := (stored.symm.trans (kept address member).symm).trans (equal.trans zero)
            exact isOver (congrArg Inode.intermed (Option.some.inj isZero))
        exact ⟨trace, ended⟩
      · have unlike : e.inode start ≠ e.inode (bump e.trace).2 := fun equal =>
          here (distinct start List.mem_cons_self (equal.trans same.symm))
        have plain := inodeDelete_same (contents_apart found fun _ => unlike)
        rw [steps, plain, inodeDelete_guarded, if_neg (notOld start List.mem_cons_self).symm]
        exact ih fuel _ _ (later.congr fun _ _ => rfl) (by simpa using bound)
          ((List.mem_cons.mp isIn).resolve_left (Ne.symm here))
          (fun address member => distinct address (List.mem_cons_of_mem _ member)) isOther same

end Collecting

end Enclave

/-- `nfree` took the block handed out last for the inode `address` of the row it was to delete. The
memory `after` is that of a lowering that frees the row and nothing else. -/
structure Taken (e : Enclave) (low : List (Nat × Nat)) (address : Nat) (e' after : Enclave) : Prop where
  alike : after.inode (bump e.trace).2 = e.inode address
  sentinel : e'.sentinel = after.sentinel
  mnodes : e'.mnodes = after.mnodes
  nodes : e'.nodes = after.nodes
  inodes : ∀ other, other ∉ low.map Prod.fst → e'.inode other =
    if (bump e.trace).2 = other then some ⟨0, 0, 0, 0⟩ else after.inode other

namespace IndexLayer

variable {e : Enclave} {list : List (Nat × Entry)} {low second : List (Nat × Nat)}
  {rest : List (List (Nat × Nat))} {base fuel : Nat} {middle : Enclave}

theorem low_kept (layer : IndexLayer e list (low :: second :: rest))
    (detached : Detached e (layout base list (low :: second :: rest)) second middle) :
    ∀ address ∈ low.map Prod.fst, middle.inode address = e.inode address := by
  intro address member
  obtain ⟨p, inLow, rfl⟩ := List.mem_map.mp member
  have notSecond : p.1 ∉ second.map Prod.fst := by
    intro again
    obtain ⟨q, inSecond, same⟩ := List.mem_map.mp again
    exact layer.disjoint.1 second List.mem_cons_self p inLow q inSecond same.symm
  rw [detached.downs]
  simp only [if_neg notSecond, Option.map_id']

theorem collecting (layer : IndexLayer e list (low :: second :: rest))
    (detached : Detached e (layout base list (low :: second :: rest)) second middle)
    (chain : Chain (rightAt middle.inodes) (firstOf low) (low.map Prod.fst)) :
    middle.Collecting (firstOf low) (low.map Prod.fst) := by
  refine ⟨chain, fun address member => ?_⟩
  rw [layer.low_kept detached address member]
  obtain ⟨p, inLow, rfl⟩ := List.mem_map.mp member
  obtain ⟨_, _, intermed⟩ := layer.intermed
  obtain ⟨inode, entry, found, inList, _⟩ := layer.cells low List.mem_cons_self p inLow
  exact ⟨inode, found, intermed.nonzero inList⟩

theorem spares_iff (layer : IndexLayer e list (low :: second :: rest))
    (detached : Detached e (layout base list (low :: second :: rest)) second middle) :
    e.Spares ↔ middle.SparedBy (low.map Prod.fst) := by
  have old : (bump middle.trace).2 = (bump e.trace).2 := by
    rw [detached.trace]
    rfl
  rw [Enclave.Spares, layer.linkedRows_eq, Enclave.SparedBy, old, detached.downs]
  constructor
  · intro spares address member
    rw [layer.low_kept detached address member]
    exact spares _ rfl _ rfl address member
  · rintro spared _ ⟨⟩ _ ⟨⟩ address member
    rw [← layer.low_kept detached address member]
    exact spared address member

theorem bgLowerIlevel_same (layer : IndexLayer e list (low :: second :: rest))
    (raised : ∀ p ∈ list, Links second p.2.key → 1 ≤ p.2.level) (spares : e.Spares) :
    e.bgLowerIlevel numa (firstOf second) = e.bgLowerIlevel numa.guarded (firstOf second) := by
  obtain ⟨base, middle, fuel, lowers, detached, chain, _⟩ := layer.bgLowerIlevel_detaches raised
  rw [lowers, lowers]
  exact Enclave.collectLoop_same _ _ _ _ (layer.collecting detached chain)
    ((layer.spares_iff detached).mp spares)

theorem bgLowerIlevel_takes (layer : IndexLayer e list (low :: second :: rest))
    (raised : ∀ p ∈ list, Links second p.2.key → 1 ≤ p.2.level) (takes : ¬ e.Spares) :
    ∃ p ∈ low, ∃ e' after, e.bgLowerIlevel numa (firstOf second) = some e' ∧
      e.bgLowerIlevel numa.guarded (firstOf second) = some after ∧
      IndexLayer after (lowerKeys (second.map Prod.snd) list) (second :: rest) ∧
      Taken e low p.1 e' after := by
  obtain ⟨base, middle, fuel, lowers, detached, chain, bound⟩ := layer.bgLowerIlevel_detaches raised
  have old : (bump middle.trace).2 = (bump e.trace).2 := by
    rw [detached.trace]
    rfl
  rw [layer.spares_iff detached, Enclave.SparedBy] at takes
  push Not at takes
  obtain ⟨address, member, isOther, same⟩ := takes
  have kept := layer.low_kept detached
  obtain ⟨p, inLow, rfl⟩ := List.mem_map.mp member
  obtain ⟨_, _, found, _⟩ := layer.cells low List.mem_cons_self p inLow
  have distinct : ∀ other ∈ low.map Prod.fst, middle.inode other = middle.inode p.1 → other = p.1 := by
    intro other inRow equal
    rw [kept other inRow, kept p.1 member] at equal
    obtain ⟨q, inCells, rfl⟩ := List.mem_map.mp inRow
    rw [layer.over_unique List.mem_cons_self inCells inLow (equal.trans found) found rfl]
  obtain ⟨trace, collected⟩ := Enclave.collectLoop_takes _ fuel middle _
    (layer.collecting detached chain) (by rwa [List.length_map]) member distinct isOther same
  obtain ⟨after, collected', lowered, mnodes, nodes⟩ := detached.collect numa.guarded_honest chain bound
  rw [old] at isOther same collected
  have notLow : (bump e.trace).2 ∉ low.map Prod.fst := fun again =>
    isOther (distinct _ again same.symm).symm
  have agree : ∀ address, address ∉ low.map Prod.fst → after.inode address = middle.inode address :=
    fun address notIn => (lowered.kept address notIn).trans (detached.downs address).symm
  refine ⟨p, inLow, _, after, (lowers numa).trans collected, (lowers numa.guarded).trans collected',
    layer.lowered lowered, ?_, detached.sentinel.trans lowered.sentinel.symm, mnodes.symm, nodes.symm,
    fun address notIn => ?_⟩
  · rw [agree _ notLow, ← same, kept p.1 member]
  · rw [agree address notIn]
    exact Store.get_set _ _ _ _

end IndexLayer

namespace Repr

variable {e : Enclave} {l : Layout} {before after : List (Nat × Entry)} {p q : Nat × Entry}

/-- No other block has the contents of a marked mnode of the list. -/
theorem contents_apart (repr : Repr e l) (tidy : Tidy e.trace) (cell : Mnode)
    (split : l.mnodes = before ++ p :: q :: after) (marked : q.2.marked = true) :
    let cut := e.setMnode p.1 cell
    cell.key = p.2.key → cut.contents q.1 = cut.contents (bump cut.trace).2 →
      q.1 = (bump cut.trace).2 := by
  intro cut sameKey same
  have behind : l.mnodes = (before ++ [p]) ++ q :: after := by simp [split]
  have isListed : q ∈ l.mnodes := by simp [split]
  have sorted := repr.intermed.sorted
  rw [split, List.pairwise_append, List.pairwise_cons] at sorted
  have smaller : p.2.key < q.2.key := sorted.2.1.1 q List.mem_cons_self
  have qStored : e.mnode q.1 = some (q.2.at (firstOf after)) := repr.intermed.at_split behind
  have notP : p.1 ≠ q.1 := by
    intro isP
    have equal := repr.intermed.eq_of_address (by simp [split] : p ∈ l.mnodes) isListed isP
    rw [equal] at smaller
    exact Nat.lt_irrefl _ smaller
  have here : cut.contents q.1 = some (.inr (q.2.at (firstOf after))) :=
    Enclave.contents_of_mnode (repr.noInode q isListed) ((Store.get_set_other _ notP).trans qStored)
  have there := Enclave.mnode_of_contents (same.symm.trans here)
  change cut.mnode (bump e.trace).2 = _ at there
  change q.1 = (bump e.trace).2
  have last := tidy.bumped.last
  generalize (bump e.trace).2 = old at there last ⊢
  by_cases isP : p.1 = old
  · have isCell : cut.mnode old = some cell := isP ▸ Store.get_set_same _ _ _
    have equal := congrArg Mnode.key (Option.some.inj (isCell.symm.trans there))
    have sameKeys : p.2.key = q.2.key := sameKey.symm.trans equal
    exact absurd sameKeys (Nat.ne_of_lt smaller)
  have stored : e.mnode old = some (q.2.at (firstOf after)) :=
    (Store.get_set_other _ isP).symm.trans there
  rcases repr.strays old _ stored with ⟨entry, inList⟩ | ⟨gone, zero⟩
  · obtain ⟨next, isEntry⟩ := repr.intermed.holds _ inList
    have keys := congrArg Mnode.key (Option.some.inj (stored.symm.trans isEntry))
    exact congrArg Prod.fst (repr.intermed.eq_of_key isListed inList keys)
  · rcases last with alive | clear | none
    · exact absurd gone (live_not_dead alive)
    · have unmarked : q.2.marked = false := congrArg Mnode.marked (zero clear)
      exact absurd (marked.symm.trans unmarked) (by decide)
    · exact absurd (none ▸ repr.liveMnodes q isListed) List.not_mem_nil

theorem bgMremove_twins (repr : Repr e l) (tidy : Tidy e.trace)
    (split : l.mnodes = before ++ p :: q :: after) :
    Twins (e.bgMremove numa p.1 q.1) (e.bgMremove numa.guarded p.1 q.1) fun ended => Tidy ended.2.trace := by
  have isListed : q ∈ l.mnodes := by simp [split]
  have pStored : e.mnode p.1 = some (p.2.at (firstOf (q :: after))) := repr.intermed.at_split split
  have qStored : e.mnode q.1 = some (q.2.at (firstOf after)) :=
    repr.intermed.at_split (show l.mnodes = (before ++ [p]) ++ q :: after by simp [split])
  rw [Enclave.bgMremove, Enclave.bgMremove, qStored]
  simp only [Option.bind_eq_bind, Option.bind_some, Entry.at]
  by_cases removes : q.2.level = 0 ∧ q.2.marked = true
  · rw [if_pos removes, if_pos removes, Enclave.setNext, pStored]
    have same := Enclave.mnodeDelete_same
      (repr.contents_apart tidy (p.2.at (firstOf after)) split removes.2 rfl)
    have alive : q.1 ∈ live e.trace := repr.liveMnodes q isListed
    refine ⟨congrArg (fun last => some (true, last)) same, .some ?_⟩
    exact same ▸ Enclave.mnodeDelete_tidy tidy alive
  · rw [if_neg removes, if_neg removes]
    exact .some tidy

theorem travMnodesLoop_twins (todo : List (Nat × Entry)) : ∀ fuel e l before p, Repr e l → Tidy e.trace →
    l.mnodes = before ++ p :: todo →
      Twins (e.travMnodesLoop numa fuel p.1 (firstOf todo))
        (e.travMnodesLoop numa.guarded fuel p.1 (firstOf todo)) fun e' => Tidy e'.trace := by
  induction todo with
  | nil =>
      intro fuel e l before p _ tidy _
      cases fuel with
      | zero => exact .one (.none _)
      | succ fuel => exact .some tidy
  | cons q rest ih =>
      intro fuel e l before p repr tidy split
      cases fuel with
      | zero => exact .one (.none _)
      | succ fuel =>
          have nonzero : q.1 ≠ 0 := repr.intermed.nonzero (by simp [split])
          have behind : l.mnodes = (before ++ [p]) ++ q :: rest := by simp [split]
          have stored : e.mnode q.1 = some (q.2.at (firstOf rest)) := repr.intermed.at_split behind
          have twins := repr.bgMremove_twins tidy split
          rw [firstOf_cons, Enclave.travMnodesLoop, Enclave.travMnodesLoop, if_neg nonzero, if_neg nonzero,
            twins.same]
          cases stays : q.2.stays with
          | false =>
              obtain ⟨cut, removed, _, _, repr', _⟩ :=
                repr.bgMremove_removes numa.guarded_honest split stays
              have tidy' : Tidy cut.trace := twins.ends (true, cut) (twins.same.trans removed)
              have atPrev : cut.mnode p.1 = some (p.2.at (firstOf rest)) := repr'.intermed.at_split rfl
              simp only [removed, Option.bind_eq_bind, Option.bind_some, if_true, atPrev, Entry.at]
              exact ih fuel cut _ before p repr' tidy' rfl
          | true =>
              have kept := repr.bgMremove_keeps numa.guarded behind stays p.1
              obtain ⟨counted, _⟩ := repr.countMnode_repr numa q.2 (firstOf rest)
              simp only [kept, Option.bind_eq_bind, Option.bind_some, Bool.false_eq_true, if_false,
                stored]
              refine ih fuel _ l (before ++ [p]) q counted ?_ behind
              rw [Enclave.countMnode]
              split
              · exact tidy
              split <;> exact tidy

theorem bgTravMnodes_twins (repr : Repr e l) (tidy : Tidy e.trace) :
    Twins (e.bgTravMnodes numa) (e.bgTravMnodes numa.guarded) fun e' => Tidy e'.trace := by
  obtain ⟨_, inode, _, _, _, found, _, isBase⟩ := repr.sentinel
  obtain ⟨node, rest, split⟩ := repr.intermed.first
  have stored : e.mnode l.base = some (Entry.at ⟨0, node, l.rows.length, false⟩ (firstOf rest)) :=
    repr.intermed.at_split (show l.mnodes = [] ++ (l.base, ⟨0, node, l.rows.length, false⟩) :: rest
      from split)
  rw [Enclave.bgTravMnodes, Enclave.bgTravMnodes, found]
  simp only [Option.bind_eq_bind, Option.bind_some, isBase, stored, Entry.at]
  exact travMnodesLoop_twins rest (e.mnodes.length + 1) e l [] (l.base, ⟨0, node, l.rows.length, false⟩)
    repr tidy split

theorem raiseIndexLayer_twins (repr : Repr e l) (tidy : Tidy e.trace) :
    Twins (e.raiseIndexLayer numa) (e.raiseIndexLayer numa.guarded) fun ended => Tidy ended.2.trace :=
  Enclave.raiseIndexLayer_twins numa_agree (repr.bgTravMnodes_twins tidy)

theorem bgLowerIlevel_twins (repr : Repr e l) (tidy : Tidy e.trace) {newLow : Nat}
    (isHead : l.heads[1]? = some newLow) (spares : e.Spares) :
    Twins (e.bgLowerIlevel numa newLow) (e.bgLowerIlevel numa.guarded newLow)
      fun e' => Tidy e'.trace := by
  obtain ⟨low, second, rest, rows, rfl, layer, raised⟩ := repr.lowest_rows isHead
  have same := layer.bgLowerIlevel_same raised spares
  refine ⟨same, ?_⟩
  obtain ⟨base, middle, fuel, lowers, detached, chain, _⟩ := layer.bgLowerIlevel_detaches raised
  rw [same, lowers]
  refine Enclave.collectLoop_tidy _ _ _ _ (layer.collecting detached chain) ?_ fun address member => ?_
  · rw [detached.trace]
    exact tidy
  · obtain ⟨p, inLow, rfl⟩ := List.mem_map.mp member
    rw [detached.trace]
    have isLow : l.rows[0]? = some low := by
      rw [rows]
      rfl
    exact repr.liveInodes p.1 (repr.grid.cells 0 low p isLow inLow).1

theorem updateIndexLayer_twins (repr : Repr e l) (tidy : Tidy e.trace)
    (spares : ∀ middle ∈ e.beforeLowering numa, middle.Spares) :
    Twins (e.updateIndexLayer numa) (e.updateIndexLayer numa.guarded) fun e' => Tidy e'.trace := by
  obtain ⟨middle, l', inodes, raised, _, repr', _, heads, _⟩ :=
    repr.raiseIndexLayer_refines numa.guarded_honest
  have twins := repr.raiseIndexLayer_twins tidy
  have raises : e.raiseIndexLayer numa = some (inodes, middle) := twins.same.trans raised
  have later : Tidy middle.trace := twins.ends _ raises
  rw [Enclave.updateIndexLayer, Enclave.updateIndexLayer, raises, raised]
  simp only [Option.bind_eq_bind, Option.bind_some]
  have sameTest : Enclave.lowers numa inodes middle = Enclave.lowers numa.guarded inodes middle := rfl
  rw [sameTest]
  rcases lowers_eq numa.guarded middle l' heads with ⟨stays, _⟩ | ⟨newLow, drops, isHead, _⟩
  · rw [stays]
    exact .some later
  · rw [drops]
    have isBefore : middle ∈ e.beforeLowering numa := by
      simp [Enclave.beforeLowering, raises, sameTest, drops]
    exact repr'.bgLowerIlevel_twins later isHead (spares middle isBefore)

end Repr

namespace Enclave

variable {platform other : Platform} {held : List Event → Prop} {e : Enclave}

theorem setNext_holds (holds : held e.trace) (address next : Nat) :
    Ends (e.setNext address next) fun e' => held e'.trace :=
  .read fun _ => .some holds

theorem setMarked_holds (holds : held e.trace) (address : Nat) (marked : Bool) :
    Ends (e.setMarked address marked) fun e' => held e'.trace :=
  .read fun _ => .some holds

theorem setNodeLevel_holds (holds : held e.trace) (address level : Nat) :
    Ends (e.setNodeLevel address level) fun e' => held e'.trace :=
  .read fun _ => .some holds

theorem updateIntermediateLayer_twins (agree : platform.Agree other held) (holds : held e.trace)
    (job : Job) : Twins (e.updateIntermediateLayer platform job) (e.updateIntermediateLayer other job)
      fun e' => held e'.trace := by
  refine .read fun found => .read fun mnode => .ite (.ite (.ite ?_ (.some holds)) ?_) (.ite ?_ (.some holds))
  · exact .one (setMarked_holds holds found false)
  · exact .bind (mnodeNew_twins agree holds mnode.next job.node 0) fun made first =>
      .one (setNext_holds first found made.1)
  · exact .one (setMarked_holds holds found true)

theorem clearLevelsLoop_holds (fuel : Nat) : ∀ (e : Enclave) next, held e.trace →
    Ends (clearLevelsLoop fuel e next) fun e' => held e'.trace := by
  induction fuel with
  | zero => exact fun _ _ _ => .none _
  | succ fuel ih =>
      intro e next holds
      exact .ite (.some holds) (.read fun mnode => .bind (setNodeLevel_holds holds mnode.node 0)
        fun e₁ first => .bind (setLevel_holds first next 0) fun e₂ second => ih e₂ mnode.next second)

theorem resetIndex_twins (agree : platform.Agree other held) (holds : held e.trace) :
    Twins (e.resetIndex platform) (e.resetIndex other) fun e' => held e'.trace := by
  refine .read fun sentinel => .read fun node =>
    .bind (.one (setNodeLevel_holds holds node.node 1)) fun e₁ first =>
      .bind (.one (setLevel_holds first sentinel.intermed 1)) fun e₂ second =>
        .bind (.one (clearLevelsLoop_holds _ e₂ node.next second)) fun e₃ third =>
          .bind (inodeNew_twins agree third 0 0 sentinel.intermed) fun made fourth => ?_
  exact .some fourth

theorem threadInit_twins (agree : platform.Agree other held) (empty : held []) (nodes : Nodes)
    (sentinel : Nat) : Twins (threadInit platform nodes sentinel) (threadInit other nodes sentinel)
      fun e => held e.trace := by
  have bare : held (⟨[], [], nodes, 0, 0, 0, []⟩ : Enclave).trace := empty
  refine .bind (mnodeNew_twins agree bare 0 sentinel 1) fun under first =>
    .bind (inodeNew_twins agree first 0 0 under.1) fun made second => ?_
  exact .some second

end Enclave

/-- A call on the real allocator that does not begin a lowering with such an inode. -/
theorem Repr.call_twins {e : Enclave} {l : Layout} (repr : Repr e l) (tidy : Tidy e.trace) (call : Call)
    (spares : call = .pass → ∀ middle ∈ e.beforeLowering numa, middle.Spares) :
    Twins (e.call numa call) (e.call numa.guarded call) fun e' => Tidy e'.trace := by
  cases call with
  | job job => exact Enclave.updateIntermediateLayer_twins numa_agree tidy job
  | pass => exact repr.updateIndexLayer_twins tidy (spares rfl)
  | reset => exact Enclave.resetIndex_twins numa_agree tidy

end Hosk
