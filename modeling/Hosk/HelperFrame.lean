import Hosk.EntrySources
import Hosk.Ends

/-!
What a helper may do to the data layer, from whatever state its index is in: a job, a pass or a reset that
returns has changed the levels of data nodes and nothing else there.
-/

namespace Hosk

namespace Enclave

/-- An enclave over the same data nodes but for their levels. -/
def Relevels (e e' : Enclave) : Prop := LevelsOnly e.nodes e'.nodes

theorem Relevels.trans {first second third : Enclave} (left : first.Relevels second)
    (right : second.Relevels third) : first.Relevels third :=
  LevelsOnly.trans left right

theorem Relevels.andThen {α : Type} {e middle : Enclave} {run : Option α} {out : α → Enclave}
    (first : e.Relevels middle) (rest : Ends run fun a => middle.Relevels (out a)) :
    Ends run fun a => e.Relevels (out a) :=
  fun a returned => first.trans (rest a returned)

theorem Relevels.same {e e' : Enclave} (nodes : e'.nodes = e.nodes) : e.Relevels e' := by
  rw [Relevels, nodes]
  exact LevelsOnly.refl _

variable (platform : Platform) (e : Enclave)

theorem setRight_relevels (address right : Nat) : Ends (e.setRight address right) e.Relevels :=
  .read fun _ => .some (.same rfl)

theorem setDown_relevels (address down : Nat) : Ends (e.setDown address down) e.Relevels :=
  .read fun _ => .some (.same rfl)

theorem setNext_relevels (address next : Nat) : Ends (e.setNext address next) e.Relevels :=
  .read fun _ => .some (.same rfl)

theorem setLevel_relevels (address level : Nat) : Ends (e.setLevel address level) e.Relevels :=
  .read fun _ => .some (.same rfl)

theorem setMarked_relevels (address : Nat) (marked : Bool) :
    Ends (e.setMarked address marked) e.Relevels :=
  .read fun _ => .some (.same rfl)

theorem setNodeLevel_relevels (address level : Nat) : Ends (e.setNodeLevel address level) e.Relevels := by
  intro e' returned
  obtain ⟨node, found, isE⟩ := Option.bind_eq_some_iff.mp returned
  obtain rfl := Option.some.inj isE
  exact LevelsOnly.set found level

theorem raiseNodeLevel_relevels (address level : Nat) :
    Ends (e.raiseNodeLevel address level) e.Relevels :=
  .read fun _ => .ite (e.setNodeLevel_relevels address level) (.some (.same rfl))

theorem inodeNew_relevels (right down intermed : Nat) :
    Ends (inodeNew platform e right down intermed) fun made => e.Relevels made.2 :=
  .read fun _ => .some (.same rfl)

theorem mnodeNew_relevels (next node level : Nat) :
    Ends (mnodeNew platform e next node level) fun made => e.Relevels made.2 :=
  .read fun _ => .some (.same rfl)

theorem inodeDelete_relevels (address : Nat) : e.Relevels (inodeDelete platform e address) := by
  refine .same ?_
  rw [inodeDelete]
  cases platform.zeroes e address <;> rfl

theorem mnodeDelete_relevels (address : Nat) : e.Relevels (mnodeDelete platform e address) := by
  refine .same ?_
  rw [mnodeDelete]
  cases platform.zeroes e address <;> rfl

theorem countMnode_relevels (mnode : Mnode) : e.Relevels (countMnode platform e mnode) := by
  refine .same ?_
  rw [countMnode]
  split
  · rfl
  · split <;> rfl

theorem updateIntermediateLayer_relevels (job : Job) :
    Ends (e.updateIntermediateLayer platform job) e.Relevels := by
  refine .read fun found => .read fun mnode => .ite (.ite (.ite ?_ ?_) ?_) (.ite ?_ ?_)
  · exact e.setMarked_relevels found false
  · exact .some (.same rfl)
  · exact .bind (mnodeNew_relevels platform e mnode.next job.node 0) fun made relevels =>
      relevels.andThen (made.2.setNext_relevels found made.1)
  · exact e.setMarked_relevels found true
  · exact .some (.same rfl)

theorem bgMremove_relevels (prev mnode : Nat) :
    Ends (bgMremove platform e prev mnode) fun ended => e.Relevels ended.2 := by
  refine .read fun found => .ite (.bind (e.setNext_relevels prev found.next) fun e₁ relevels => .some ?_)
    (.some (.same rfl))
  exact relevels.trans (e₁.mnodeDelete_relevels platform mnode)

theorem travMnodesLoop_relevels (fuel : Nat) : ∀ (e : Enclave) prev node,
    Ends (travMnodesLoop platform fuel e prev node) e.Relevels := by
  induction fuel with
  | zero => exact fun _ _ _ => .none _
  | succ fuel ih =>
      intro e prev node
      refine .ite (.some (.same rfl))
        (.bind (bgMremove_relevels platform e prev node) fun ended relevels => ?_)
      obtain ⟨removed, e₁⟩ := ended
      refine .ite (.read fun before => ?_) (.read fun found => ?_)
      · exact relevels.andThen (ih e₁ prev before.next)
      · exact (relevels.trans (e₁.countMnode_relevels platform found)).andThen (ih _ node found.next)

theorem bgTravMnodes_relevels : Ends (bgTravMnodes platform e) e.Relevels :=
  .read fun _ => .read fun _ => travMnodesLoop_relevels platform _ e _ _

theorem raiseAt_relevels (abovePrev down intermed level : Nat) :
    Ends (raiseAt platform e abovePrev down intermed level) fun raised => e.Relevels raised.2 := by
  refine .read fun behind => .bind (inodeNew_relevels platform e behind.right down intermed)
    fun made first => .bind (made.2.setRight_relevels abovePrev made.1) fun e₁ second =>
      .bind (e₁.setLevel_relevels intermed level) fun e₂ third => .read fun mnode =>
        .bind (e₂.raiseNodeLevel_relevels mnode.node level) fun e₃ fourth => .some ?_
  exact ((first.trans second).trans third).trans fourth

theorem raiseMlevelLoop_relevels (mnode fuel : Nat) : ∀ (e : Enclave) inode above abovePrev prev node next
    raised, Ends (raiseMlevelLoop platform mnode fuel e inode above abovePrev prev node next raised)
      fun ended => e.Relevels ended.2 := by
  induction fuel with
  | zero => exact fun _ _ _ _ _ _ _ _ => .none _
  | succ fuel ih =>
      intro e inode above abovePrev prev node next raised
      refine .ite (.some (.same rfl)) (.read fun _ => .read fun _ => .read fun _ => .read fun after =>
        .ite (.read fun seek => .bind (raiseAt_relevels platform e seek.2 0 node 1) fun made relevels => ?_)
          (ih e inode above abovePrev node next after.next raised))
      exact relevels.andThen (ih made.2 made.1 made.1 made.1 node next after.next true)

theorem bgRaiseMlevel_relevels (mnode inode : Nat) :
    Ends (bgRaiseMlevel platform e mnode inode) fun ended => e.Relevels ended.2 :=
  .read fun _ => .ite (.some (.same rfl)) (.read fun _ =>
    raiseMlevelLoop_relevels platform mnode _ e _ _ _ _ _ _ _)

theorem skipMarked_relevels (iprev fuel : Nat) : ∀ (e : Enclave) index inext,
    Ends (skipMarked iprev fuel e index inext) fun ended => e.Relevels ended.1 := by
  induction fuel with
  | zero => exact fun _ _ _ => .none _
  | succ fuel ih =>
      intro e index inext
      refine .read fun _ => .read fun _ => .ite
        (.bind ((e.record (.unlink index)).setRight_relevels iprev inext) fun e₁ relevels =>
          .ite (.some relevels) (.read fun next => ?_)) (.some (.same rfl))
      have begun : e.Relevels e₁ := (Relevels.same rfl).trans relevels
      exact begun.andThen (ih e₁ inext next.right)

theorem raiseIlevelLoop_relevels (height fuel : Nat) : ∀ (e : Enclave) iprev iprevTall above abovePrev index
    raised, Ends (raiseIlevelLoop platform height fuel e iprev iprevTall above abovePrev index raised)
      fun ended => e.Relevels ended.2 := by
  induction fuel with
  | zero => exact fun _ _ _ _ _ _ _ => .none _
  | succ fuel ih =>
      intro e iprev iprevTall above abovePrev index raised
      refine .ite (.some (.same rfl)) (.read fun first => .ite (.some (.same rfl))
        (.bind (skipMarked_relevels iprev _ e index first.right) fun skipped begun => ?_))
      obtain ⟨e₁, index₁, inext⟩ := skipped
      refine .ite (.some begun) (.read fun _ => .read fun _ => .read fun _ => .ite
        (.read fun inode => .read fun mnode => .read fun seek =>
          .bind (raiseAt_relevels platform e₁ seek.2 index₁ inode.intermed (height + 1))
            fun made relevels => ?_) ?_)
      · exact (begun.trans relevels).andThen (ih made.2 index₁ made.1 made.1 made.1 inext true)
      · exact begun.andThen (ih e₁ index₁ iprevTall above abovePrev inext raised)

theorem bgRaiseIlevel_relevels (iprev iprevTall height : Nat) :
    Ends (bgRaiseIlevel platform e iprev iprevTall height) fun ended => e.Relevels ended.2 :=
  .read fun _ => raiseIlevelLoop_relevels platform height _ e _ _ _ _ _ _

theorem detachLoop_relevels (fuel : Nat) : ∀ (e : Enclave) newLow,
    Ends (detachLoop fuel e newLow) e.Relevels := by
  induction fuel with
  | zero => exact fun _ _ => .none _
  | succ fuel ih =>
      intro e newLow
      refine .ite (.some (.same rfl)) (.bind (e.setDown_relevels newLow 0) fun e₁ first =>
        .read fun inode => .read fun mnode => .ite (.none _)
          (.bind (e₁.setLevel_relevels inode.intermed (mnode.level - 1)) fun e₂ second =>
            .read fun node => ?_))
      have begun := first.trans second
      exact .ite
        (.bind (e₂.setNodeLevel_relevels mnode.node (node.level - 1)) fun e₃ third =>
          (begun.trans third).andThen (ih e₃ inode.right))
        (begun.andThen (ih e₂ inode.right))

theorem collectLoop_relevels (fuel : Nat) : ∀ (e : Enclave) oldLow,
    Ends (collectLoop platform fuel e oldLow) e.Relevels := by
  induction fuel with
  | zero => exact fun _ _ => .none _
  | succ fuel ih =>
      intro e oldLow
      exact .ite (.some (.same rfl)) (.read fun inode =>
        (e.inodeDelete_relevels platform oldLow).andThen (ih _ inode.right))

theorem bgLowerIlevel_relevels (newLow : Nat) : Ends (bgLowerIlevel platform e newLow) e.Relevels := by
  refine .read fun inode => .bind (detachLoop_relevels _ (e.record .lower) newLow) fun e₁ relevels => ?_
  have begun : e.Relevels e₁ := (Relevels.same rfl).trans relevels
  exact begun.andThen (collectLoop_relevels platform _ e₁ inode.down)

theorem growSentinel_relevels : Ends (growSentinel platform e) e.Relevels := by
  refine .read fun old => .bind (inodeNew_relevels platform e 0 e.sentinel old.intermed) fun made first =>
    .read fun mnode => .bind
      (setLevel_relevels { made.2 with sentinel := made.1 } old.intermed (mnode.level + 1))
      fun e₁ second => ?_
  have begun : e.Relevels e₁ := first.trans ((Relevels.same rfl).trans second)
  exact begun.andThen (e₁.raiseNodeLevel_relevels mnode.node (mnode.level + 1))

theorem raiseRows_relevels (inodes : List Nat) (fuel : Nat) : ∀ (e : Enclave) i raised,
    Ends (raiseRows platform inodes fuel e i raised) fun ended => e.Relevels ended.2 := by
  induction fuel with
  | zero => exact fun _ _ _ => .none _
  | succ fuel ih =>
      intro e i raised
      refine .read fun _ => .ite (.read fun low => .read fun high =>
        .bind (bgRaiseIlevel_relevels platform e low high (i + 1)) fun ended relevels => ?_)
        (.some (.same rfl))
      exact relevels.andThen (ih ended.2 (i + 1) ended.1)

theorem raiseIndexLayer_relevels :
    Ends (raiseIndexLayer platform e) fun ended => e.Relevels ended.2 := by
  refine .bind (e.bgTravMnodes_relevels platform) fun e₁ first => .read fun _ => .read fun inodes =>
    .read fun lowest => .read fun bottom =>
      .bind (bgRaiseMlevel_relevels platform e₁ bottom.intermed lowest) fun ended second =>
        .read fun level => ?_
  have begun := first.trans second
  -- what comes after the first new row, if there is one
  have rest : ∀ (inodes : List Nat) (e₂ : Enclave), e.Relevels e₂ → Ends
      ((raiseRows platform inodes (e₂.inodes.length + 1) e₂ 0 ended.1).bind fun rows =>
        if rows.1 = true then (growSentinel platform rows.2).bind fun e₃ => some (inodes, e₃)
        else some (inodes, rows.2)) fun ended => e.Relevels ended.2 := by
    intro inodes e₂ third
    refine .bind (raiseRows_relevels platform inodes _ e₂ 0 ended.1) fun rows fourth => ?_
    have passed := third.trans fourth
    exact .ite (.bind (rows.2.growSentinel_relevels platform) fun e₃ fifth => .some (passed.trans fifth))
      (.some passed)
  exact .ite
    (.bind (ended.2.growSentinel_relevels platform) fun e₂ third => rest _ e₂ (begun.trans third))
    (rest inodes ended.2 begun)

theorem updateIndexLayer_relevels : Ends (e.updateIndexLayer platform) e.Relevels := by
  refine .bind (e.raiseIndexLayer_relevels platform) fun ended relevels => ?_
  obtain ⟨inodes, e₁⟩ := ended
  dsimp only
  split
  · exact relevels.andThen (e₁.bgLowerIlevel_relevels platform _)
  · exact .some relevels

theorem clearLevelsLoop_relevels (fuel : Nat) : ∀ (e : Enclave) next,
    Ends (clearLevelsLoop fuel e next) e.Relevels := by
  induction fuel with
  | zero => exact fun _ _ => .none _
  | succ fuel ih =>
      intro e next
      refine .ite (.some (.same rfl)) (.read fun mnode =>
        .bind (e.setNodeLevel_relevels mnode.node 0) fun e₁ first =>
          .bind (e₁.setLevel_relevels next 0) fun e₂ second => ?_)
      exact (first.trans second).andThen (ih e₂ mnode.next)

theorem resetIndex_relevels : Ends (e.resetIndex platform) e.Relevels := by
  refine .read fun sentinel => .read fun node => .bind (e.setNodeLevel_relevels node.node 1) fun e₁ first =>
    .bind (e₁.setLevel_relevels sentinel.intermed 1) fun e₂ second =>
      .bind (clearLevelsLoop_relevels _ e₂ node.next) fun e₃ third =>
        .bind (inodeNew_relevels platform e₃ 0 0 sentinel.intermed) fun made fourth => .some ?_
  exact ((first.trans second).trans third).trans fourth

/-- A call of the helper that returns has changed no data node but in its level. -/
theorem call_relevels (call : Call) : Ends (e.call platform call) e.Relevels := by
  cases call with
  | job job => exact e.updateIntermediateLayer_relevels platform job
  | pass => exact e.updateIndexLayer_relevels platform
  | reset => exact e.resetIndex_relevels platform

end Enclave

end Hosk
