import Hosk.IndexSpine

/-! `update_index_layer` up to its test for lowering, on the links alone. -/

namespace Hosk

namespace Spine

variable {e e' : Enclave} {base i : Nat} {list : List Nat} {rows : List (List (Nat × Nat))}
  {row : List (Nat × Nat)} {platform : Platform}

theorem removes (honest : platform.Honest) (spine : Spine e base list rows) {before after : List Nat}
    {prev node : Nat} {gone : Mnode} (split : list = before ++ prev :: node :: after)
    (found : e.mnode node = some gone) (low : gone.level = 0) (marked : gone.marked = true) :
    ∃ e' mnode, e.bgMremove platform prev node = some (true, e') ∧
      Spine e' base (before ++ prev :: after) rows ∧
      e'.mnode prev = some mnode ∧ mnode.next = after.headD 0 ∧
      ∀ q ∈ before ++ [prev], Clear e.mnodes q → Clear e'.mnodes q := by
  obtain ⟨mnode, _, stored, _, _⟩ := spine.listed.found split
  have behind : list = (before ++ [prev]) ++ node :: after := by simp [split]
  obtain ⟨gone', _, found', onward, _⟩ := spine.listed.found behind
  obtain rfl : gone' = gone := Option.some.inj (found'.symm.trans found)
  have nodup := spine.listed.chain.nodup
  rw [behind, List.nodup_append, List.nodup_cons] at nodup
  have notNode : ∀ q ∈ before ++ prev :: after, q ≠ node := by
    intro q member same
    have inside : q ∈ before ++ [prev] ∨ q ∈ after := by
      simp only [List.mem_append, List.mem_cons, List.not_mem_nil, or_false] at member ⊢
      tauto
    rcases inside with inFirst | inAfter
    · exact nodup.2.2 q inFirst node List.mem_cons_self same
    · exact nodup.2.1.1 (same ▸ inAfter)
  have inOld : ∀ q ∈ before ++ prev :: after, q ∈ list := by
    intro q member
    simp only [split, List.mem_append, List.mem_cons] at member ⊢
    tauto
  let linked : Enclave := e.setMnode prev { mnode with next := gone'.next }
  obtain ⟨mnodes, zeroed, deletes, _, cells⟩ := honest.mnodeDelete_eq linked node
  let last : Enclave := { linked with mnodes := mnodes, trace := .mnodeDelete node zeroed :: linked.trace }
  have removed : e.bgMremove platform prev node = some (true, last) := by
    rw [Enclave.bgMremove, found]
    simp only [Option.bind_eq_bind, Option.bind_some, low, marked, and_self, if_true]
    rw [Enclave.setNext, show e.mnode prev = some mnode from stored]
    exact congrArg (fun after => some (true, after)) deletes
  have linkedAt : ∀ q, prev ≠ q → Store.get linked.mnodes q = Store.get e.mnodes q :=
    fun q other => Store.get_set_other _ other
  have atPrev : Store.get last.mnodes prev = some { mnode with next := gone'.next } :=
    (cells prev (Ne.symm (notNode prev (by simp)))).trans (Store.get_set_same _ _ _)
  refine ⟨last, _, removed, spine.relist split (fun _ _ _ _ => rfl) rfl ?_ ?_ ?_ ?_ ?_ ?_, atPrev,
    onward, ?_⟩
  · refine (spine.listed.remove split stored found').congr ?_ (LevelsOnly.refl _)
    exact fun q member mnode' kept =>
      ⟨mnode', (cells q (Ne.symm (notNode q member))).trans kept, rfl, rfl⟩
  · intro q member _
    by_cases isPrev : prev = q
    · subst isPrev
      exact (levelAt_found atPrev).trans (levelAt_found stored).symm
    · have unmoved : Store.get last.mnodes q = Store.get linked.mnodes q :=
        cells q (Ne.symm (notNode q member))
      rw [levelAt, levelAt, unmoved, linkedAt q isPrev]
  · intro q inAfter
    rcases List.mem_cons.mp inAfter with rfl | inAfter
    · exact .inr ((levelAt_found found').trans (congrArg some low))
    · exact .inl inAfter
  · exact fun q member => List.mem_filter.mpr
      ⟨spine.liveMnodes q (inOld q member), decide_eq_true (notNode q member)⟩
  · intro row inRows p inRow
    refine List.mem_filter.mpr ⟨spine.liveInodes row inRows p inRow, decide_eq_true ?_⟩
    rintro isNode
    exact spine.distinct row inRows p inRow (by rw [isNode, behind]; simp)
  · exact fun row inRows p inRow member => spine.distinct row inRows p inRow (inOld p.1 member)
  · intro q member clear mnode' kept level
    have notGone : q ≠ node := notNode q (by
      simp only [List.mem_append, List.mem_cons, List.not_mem_nil, or_false] at member ⊢
      tauto)
    have kept : Store.get linked.mnodes q = some mnode' :=
      (cells q (Ne.symm notGone)).symm.trans kept
    by_cases isPrev : prev = q
    · subst isPrev
      obtain rfl := Option.some.inj ((Store.get_set_same _ _ _).symm.trans kept)
      exact clear mnode stored level
    · exact clear mnode' ((linkedAt q isPrev).symm.trans kept) level

theorem count (spine : Spine e base list rows) (platform : Platform) (mnode : Mnode) :
    Spine (e.countMnode platform mnode) base list rows := by
  unfold Enclave.countMnode
  split
  · exact spine.congr (fun _ _ mnode found => ⟨mnode.marked, found⟩) (fun _ _ _ _ => rfl)
      (LevelsOnly.refl _) rfl fun _ _ alive => alive
  split
  · exact spine.congr (fun _ _ mnode found => ⟨mnode.marked, found⟩) (fun _ _ _ _ => rfl)
      (LevelsOnly.refl _) rfl fun _ _ alive => alive
  · exact spine

theorem count_mnodes (e : Enclave) (platform : Platform) (mnode : Mnode) :
    (e.countMnode platform mnode).mnodes = e.mnodes := by
  unfold Enclave.countMnode
  split
  · rfl
  split <;> rfl

/-- What the traversal has passed is clear: neither marked nor without a level. -/
theorem travMnodesLoop_clears (honest : platform.Honest) (todo : List Nat) : ∀ fuel (e : Enclave) done prev,
    Spine e base (done ++ prev :: todo) rows → (∀ q ∈ (done ++ [prev]).tail, Clear e.mnodes q) →
    todo.length < fuel → ∃ e' list', e.travMnodesLoop platform fuel prev (todo.headD 0) = some e' ∧
      Spine e' base list' rows ∧ ∀ q ∈ list'.tail, Clear e'.mnodes q := by
  induction todo with
  | nil =>
      intro fuel e done prev spine clear bound
      obtain ⟨fuel, rfl⟩ := Nat.exists_eq_succ_of_ne_zero (Nat.ne_of_gt bound)
      exact ⟨e, _, by rw [Enclave.travMnodesLoop]; rfl, spine, clear⟩
  | cons node rest ih =>
      intro fuel e done prev spine clear bound
      obtain ⟨fuel, rfl⟩ := Nat.exists_eq_succ_of_ne_zero (Nat.ne_of_gt (Nat.zero_lt_of_lt bound))
      have fewer : rest.length < fuel := by simpa using bound
      have nonzero : node ≠ 0 := spine.listed.chain.ne_zero node (by simp)
      obtain ⟨found, _, stored, onward, _⟩ := spine.listed.found
        (show done ++ prev :: node :: rest = (done ++ [prev]) ++ node :: rest by simp)
      have nodeStored : e.mnode node = some found := stored
      rw [List.headD_cons, Enclave.travMnodesLoop, if_neg nonzero]
      by_cases removes : found.level = 0 ∧ found.marked = true
      · obtain ⟨middle, mnode, removed, spine', before, next, clear'⟩ :=
          Spine.removes honest spine rfl stored removes.1 removes.2
        obtain ⟨e', list', loop, facts⟩ := ih fuel middle done prev spine'
          (fun q member => clear' q (List.mem_of_mem_tail member) (clear q member)) fewer
        refine ⟨e', list', ?_, facts⟩
        simp only [removed, Option.bind_eq_bind, Option.bind_some, if_true, before, next]
        exact loop
      · have stays : e.bgMremove platform prev node = some (false, e) := by
          rw [Enclave.bgMremove, nodeStored]
          simp only [Option.bind_eq_bind, Option.bind_some, if_neg removes]
        have spine' : Spine (e.countMnode platform found) base ((done ++ [prev]) ++ node :: rest) rows := by
          rw [List.append_assoc]
          exact spine.count platform found
        obtain ⟨e', list', loop, facts⟩ := ih fuel _ (done ++ [prev]) node spine' (by
          rw [count_mnodes]
          intro q member
          have inside : q ∈ (done ++ [prev]).tail ∨ q = node := by
            cases done <;> simpa [or_assoc] using member
          rcases inside with old | rfl
          · exact clear q old
          · intro mnode kept level
            obtain rfl := Option.some.inj (stored.symm.trans kept)
            exact Bool.eq_false_iff.mpr fun marked => removes ⟨level, marked⟩) fewer
        refine ⟨e', list', ?_, facts⟩
        simp only [stays, Option.bind_eq_bind, Option.bind_some, Bool.false_eq_true, if_false,
          nodeStored, onward]
        exact loop

theorem head (spine : Spine e base list rows) (located : rows[i]? = some row) : ∃ head rest inode,
    row = (head, base) :: rest ∧ e.inode head = some inode ∧ inode.intermed = base ∧
      inode.right = firstOf rest := by
  have inRows := List.mem_of_getElem? located
  obtain ⟨head, rest, same⟩ := spine.ladder.first row inRows
  obtain ⟨inode, found, intermed, right⟩ := spine.ladder.found inRows
    (show row = [] ++ (head, base) :: rest from same)
  exact ⟨head, rest, inode, same, found, intermed, right⟩

theorem base_found (spine : Spine e base list rows) : ∃ mnode, e.mnode base = some mnode ∧
    mnode.level = rows.length ∧ mnode.next = list.tail.headD 0 := by
  obtain ⟨rest, same⟩ := spine.listed.first
  obtain ⟨mnode, _, found, onward, _⟩ := spine.listed.found (show list = [] ++ base :: rest from same)
  have height := spine.height
  rw [levelAt_found found] at height
  exact ⟨mnode, found, Option.some.inj height, by rw [onward, same]; rfl⟩

theorem sentinel_head (spine : Spine e base list rows) : ∃ front row inode, rows = front ++ [row] ∧
    firstOf row = e.sentinel ∧ e.inode e.sentinel = some inode ∧ inode.intermed = base := by
  obtain ⟨front, row, split⟩ := (List.eq_nil_or_concat rows).resolve_left spine.ladder.nonempty
  rw [List.concat_eq_append] at split
  subst split
  have heads := spine.ladder.heads
  rw [List.map_append, List.map_singleton, List.reverse_append, List.reverse_singleton] at heads
  have isSentinel : e.sentinel = firstOf row := heads.start_eq
  obtain ⟨head, rest, inode, same, found, intermed, _⟩ := spine.head (List.getElem?_concat_length)
  refine ⟨front, row, inode, rfl, isSentinel.symm, ?_, intermed⟩
  rw [isSentinel, same]
  exact found

theorem bgTravMnodes_clears (honest : platform.Honest) (spine : Spine e base list rows) : ∃ e' list',
    e.bgTravMnodes platform = some e' ∧ Spine e' base list' rows ∧
      ∀ q ∈ list'.tail, Clear e'.mnodes q := by
  obtain ⟨_, _, inode, _, _, found, intermed⟩ := spine.sentinel_head
  obtain ⟨mnode, stored, _, onward⟩ := spine.base_found
  obtain ⟨rest, same⟩ := spine.listed.first
  have size := spine.listed.length_le
  rw [same, List.length_cons] at size
  have whole := spine
  rw [same] at whole
  obtain ⟨e', list', loop, facts⟩ := travMnodesLoop_clears honest rest (e.mnodes.length + 1) e [] base
    whole (fun q member => absurd member List.not_mem_nil) (by omega)
  refine ⟨e', list', ?_, facts⟩
  rw [Enclave.bgTravMnodes, found]
  simp only [Option.bind_eq_bind, Option.bind_some, intermed, stored, onward, same, List.tail_cons]
  exact loop

theorem cell (spine : Spine e base list rows) (located : rows[i]? = some row) {p : Nat × Nat}
    (member : p ∈ row) : ∃ inode mnode, e.inode p.1 = some inode ∧ inode.intermed = p.2 ∧
      e.mnode p.2 = some mnode ∧ p.2 ∈ list := by
  obtain ⟨inode, found, intermed⟩ := Option.map_eq_some_iff.mp
    (spine.ladder.isOver row (List.mem_of_getElem? located) p member)
  have inList : p.2 ∈ list := by
    obtain ⟨head, rest, same⟩ := spine.ladder.first row (List.mem_of_getElem? located)
    have tall := spine.tall i row located
    rw [same] at member tall
    rcases List.mem_cons.mp member with rfl | inRest
    · exact spine.listed.base_mem
    · exact List.mem_of_mem_tail (tall p inRest).1
  obtain ⟨mnode, _, stored, _⟩ := spine.listed.data p.2 inList
  exact ⟨inode, mnode, found, intermed, stored, inList⟩

theorem seekAbove_from (spine : Spine e base list rows) (located : rows[i]? = some row)
    {start : Nat} (key : Nat) {first : Inode} (startFound : e.inode start = some first) :
    ∀ rest fuel before p, row = before ++ p :: rest →
      (rest ≠ [] → first.right ≠ 0 ∧ first.right ∉ rest.tail.map Prod.fst) → rest.length < fuel →
      ∃ above q, q ∈ row ∧ e.seekAbove start key fuel (firstOf rest) p.1 = some (above, q.1) := by
  have inRows := List.mem_of_getElem? located
  intro rest
  induction rest with
  | nil =>
      intro fuel before p split _ bound
      obtain ⟨fuel, rfl⟩ := Nat.exists_eq_succ_of_ne_zero (Nat.ne_of_gt bound)
      exact ⟨0, p, by simp [split], rfl⟩
  | cons r rest ih =>
      intro fuel before p split apart bound
      obtain ⟨fuel, rfl⟩ := Nat.exists_eq_succ_of_ne_zero (Nat.ne_of_gt (Nat.zero_lt_of_lt bound))
      have inRow : r ∈ row := by simp [split]
      have behind : row = (before ++ [p]) ++ r :: rest := by simp [split]
      obtain ⟨inode, mnode, found, isOver, stored, _⟩ := spine.cell located inRow
      obtain ⟨inode', found', _, right⟩ := spine.ladder.found inRows behind
      obtain rfl : inode' = inode := Option.some.inj (found'.symm.trans found)
      obtain ⟨back, backFound, _, backRight⟩ := spine.ladder.found inRows split
      have backStored : e.inode p.1 = some back := backFound
      rw [firstOf_cons, Enclave.seekAbove, if_neg (spine.ladder.nonzero inRows inRow)]
      simp only [found, isOver, stored, Option.bind_eq_bind, Option.bind_some]
      by_cases below : mnode.key < key
      · rw [if_pos below]
        obtain ⟨present, notLater⟩ := apart (List.cons_ne_nil r rest)
        have moves : firstOf rest ≠ first.right := by
          intro same
          cases rest with
          | nil => exact present same.symm
          | cons s later =>
              refine notLater ?_
              rw [← same]
              simp
        simp only [startFound, backStored, Option.bind_some, backRight, right, if_neg moves,
          firstOf_cons]
        refine ih fuel (before ++ [p]) r behind ?_ (by simpa using bound)
        intro _
        refine ⟨present, fun later => notLater ?_⟩
        cases rest with
        | nil => exact later
        | cons s rest => exact List.mem_cons_of_mem _ later
      · rw [if_neg below]
        exact ⟨r.1, p, by simp [split], rfl⟩

theorem seekAbove_inside (spine : Spine e base list rows) (located : rows[i]? = some row)
    (key : Nat) {p : Nat × Nat} (inRow : p ∈ row) : ∃ above q, q ∈ row ∧
      e.seekAbove p.1 key (e.inodes.length + 1) p.1 p.1 = some (above, q.1) := by
  have inRows := List.mem_of_getElem? located
  obtain ⟨before, rest, split⟩ := List.append_of_mem inRow
  obtain ⟨inode, mnode, found, isOver, stored, _⟩ := spine.cell located inRow
  obtain ⟨inode', found', _, right⟩ := spine.ladder.found inRows split
  obtain rfl : inode' = inode := Option.some.inj (found'.symm.trans found)
  have size := spine.ladder.row_length_le inRows
  rw [split, List.length_append, List.length_cons] at size
  rw [Enclave.seekAbove, if_neg (spine.ladder.nonzero inRows inRow)]
  simp only [found, isOver, stored, Option.bind_eq_bind, Option.bind_some]
  by_cases below : mnode.key < key
  · rw [if_pos below, if_pos trivial, right]
    refine spine.seekAbove_from located key found rest _ before p split ?_ (by omega)
    intro present
    cases rest with
    | nil => exact absurd rfl present
    | cons r rest =>
        have nodup := (spine.ladder.linked row inRows).nodup
        rw [split, List.map_append, List.map_cons, List.map_cons, List.nodup_append, List.nodup_cons,
          List.nodup_cons] at nodup
        rw [right]
        exact ⟨spine.ladder.nonzero inRows (by simp [split]), nodup.2.1.2.1⟩
  · rw [if_neg below]
    exact ⟨p.1, p, inRow, rfl⟩

theorem not_linked (spine : Spine e base list rows) (located : rows[i]? = some row) {m : Nat}
    (inTail : m ∈ list.tail) {mnode : Mnode} (stored : e.mnode m = some mnode)
    (low : mnode.level ≤ i) : m ∉ row.map Prod.snd := by
  intro member
  obtain ⟨p, inRow, rfl⟩ := List.mem_map.mp member
  obtain ⟨head, rest, same⟩ := spine.ladder.first row (List.mem_of_getElem? located)
  have tall := spine.tall i row located
  rw [same] at inRow tall
  rcases List.mem_cons.mp inRow with rfl | inRest
  · exact spine.listed.tail_ne_base inTail
  · obtain ⟨_, level, isLevel, above⟩ := tall p inRest
    rw [levelAt_found stored] at isLevel
    obtain rfl := Option.some.inj isLevel
    omega

theorem raiseAt_links (honest : platform.Honest) (spine : Spine e base list rows)
    (located : rows[i]? = some row) {p : Nat × Nat} (inRow : p ∈ row) {m : Nat} (down : Nat)
    (inTail : m ∈ list.tail) {mnode : Mnode} (stored : e.mnode m = some mnode)
    (low : mnode.level ≤ i) : ∃ fresh e' row',
      e.raiseAt platform p.1 down m (i + 1) = some (fresh, e') ∧
      Spine e' base list (rows.set i row') ∧ (fresh, m) ∈ row' ∧ firstOf row' = firstOf row ∧
      e'.trace = .inodeNew fresh mnode.marked :: e.trace ∧
      ∀ q, q ∈ list → Clear e.mnodes q → Clear e'.mnodes q := by
  obtain ⟨nonzero, notListed, notLinked⟩ := spine.fresh honest
  have inRows := List.mem_of_getElem? located
  obtain ⟨first, last, split⟩ := List.append_of_mem inRow
  have inList : m ∈ list := List.mem_of_mem_tail inTail
  obtain ⟨behind, found, _, right⟩ := spine.ladder.found inRows split
  have behindFound : e.inode p.1 = some behind := found
  obtain ⟨mnode', node, stored', nodeFound⟩ := spine.listed.data m inList
  obtain rfl : mnode' = mnode := Option.some.inj (stored'.symm.trans stored)
  let new : Inode := ⟨firstOf last, down, m, mnode'.key⟩
  let made : Enclave := { e with
    inodes := Store.set e.inodes (platform.place e) new
    mnodes := Store.erase e.mnodes (platform.place e)
    trace := .inodeNew (platform.place e) mnode'.marked :: e.trace }
  let raised : Enclave := (made.setInode p.1 { behind with right := platform.place e }).setMnode m
    { mnode' with level := i + 1 }
  obtain ⟨nodes, levelled, levelsOnly⟩ := raised.raiseNodeLevel_returns (i + 1) nodeFound
  have apart : ∀ q ∈ list, platform.place e ≠ q := fun q member same => notListed (same ▸ member)
  have kept : ∀ q ∈ list, Store.get made.mnodes q = Store.get e.mnodes q :=
    fun q member => Store.get_erase_other (apart q member)
  have atM : Store.get raised.mnodes m = some { mnode' with level := i + 1 } :=
    Store.get_set_same _ _ _
  have elsewhere : ∀ q ∈ list, m ≠ q → Store.get raised.mnodes q = Store.get e.mnodes q :=
    fun q member other => (Store.get_set_other _ other).trans (kept q member)
  have computed : e.raiseAt platform p.1 down m (i + 1) =
      some (platform.place e, { raised with nodes := nodes }) := by
    have allocated : e.inodeNew platform behind.right down m = some (platform.place e, made) := by
      rw [Enclave.inodeNew, stored, right]
      rfl
    have linked : made.setRight p.1 (platform.place e) =
        some (made.setInode p.1 { behind with right := platform.place e }) := by
      rw [Enclave.setRight, Enclave.inode, Store.get_set_other _ (notLinked row inRows p inRow), found]
      rfl
    have levelSet : (made.setInode p.1 { behind with right := platform.place e }).setLevel m (i + 1) =
        some raised := by
      rw [Enclave.setLevel, Enclave.mnode, Enclave.setInode, kept m inList, stored']
      rfl
    rw [Enclave.raiseAt]
    simp only [behindFound, allocated, linked, levelSet, show raised.mnode m = _ from atM,
      Option.bind_eq_bind, Option.bind_some, levelled]
  have newOnce : new.intermed ∉ row.map Prod.snd := spine.not_linked located inTail stored low
  have ladder := spine.ladder.insert located new split found nonzero
    (fun other inOld q inOther same => notLinked other inOld q inOther same.symm) rfl newOnce
  have baseApart : m ≠ base := fun same => spine.listed.tail_ne_base (same ▸ inTail)
  refine ⟨platform.place e, { raised with nodes := nodes },
    first ++ p :: (platform.place e, m) :: last, computed, spine.setRow located ?_ ladder ?_ ?_ ?_ ?_
      (fun _ alive => List.mem_cons_of_mem _ alive), by simp, ?_, rfl, ?_⟩
  · refine spine.listed.congr ?_ levelsOnly
    intro q member cell stored
    by_cases isM : m = q
    · subst isM
      obtain rfl : mnode' = cell := Option.some.inj (stored'.symm.trans stored)
      exact ⟨_, atM, rfl, rfl⟩
    · exact ⟨cell, (elsewhere q member isM).trans stored, rfl, rfl⟩
  · exact congrArg (Option.map Mnode.level) (elsewhere base spine.listed.base_mem baseApart)
  · intro q member level isLevel
    by_cases isM : m = q
    · subst isM
      rw [levelAt_found stored] at isLevel
      obtain rfl := Option.some.inj isLevel
      exact ⟨i + 1, levelAt_found atM, Nat.le_succ_of_le low⟩
    · exact ⟨level, (congrArg (Option.map Mnode.level) (elsewhere q member isM)).trans isLevel,
        Nat.le_refl _⟩
  · intro q member
    by_cases isNew : q = (platform.place e, m)
    · subst isNew
      exact .inr ⟨inTail, i + 1, levelAt_found atM, Nat.lt_succ_self i⟩
    · refine .inl ?_
      rw [split]
      cases first <;> simp_all
  · intro q member
    by_cases isNew : q = (platform.place e, m)
    · subst isNew
      exact .inr ⟨List.mem_cons_self, notListed⟩
    · refine .inl ?_
      simp only [split, List.mem_append, List.mem_cons] at member ⊢
      tauto
  · rw [split]
    exact Repr.firstOf_append_cons
  · intro q member clear cell found level
    by_cases isM : m = q
    · subst isM
      obtain rfl := Option.some.inj (atM.symm.trans found)
      exact absurd level (Nat.succ_ne_zero i)
    · exact clear cell ((elsewhere q member isM).symm.trans found) level

end Spine

/-- No inode is created over a marked mnode between the two states. -/
def RaisedUnmarked (e e' : Enclave) : Prop :=
  ∃ events, e'.trace = events ++ e.trace ∧ ∀ address, Event.inodeNew address true ∉ events

namespace RaisedUnmarked

variable {e e' e'' : Enclave}

theorem refl (e : Enclave) : RaisedUnmarked e e := ⟨[], rfl, fun _ => List.not_mem_nil⟩

theorem trans (first : RaisedUnmarked e e') (second : RaisedUnmarked e' e'') :
    RaisedUnmarked e e'' := by
  obtain ⟨events, trace, unmarked⟩ := first
  obtain ⟨later, trace', unmarked'⟩ := second
  refine ⟨later ++ events, by rw [trace', trace, List.append_assoc], ?_⟩
  intro address member
  exact (List.mem_append.mp member).elim (unmarked' address) (unmarked address)

theorem one {event : Event} (trace : e'.trace = event :: e.trace)
    (unmarked : ∀ address, event ≠ .inodeNew address true) : RaisedUnmarked e e' :=
  ⟨[event], trace, fun address member => unmarked address (List.mem_singleton.mp member).symm⟩

end RaisedUnmarked

namespace Spine

variable {e e' : Enclave} {base i : Nat} {list : List Nat} {rows : List (List (Nat × Nat))}
  {row : List (Nat × Nat)} {platform : Platform}

theorem raiseMlevelLoop_links (honest : platform.Honest) (rest : List Nat) :
    ∀ fuel e rows done prev node row p raised, Spine e base list rows →
      (∀ q ∈ list.tail, Clear e.mnodes q) → list = done ++ prev :: node :: rest →
      rows[0]? = some row → p ∈ row → rest.length < fuel → ∃ raised' e' rows',
        e.raiseMlevelLoop platform base fuel p.1 p.1 p.1 prev node (rest.headD 0) raised =
          some (raised', e') ∧
        Spine e' base list rows' ∧ rows'.map firstOf = rows.map firstOf ∧ RaisedUnmarked e e' := by
  induction rest with
  | nil =>
      intro fuel e rows done prev node row p raised spine clear split located inRow bound
      obtain ⟨fuel, rfl⟩ := Nat.exists_eq_succ_of_ne_zero (Nat.ne_of_gt bound)
      exact ⟨raised, e, rows, by rw [Enclave.raiseMlevelLoop]; rfl, spine, rfl, .refl e⟩
  | cons next rest ih =>
      intro fuel e rows done prev node row p raised spine clear split located inRow bound
      obtain ⟨fuel, rfl⟩ := Nat.exists_eq_succ_of_ne_zero (Nat.ne_of_gt (Nat.zero_lt_of_lt bound))
      have fewer : rest.length < fuel := by simpa using bound
      have nodeSplit : list = (done ++ [prev]) ++ node :: next :: rest := by simp [split]
      have nonzero : next ≠ 0 := spine.listed.chain.ne_zero next (by simp [split])
      obtain ⟨before, _, prevFound, _⟩ := spine.listed.found split
      obtain ⟨middle, _, nodeFound, _⟩ := spine.listed.found nodeSplit
      obtain ⟨after, _, nextFound, onward, _⟩ := spine.listed.found
        (show list = (done ++ [prev, node]) ++ next :: rest by simp [split])
      obtain ⟨start, startFound, _⟩ := spine.base_found
      have prevStored : e.mnode prev = some before := prevFound
      have nodeStored : e.mnode node = some middle := nodeFound
      have nextStored : e.mnode next = some after := nextFound
      have inTail : node ∈ list.tail := by
        rw [split]
        cases done <;> simp
      rw [List.headD_cons, Enclave.raiseMlevelLoop, if_neg nonzero]
      simp only [startFound, prevStored, nodeStored, nextStored, Option.bind_eq_bind,
        Option.bind_some, onward]
      by_cases low : start.marked = false ∧ before.level = 0 ∧ middle.level = 0 ∧ after.level = 0
      · rw [if_pos low]
        obtain ⟨above, q, inRow', sought⟩ := spine.seekAbove_inside located middle.key inRow
        obtain ⟨fresh, raisedTo, row', linked, spine', inNew, sameFirst, trace, clear'⟩ :=
          spine.raiseAt_links honest located inRow' 0 inTail nodeStored (Nat.le_of_eq low.2.2.1)
        have within := (List.getElem?_eq_some_iff.mp located).1
        obtain ⟨raised', e', rows', loop, final, heads, unmarked⟩ := ih fuel raisedTo (rows.set 0 row')
          (done ++ [prev]) node next row' (fresh, node) true spine'
          (fun q member => clear' q (List.mem_of_mem_tail member) (clear q member)) nodeSplit
          (by rw [List.getElem?_set, if_pos rfl, if_pos within]) inNew fewer
        refine ⟨raised', e', rows', ?_, final, ?_, .trans (.one trace ?_) unmarked⟩
        · simp only [sought, Option.bind_some, linked]
          exact loop
        · rw [heads, Repr.heads_set located sameFirst]
        · intro address same
          have unmarkedNode := clear node inTail middle nodeStored low.2.2.1
          rw [unmarkedNode] at same
          cases same
      · rw [if_neg low]
        exact ih fuel e rows (done ++ [prev]) node next row p raised spine clear nodeSplit located
          inRow fewer

theorem bgRaiseMlevel_links (honest : platform.Honest) (spine : Spine e base list rows)
    (clear : ∀ q ∈ list.tail, Clear e.mnodes q) (located : rows[0]? = some row) :
    ∃ raised e' rows', e.bgRaiseMlevel platform base (firstOf row) = some (raised, e') ∧
      Spine e' base list rows' ∧ rows'.map firstOf = rows.map firstOf ∧ RaisedUnmarked e e' := by
  obtain ⟨start, startFound, _, onward⟩ := spine.base_found
  obtain ⟨rest, same⟩ := spine.listed.first
  rw [same, List.tail_cons] at onward
  rw [Enclave.bgRaiseMlevel]
  simp only [startFound, Option.bind_eq_bind, Option.bind_some, onward]
  cases rest with
  | nil => exact ⟨false, e, rows, rfl, spine, rfl, .refl e⟩
  | cons node rest =>
      have nonzero : node ≠ 0 := spine.listed.chain.ne_zero node (by simp [same])
      obtain ⟨found, _, stored, next, _⟩ := spine.listed.found
        (show list = [base] ++ node :: rest from same)
      have nodeStored : e.mnode node = some found := stored
      have size := spine.listed.length_le
      rw [same, List.length_cons, List.length_cons] at size
      obtain ⟨head, cells, inode, isRow, _⟩ := spine.head located
      rw [List.headD_cons, if_neg nonzero, nodeStored, isRow, firstOf_cons, Option.bind_some, next]
      exact raiseMlevelLoop_links honest rest (e.mnodes.length + 1) e rows [] base node row (head, base)
        false spine clear same located (by simp [isRow]) (by omega)

theorem unlink_links (spine : Spine e base list rows) (located : rows[i]? = some row)
    {first last : List (Nat × Nat)} {p q : Nat × Nat} (split : row = first ++ p :: q :: last) :
    ∃ e', (e.record (.unlink q.1)).setRight p.1 (firstOf last) = some e' ∧
      Spine e' base list (rows.set i (first ++ p :: last)) := by
  obtain ⟨inode, found, _, _⟩ := spine.ladder.found (List.mem_of_getElem? located) split
  have kept : (first ++ p :: last).Sublist row := by
    rw [split]
    exact (List.Sublist.refl first).append ((List.sublist_cons_self q last).cons_cons p)
  refine ⟨(e.record (.unlink q.1)).setInode p.1 { inode with right := firstOf last }, ?_,
    spine.setRow located spine.listed (spine.ladder.unlink located split found) rfl
      (fun q _ level isLevel => ⟨level, isLevel, Nat.le_refl _⟩) ?_
      (fun r member => .inl (kept.subset member)) fun _ alive => alive⟩
  · rw [Enclave.setRight, Enclave.inode]
    exact congrArg (Option.bind · _) found
  · intro r member
    refine .inl ?_
    rw [split]
    cases first with
    | nil => exact List.mem_cons_of_mem _ member
    | cons head tail =>
        simp only [List.cons_append, List.tail_cons, List.mem_append, List.mem_cons] at member ⊢
        tauto

theorem skipMarked_links (rest : List (Nat × Nat)) :
    ∀ fuel e rows row first p q, Spine e base list rows → rows[i]? = some row →
      row = first ++ p :: q :: rest → rest.length < fuel →
      ∃ e' kept index, Enclave.skipMarked p.1 fuel e q.1 (firstOf rest) =
          some (e', index, firstOf kept.tail) ∧
        (∀ k ∈ kept.head?, index = k.1) ∧ kept.length ≤ rest.length + 1 ∧
        Spine e' base list (rows.set i (first ++ p :: kept)) := by
  induction rest with
  | nil =>
      intro fuel e rows row first p q spine located split bound
      obtain ⟨fuel, rfl⟩ := Nat.exists_eq_succ_of_ne_zero (Nat.ne_of_gt bound)
      obtain ⟨inode, mnode, found, isOver, stored, _⟩ := spine.cell located (by simp [split] : q ∈ row)
      rw [Enclave.skipMarked]
      simp only [found, isOver, stored, Option.bind_eq_bind, Option.bind_some]
      cases isMarked : mnode.marked with
      | true =>
          obtain ⟨e', unlinked, spine'⟩ := spine.unlink_links located split
          have done : (e.record (.unlink q.1)).setRight p.1 0 = some e' := unlinked
          exact ⟨e', [], q.1, by simp [done], by simp, by simp, spine'⟩
      | false =>
          refine ⟨e, [q], q.1, by simp, by simp, by simp, ?_⟩
          rw [← split, Repr.set_same located]
          exact spine
  | cons r rest ih =>
      intro fuel e rows row first p q spine located split bound
      obtain ⟨fuel, rfl⟩ := Nat.exists_eq_succ_of_ne_zero (Nat.ne_of_gt (Nat.zero_lt_of_lt bound))
      have fewer : rest.length < fuel := by simpa using bound
      have inRows := List.mem_of_getElem? located
      have nonzero : r.1 ≠ 0 := spine.ladder.nonzero inRows (by simp [split])
      obtain ⟨inode, mnode, found, isOver, stored, _⟩ := spine.cell located (by simp [split] : q ∈ row)
      rw [Enclave.skipMarked]
      simp only [found, isOver, stored, Option.bind_eq_bind, Option.bind_some, firstOf_cons]
      cases isMarked : mnode.marked with
      | true =>
          obtain ⟨middle, unlinked, spine'⟩ := spine.unlink_links located split
          have within := (List.getElem?_eq_some_iff.mp located).1
          have located' : (rows.set i (first ++ p :: r :: rest))[i]? =
              some (first ++ p :: r :: rest) := by
            rw [List.getElem?_set, if_pos rfl, if_pos within]
          obtain ⟨next, nextFound, _, nextRight⟩ := spine'.ladder.found
            (List.mem_of_getElem? located')
            (show first ++ p :: r :: rest = (first ++ [p]) ++ r :: rest by simp)
          have nextStored : middle.inode r.1 = some next := nextFound
          obtain ⟨e', kept, index, loop, isIndex, size, final⟩ :=
            ih fuel middle _ _ first p r spine' located' rfl fewer
          have done : (e.record (.unlink q.1)).setRight p.1 r.1 = some middle := unlinked
          rw [List.set_set] at final
          exact ⟨e', kept, index, by simp [done, nonzero, nextStored, nextRight, loop], isIndex,
            Nat.le_succ_of_le size, final⟩
      | false =>
          refine ⟨e, q :: r :: rest, q.1, by simp, by simp, by simp, ?_⟩
          rw [← split, Repr.set_same located]
          exact spine

theorem levelOver_links (spine : Spine e base list rows) (located : rows[i]? = some row)
    {p : Nat × Nat} (inRow : p ∈ row) : ∃ inode mnode, e.inode p.1 = some inode ∧
      inode.intermed = p.2 ∧ e.mnode p.2 = some mnode ∧ e.levelOver p.1 = some mnode.level := by
  obtain ⟨inode, mnode, found, isOver, stored, _⟩ := spine.cell located inRow
  refine ⟨inode, mnode, found, isOver, stored, ?_⟩
  rw [Enclave.levelOver, found]
  simp only [Option.bind_eq_bind, Option.bind_some, isOver, stored]

theorem raiseIlevelLoop_links (honest : platform.Honest) (fuel : Nat) :
    ∀ e rows low high first p todo c raised, Spine e base list rows → rows[i]? = some low →
      low = first ++ p :: todo → rows[i + 1]? = some high → c ∈ high → todo.length < fuel →
      ∃ raised' e' rows', e.raiseIlevelLoop platform (i + 1) fuel p.1 c.1 c.1 c.1 (firstOf todo) raised =
          some (raised', e') ∧ Spine e' base list rows' ∧ rows'.map firstOf = rows.map firstOf := by
  induction fuel with
  | zero =>
      intro e rows low high first p todo c raised _ _ _ _ _ bound
      exact absurd bound (Nat.not_lt_zero _)
  | succ fuel ih =>
      intro e rows low high first p todo c raised spine located split locatedHigh inHigh bound
      have inRows := List.mem_of_getElem? located
      rcases todo with _ | ⟨q, _ | ⟨r, rest⟩⟩
      · exact ⟨raised, e, rows, by rw [firstOf_nil, Enclave.raiseIlevelLoop, if_pos rfl], spine, rfl⟩
      · have nonzero : q.1 ≠ 0 := spine.ladder.nonzero inRows (by simp [split])
        obtain ⟨inode, found, _, right⟩ := spine.ladder.found inRows
          (show low = (first ++ [p]) ++ q :: [] by simp [split])
        have stored : e.inode q.1 = some inode := found
        refine ⟨raised, e, rows, ?_, spine, rfl⟩
        rw [firstOf_cons, Enclave.raiseIlevelLoop, if_neg nonzero]
        simp [stored, right]
      · have nonzero : q.1 ≠ 0 := spine.ladder.nonzero inRows (by simp [split])
        have nextNonzero : r.1 ≠ 0 := spine.ladder.nonzero inRows (by simp [split])
        obtain ⟨inode, found, _, right⟩ := spine.ladder.found inRows
          (show low = (first ++ [p]) ++ q :: r :: rest by simp [split])
        have stored : e.inode q.1 = some inode := found
        have rowSize := spine.ladder.row_length_le inRows
        rw [split, List.length_append, List.length_cons, List.length_cons] at rowSize
        obtain ⟨e₁, kept, index, skipped, isIndex, size, spine₁⟩ :=
          skipMarked_links (r :: rest) (e.inodes.length + 1) e rows low first p q spine located split
            (by omega)
        have within := (List.getElem?_eq_some_iff.mp located).1
        have located₁ : (rows.set i (first ++ p :: kept))[i]? = some (first ++ p :: kept) := by
          rw [List.getElem?_set, if_pos rfl, if_pos within]
        have locatedHigh₁ : (rows.set i (first ++ p :: kept))[i + 1]? = some high := by
          rw [List.getElem?_set_ne (Nat.succ_ne_self i).symm]
          exact locatedHigh
        have heads₁ : (rows.set i (first ++ p :: kept)).map firstOf = rows.map firstOf :=
          Repr.heads_set located (by rw [split]; exact Repr.firstOf_append_cons)
        rw [firstOf_cons] at skipped
        rw [firstOf_cons, Enclave.raiseIlevelLoop, if_neg nonzero]
        simp only [stored, right, firstOf_cons, if_neg nextNonzero, skipped, Option.bind_eq_bind,
          Option.bind_some]
        rcases kept with _ | ⟨k, _ | ⟨k', ks⟩⟩
        · exact ⟨raised, e₁, _, by simp, spine₁, heads₁⟩
        · exact ⟨raised, e₁, _, by simp, spine₁, heads₁⟩
        · obtain rfl : index = k.1 := isIndex k rfl
          have inextNonzero : k'.1 ≠ 0 :=
            spine₁.ladder.nonzero (List.mem_of_getElem? located₁) (by simp)
          obtain ⟨_, before, _, _, _, beforeLevel⟩ := spine₁.levelOver_links located₁ (by simp : p ∈ _)
          obtain ⟨kInode, middle, kFound, kOver, kStored, middleLevel⟩ :=
            spine₁.levelOver_links located₁ (by simp : k ∈ _)
          obtain ⟨_, after, _, _, _, afterLevel⟩ := spine₁.levelOver_links located₁ (by simp : k' ∈ _)
          have smaller : (k' :: ks).length < fuel := by
            simp only [List.length_cons] at size bound ⊢
            omega
          simp only [List.tail_cons, firstOf_cons, if_neg inextNonzero, beforeLevel, middleLevel,
            afterLevel, Option.bind_some]
          by_cases isLow : before.level ≤ i + 1 ∧ middle.level ≤ i + 1 ∧ after.level ≤ i + 1
          · rw [if_pos isLow]
            have inTail : k.2 ∈ list.tail := by
              refine (spine₁.tall i _ located₁ k ?_).1
              cases first <;> simp
            obtain ⟨above, a, inHigh₁, sought⟩ :=
              spine₁.seekAbove_inside locatedHigh₁ middle.key inHigh
            obtain ⟨fresh, e₂, row', linked, spine₂, inNew, sameFirst, _⟩ :=
              spine₁.raiseAt_links honest locatedHigh₁ inHigh₁ k.1 inTail kStored isLow.2.1
            have withinHigh := (List.getElem?_eq_some_iff.mp locatedHigh₁).1
            obtain ⟨raised', e', rows', loop, final, heads'⟩ := ih e₂ _ (first ++ p :: k :: k' :: ks)
              row' (first ++ [p]) k (k' :: ks) (fresh, k.2) true spine₂
              (by rw [List.getElem?_set_ne (Nat.succ_ne_self i)]; exact located₁) (by simp)
              (by rw [List.getElem?_set, if_pos rfl, if_pos withinHigh]) inNew smaller
            refine ⟨raised', e', rows', ?_, final, ?_⟩
            · simp only [kFound, kOver, kStored, Option.bind_some, sought, linked]
              exact loop
            · rw [heads', Repr.heads_set locatedHigh₁ sameFirst, heads₁]
          · rw [if_neg isLow]
            obtain ⟨raised', e', rows', loop, final, heads'⟩ := ih e₁ _ (first ++ p :: k :: k' :: ks)
              high (first ++ [p]) k (k' :: ks) c raised spine₁ located₁ (by simp) locatedHigh₁
              inHigh smaller
            exact ⟨raised', e', rows', loop, final, heads'.trans heads₁⟩

theorem bgRaiseIlevel_links (honest : platform.Honest) (spine : Spine e base list rows)
    {low high : List (Nat × Nat)} (located : rows[i]? = some low)
    (locatedHigh : rows[i + 1]? = some high) : ∃ raised e' rows',
      e.bgRaiseIlevel platform (firstOf low) (firstOf high) (i + 1) = some (raised, e') ∧
      Spine e' base list rows' ∧ rows'.map firstOf = rows.map firstOf := by
  obtain ⟨head, rest, inode, same, found, _, right⟩ := spine.head located
  obtain ⟨top, cells, _, sameHigh, _⟩ := spine.head locatedHigh
  have size := spine.ladder.row_length_le (List.mem_of_getElem? located)
  rw [same, List.length_cons] at size
  rw [Enclave.bgRaiseIlevel, same, sameHigh, firstOf_cons, found]
  simp only [Option.bind_eq_bind, Option.bind_some, right]
  exact raiseIlevelLoop_links honest (e.inodes.length + 1) e rows low high [] (head, base) rest
    (top, base) false spine located same locatedHigh (by simp [sameHigh]) (by omega)

theorem sentinelLevel_links (spine : Spine e base list rows) : e.sentinelLevel = some rows.length := by
  obtain ⟨_, _, inode, _, _, found, intermed⟩ := spine.sentinel_head
  obtain ⟨mnode, stored, level, _⟩ := spine.base_found
  rw [Enclave.sentinelLevel, Enclave.levelOver, found]
  simp only [Option.bind_eq_bind, Option.bind_some, intermed, stored, level]

theorem firstInodes_chain (e : Enclave) (addresses : List Nat) : ∀ item found,
    Chain (downAt e.inodes) item addresses →
      e.firstInodes addresses.length item found = some (addresses.reverse ++ found) := by
  induction addresses with
  | nil =>
      intro item found chain
      rw [List.length_nil, Enclave.firstInodes, if_pos (show item = 0 from chain)]
      rfl
  | cons address rest ih =>
      rintro item found ⟨rfl, _, successor, down, later⟩
      obtain ⟨inode, stored, rfl⟩ := Option.map_eq_some_iff.mp down
      rw [List.length_cons, Enclave.firstInodes, show e.inode item = some inode from stored]
      simp only [Option.bind_eq_bind, Option.bind_some, ih inode.down (item :: found) later,
        List.reverse_cons, List.append_assoc, List.singleton_append]

theorem firstInodes_links (spine : Spine e base list rows) :
    e.firstInodes rows.length e.sentinel [] = some (rows.map firstOf) := by
  have collected := firstInodes_chain e _ e.sentinel [] spine.ladder.heads
  rw [List.length_reverse, List.length_map, List.reverse_reverse, List.append_nil] at collected
  exact collected

theorem growSentinel_links (honest : platform.Honest) (spine : Spine e base list rows) : ∃ e',
    e.growSentinel platform = some e' ∧ Spine e' base list (rows ++ [[(e'.sentinel, base)]]) := by
  obtain ⟨nonzero, notListed, notLinked⟩ := spine.fresh honest
  obtain ⟨_, _, inode, _, _, found, intermed⟩ := spine.sentinel_head
  obtain ⟨mnode, stored, level, _⟩ := spine.base_found
  obtain ⟨mnode', node, stored', nodeFound⟩ := spine.listed.data base spine.listed.base_mem
  obtain rfl : mnode' = mnode := Option.some.inj (stored'.symm.trans stored)
  let made : Enclave := { e with
    inodes := Store.set e.inodes (platform.place e) ⟨0, e.sentinel, base, mnode'.key⟩
    mnodes := Store.erase e.mnodes (platform.place e)
    trace := .inodeNew (platform.place e) mnode'.marked :: e.trace }
  let raised : Enclave := { made with sentinel := platform.place e }.setMnode base
    { mnode' with level := rows.length + 1 }
  obtain ⟨nodes, levelled, levelsOnly⟩ := raised.raiseNodeLevel_returns (rows.length + 1) nodeFound
  have kept : ∀ q ∈ list, Store.get made.mnodes q = Store.get e.mnodes q :=
    fun q member => Store.get_erase_other fun same => notListed (same ▸ member)
  have atBase : Store.get raised.mnodes base = some { mnode' with level := rows.length + 1 } :=
    Store.get_set_same _ _ _
  have elsewhere : ∀ q ∈ list, base ≠ q → Store.get raised.mnodes q = Store.get e.mnodes q :=
    fun q member other => (Store.get_set_other _ other).trans (kept q member)
  have atFresh : Store.get made.inodes (platform.place e) = some ⟨0, e.sentinel, base, mnode'.key⟩ :=
    Store.get_set_same _ _ _
  have cells : ∀ row ∈ rows, ∀ p ∈ row, Store.get made.inodes p.1 = Store.get e.inodes p.1 :=
    fun row inRows p inRow => Store.get_set_other _ (notLinked row inRows p inRow)
  have computed : e.growSentinel platform = some { raised with nodes := nodes } := by
    have allocated : e.inodeNew platform 0 e.sentinel base = some (platform.place e, made) := by
      rw [Enclave.inodeNew, stored]
      rfl
    have again : ({ made with sentinel := platform.place e } : Enclave).mnode base = some mnode' :=
      (kept base spine.listed.base_mem).trans stored'
    have levelSet : ({ made with sentinel := platform.place e } : Enclave).setLevel base
        (rows.length + 1) = some raised := by
      rw [Enclave.setLevel, again]
      rfl
    rw [Enclave.growSentinel, found]
    simp only [Option.bind_eq_bind, Option.bind_some, intermed, allocated, again, level, levelSet,
      levelled]
  refine ⟨_, computed, ?_, ?_, ?_, ?_, ?_, ?_, ?_⟩
  · refine spine.listed.congr ?_ levelsOnly
    intro q member cell stored
    by_cases isBase : base = q
    · subst isBase
      obtain rfl : mnode' = cell := Option.some.inj (stored'.symm.trans stored)
      exact ⟨_, atBase, rfl, rfl⟩
    · exact ⟨cell, (elsewhere q member isBase).trans stored, rfl, rfl⟩
  · exact (spine.ladder.congr cells).push nonzero notLinked atFresh
  · rw [List.length_append]
    exact levelAt_found atBase
  · intro j row located p member
    rw [List.getElem?_append] at located
    split at located
    · obtain ⟨inTail, higher, isLevel, above⟩ := spine.tall j row located p member
      have apart : base ≠ p.2 := fun same => spine.listed.tail_ne_base (same ▸ inTail)
      exact ⟨inTail, higher, (congrArg (Option.map Mnode.level)
        (elsewhere p.2 (List.mem_of_mem_tail inTail) apart)).trans isLevel, above⟩
    · have single := List.mem_of_getElem? located
      rw [List.mem_singleton] at single
      rw [single] at member
      exact absurd member List.not_mem_nil
  · exact fun q member => List.mem_cons_of_mem _ (spine.liveMnodes q member)
  · intro row member p inRow
    rcases List.mem_append.mp member with inRows | isNew
    · exact List.mem_cons_of_mem _ (spine.liveInodes row inRows p inRow)
    · rw [List.mem_singleton.mp isNew, List.mem_singleton] at inRow
      rw [inRow]
      exact List.mem_cons_self
  · intro row member p inRow
    rcases List.mem_append.mp member with inRows | isNew
    · exact spine.distinct row inRows p inRow
    · rw [List.mem_singleton.mp isNew, List.mem_singleton] at inRow
      rw [inRow]
      exact notListed

theorem raiseRows_links (honest : platform.Honest) (count : Nat) :
    ∀ fuel e rows i raised, Spine e base list rows → i + count + 1 = rows.length → count < fuel →
      ∃ raised' e' rows', e.raiseRows platform (rows.map firstOf) fuel i raised = some (raised', e') ∧
        Spine e' base list rows' ∧ rows'.map firstOf = rows.map firstOf := by
  induction count with
  | zero =>
      intro fuel e rows i raised spine size bound
      obtain ⟨fuel, rfl⟩ := Nat.exists_eq_succ_of_ne_zero (Nat.ne_of_gt bound)
      refine ⟨raised, e, rows, ?_, spine, rfl⟩
      rw [Enclave.raiseRows, spine.sentinelLevel_links]
      simp only [Option.bind_eq_bind, Option.bind_some]
      rw [if_neg (by omega)]
  | succ count ih =>
      intro fuel e rows i raised spine size bound
      obtain ⟨fuel, rfl⟩ := Nat.exists_eq_succ_of_ne_zero (Nat.ne_of_gt (Nat.zero_lt_of_lt bound))
      have low := List.getElem?_eq_getElem (show i < rows.length by omega)
      have high := List.getElem?_eq_getElem (show i + 1 < rows.length by omega)
      obtain ⟨raisedRow, middle, rows₁, raises, spine₁, heads₁⟩ :=
        spine.bgRaiseIlevel_links honest low high
      have sameLength : rows₁.length = rows.length := by
        have lengths := congrArg List.length heads₁
        rwa [List.length_map, List.length_map] at lengths
      obtain ⟨raised', e', rows', loop, final, heads'⟩ :=
        ih fuel middle rows₁ (i + 1) raisedRow spine₁ (by omega) (by omega)
      refine ⟨raised', e', rows', ?_, final, heads'.trans heads₁⟩
      rw [Enclave.raiseRows, spine.sentinelLevel_links]
      simp only [Option.bind_eq_bind, Option.bind_some, List.getElem?_map]
      rw [if_pos (by omega), low, high]
      simp only [Option.map_some, Option.bind_some, raises]
      rw [← heads₁]
      exact loop

end Spine

end Hosk
