import Hosk.IndexRepr

/-! What `update_intermediate_layer` and `bg_trav_mnodes` do to the list of entries. -/

namespace Hosk

theorem applyJob_append (job : Job) {before rest : List Entry}
    (smaller : ∀ entry ∈ before, entry.key < job.key) :
    applyJob job (before ++ rest) = before ++ applyJob job rest := by
  induction before with
  | nil => rfl
  | cons entry before ih =>
      rw [List.cons_append, applyJob, if_pos (smaller entry List.mem_cons_self),
        ih fun other member => smaller other (List.mem_cons_of_mem _ member), List.cons_append]

theorem applyJob_absent (job : Job) {rest : List Entry}
    (greater : ∀ entry ∈ rest, job.key < entry.key) :
    applyJob job rest = if job.node ≠ 0 then ⟨job.key, job.node, 0, false⟩ :: rest else rest := by
  cases rest with
  | nil => rfl
  | cons entry rest =>
      have above := greater entry List.mem_cons_self
      rw [applyJob, if_neg (by omega), if_neg (by omega)]

theorem applyJob_present (job : Job) {entry : Entry} (rest : List Entry)
    (same : entry.key = job.key) :
    applyJob job (entry :: rest) = { entry with marked := decide (job.node = 0) } :: rest := by
  rw [applyJob, if_neg (by omega), if_pos same]

theorem applyJob_origin {job : Job} {entries : List Entry} {entry : Entry}
    (member : entry ∈ applyJob job entries) : entry ∈ entries ∨
      entry.key = job.key ∧ entry.marked = decide (job.node = 0) ∧
        ((∃ old ∈ entries, old.key = job.key ∧ old.node = entry.node) ∨
          job.node ≠ 0 ∧ job.node = entry.node) := by
  induction entries with
  | nil =>
      rw [applyJob] at member
      split at member
      · rename_i inserts
        rw [List.mem_singleton.mp member]
        exact .inr ⟨rfl, (decide_eq_false inserts).symm, .inr ⟨inserts, rfl⟩⟩
      · exact absurd member List.not_mem_nil
  | cons head rest ih =>
      rw [applyJob] at member
      split at member
      · rcases List.mem_cons.mp member with rfl | inRest
        · exact .inl List.mem_cons_self
        · refine (ih inRest).imp (List.mem_cons_of_mem _) fun ⟨key, marked, origin⟩ =>
            ⟨key, marked, origin.imp_left fun ⟨old, inOld, same⟩ =>
              ⟨old, List.mem_cons_of_mem _ inOld, same⟩⟩
      · split at member
        · rename_i same
          rcases List.mem_cons.mp member with rfl | inRest
          · exact .inr ⟨same, rfl, .inl ⟨head, List.mem_cons_self, same, rfl⟩⟩
          · exact .inl (List.mem_cons_of_mem _ inRest)
        · split at member
          · rename_i inserts
            rcases List.mem_cons.mp member with rfl | old
            · exact .inr ⟨rfl, (decide_eq_false inserts).symm, .inr ⟨inserts, rfl⟩⟩
            · exact .inl old
          · exact .inl member

section Lists

variable {mnodes : Store Mnode} {nodes : Nodes} {base height : Nat}
  {list before after : List (Nat × Entry)} {p : Nat × Entry}

theorem Intermed.before_cons (ok : Intermed mnodes nodes base height list)
    (split : list = before ++ p :: after) (positive : 1 ≤ p.2.key) :
    ∃ node rest, before = (base, ⟨0, node, height, false⟩) :: rest := by
  obtain ⟨node, rest, first⟩ := ok.first
  rw [split] at first
  cases before with
  | nil =>
      obtain ⟨rfl, _⟩ := List.cons.inj first
      exact absurd positive (Nat.not_succ_le_zero 0)
  | cons head tail =>
      obtain ⟨rfl, _⟩ := List.cons.inj first
      exact ⟨node, tail, rfl⟩

end Lists

namespace Repr

variable {e : Enclave} {l : Layout} {platform : Platform} {before after : List (Nat × Entry)}
  {p : Nat × Entry}

theorem transfer (repr : Repr e l) {e' : Enclave} (inodes : e'.inodes = e.inodes)
    (mnodes : e'.mnodes = e.mnodes) (nodes : e'.nodes = e.nodes) (sentinel : e'.sentinel = e.sentinel)
    (trace : e'.trace = e.trace) : Repr e' l := by
  refine ⟨?_, ?_, ?_, ?_, ?_, ?_⟩
  · rw [mnodes, nodes]
    exact repr.intermed
  · rw [inodes, sentinel]
    exact repr.grid
  · rw [trace]
    exact repr.liveMnodes
  · rw [trace]
    exact repr.liveInodes
  · intro p member
    rw [Enclave.inode, inodes]
    exact repr.noInode p member
  · rw [trace]
    intro address mnode
    rw [Enclave.mnode, mnodes]
    exact repr.strays address mnode

theorem rewriteMnode (repr : Repr e l) (split : l.mnodes = before ++ p :: after) (entry : Entry)
    (positive : 1 ≤ p.2.key) (sameKey : entry.key = p.2.key) (sameNode : entry.node = p.2.node)
    (higher : p.2.level ≤ entry.level) :
    Repr (e.setMnode p.1 (entry.at (firstOf after)))
      { l with mnodes := before ++ (p.1, entry) :: after } := by
  obtain ⟨node, rest, isBefore⟩ := repr.intermed.before_cons split positive
  have members : ∀ q ∈ before ++ (p.1, entry) :: after, q = (p.1, entry) ∨ q ∈ l.mnodes := by
    intro q member
    rw [split]
    simp only [List.mem_append, List.mem_cons] at member ⊢
    tauto
  have isListed : p ∈ l.mnodes := by simp [split]
  refine ⟨?_, ?_, ?_, repr.liveInodes, ?_, repr.strays_kept ?_ ?_⟩
  · exact repr.intermed.rewrite split sameKey sameNode
      ⟨node, rest ++ (p.1, entry) :: after, by simp [isBefore]⟩
  · apply repr.grid.mono
    rintro mnode key level _ ⟨old, member, oldKey, enough⟩
    rw [split, List.mem_append, List.mem_cons] at member
    rcases member with inBefore | same | inAfter
    · exact ⟨old, by simp [inBefore], oldKey, enough⟩
    · refine ⟨entry, ?_, ?_, ?_⟩
      · rw [← same]
        simp
      · rw [sameKey, ← same]
        exact oldKey
      · rw [← same] at higher
        exact Nat.le_trans enough higher
    · exact ⟨old, by simp [inAfter], oldKey, enough⟩
  · intro q member
    rcases members q member with rfl | inList
    · exact repr.liveMnodes p isListed
    · exact repr.liveMnodes q inList
  · intro q member
    rcases members q member with rfl | inList
    · exact repr.noInode p isListed
    · exact repr.noInode q inList
  · intro q member
    rw [split, List.mem_append, List.mem_cons] at member
    rcases member with inBefore | rfl | inAfter
    · exact ⟨q.2, by simp [inBefore]⟩
    · exact ⟨entry, by simp⟩
    · exact ⟨q.2, by simp [inAfter]⟩
  · intro address mnode stored
    by_cases here : p.1 = address
    · exact .inl ⟨entry, by simp [here]⟩
    · exact .inr ⟨(Store.get_set_other _ here).symm.trans stored, id, id⟩

theorem setMarked_returns (repr : Repr e l) (split : l.mnodes = before ++ p :: after)
    (positive : 1 ≤ p.2.key) (marked : Bool) : ∃ e', e.setMarked p.1 marked = some e' ∧
      e'.nodes = e.nodes ∧
      Repr e' { l with mnodes := before ++ (p.1, { p.2 with marked := marked }) :: after } ∧
      Keeps l.good l.mnodes e l e'
        { l with mnodes := before ++ (p.1, { p.2 with marked := marked }) :: after } ∧
      abs e' { l with mnodes := before ++ (p.1, { p.2 with marked := marked }) :: after } =
        (abs e l).keepsIndex
          ((before ++ (p.1, { p.2 with marked := marked }) :: after).tail.map Prod.snd) := by
  have stored : e.mnode p.1 = some (p.2.at (firstOf after)) := repr.intermed.at_split split
  refine ⟨e.setMnode p.1 (Entry.at { p.2 with marked := marked } (firstOf after)), ?_, rfl, ?_, ?_,
    rfl⟩
  · rw [Enclave.setMarked, stored]
    rfl
  · exact repr.rewriteMnode split { p.2 with marked := marked } positive rfl rfl (Nat.le_refl _)
  · let entry : Entry := { p.2 with marked := marked }
    have sameKey : entry.key = p.2.key := rfl
    have sameNode : entry.node = p.2.node := rfl
    exact Keeps.relisted (fun _ _ => rfl)
      (Keeps.mem_rewritten [] split sameKey sameNode)

theorem mnodeNew_returns (honest : platform.Honest) (repr : Repr e l)
    (split : l.mnodes = before ++ p :: after) {node key : Nat} {found : Node}
    (stored : Store.get e.nodes node = some found) (nodeKey : found.key = key)
    (above : p.2.key < key) (below : ∀ r ∈ after, key < r.2.key) : ∃ fresh middle e',
      e.mnodeNew platform (firstOf after) node 0 = some (fresh, middle) ∧
        middle.setNext p.1 fresh = some e' ∧ e'.nodes = e.nodes ∧
        Repr e' { l with mnodes := before ++ p :: (fresh, ⟨key, node, 0, false⟩) :: after } ∧
        Keeps l.good l.mnodes e l e'
          { l with mnodes := before ++ p :: (fresh, ⟨key, node, 0, false⟩) :: after } ∧
        abs e' { l with mnodes := before ++ p :: (fresh, ⟨key, node, 0, false⟩) :: after } =
          (abs e l).keepsIndex
            ((before ++ p :: (fresh, (⟨key, node, 0, false⟩ : Entry)) :: after).tail.map
              Prod.snd) := by
  obtain ⟨freshNonzero, freshNotLive⟩ := honest.places e
  have notListed : ∀ r ∈ l.mnodes, r.1 ≠ platform.place e := by
    intro r member same
    exact freshNotLive (same ▸ repr.liveMnodes r member)
  have notGood : ¬ l.good (platform.place e) := fun good => freshNotLive (repr.liveInodes _ good)
  have here : p ∈ l.mnodes := by simp [split]
  have members : ∀ q ∈ before ++ p :: (platform.place e, (⟨key, node, 0, false⟩ : Entry)) :: after,
      q = (platform.place e, ⟨key, node, 0, false⟩) ∨ q ∈ l.mnodes := by
    intro q member
    rw [split]
    simp only [List.mem_append, List.mem_cons] at member ⊢
    tauto
  have pStored : Store.get e.mnodes p.1 = some (p.2.at (firstOf after)) :=
    repr.intermed.at_split split
  subst nodeKey
  let middle : Enclave := { e with
    inodes := Store.erase e.inodes (platform.place e)
    mnodes := Store.set e.mnodes (platform.place e) ⟨firstOf after, node, found.key, 0, false⟩
    trace := .mnodeNew (platform.place e) :: e.trace }
  refine ⟨platform.place e, middle, middle.setMnode p.1 (p.2.at (platform.place e)), ?_, ?_, rfl, ?_,
    ?_, rfl⟩
  · rw [Enclave.mnodeNew, stored]
    rfl
  · rw [Enclave.setNext, Enclave.mnode, Store.get_set_other _ (Ne.symm (notListed p here)), pStored]
    rfl
  · refine ⟨?_, ?_, ?_, ?_, ?_, repr.strays_kept ?_ ?_⟩
    · exact repr.intermed.insert split ⟨found.key, node, 0, false⟩ freshNonzero notListed stored rfl
        above below
    · refine (repr.grid.congr ?_).mono ?_
      · intro address good
        exact Store.get_erase_other fun same => notGood (same ▸ good)
      · rintro mnode key' level _ ⟨entry, member, facts⟩
        refine ⟨entry, ?_, facts⟩
        rw [split] at member
        simp only [List.mem_append, List.mem_cons] at member ⊢
        tauto
    · intro q member
      rcases members q member with rfl | inList
      · exact List.mem_cons_self
      · exact List.mem_cons_of_mem _ (repr.liveMnodes q inList)
    · intro address good
      exact List.mem_cons_of_mem _ (repr.liveInodes address good)
    · intro q member
      rcases members q member with rfl | inList
      · exact Store.get_erase_same _ _
      · exact (Store.get_erase_other (Ne.symm (notListed q inList))).trans (repr.noInode q inList)
    · intro q member
      rw [split, List.mem_append, List.mem_cons] at member
      rcases member with inBefore | rfl | inAfter
      · exact ⟨q.2, by simp [inBefore]⟩
      · exact ⟨q.2, by simp⟩
      · exact ⟨q.2, by simp [inAfter]⟩
    · intro address mnode isStored
      by_cases isFresh : platform.place e = address
      · exact .inl ⟨⟨found.key, node, 0, false⟩, by simp [isFresh]⟩
      by_cases here : p.1 = address
      · exact .inl ⟨p.2, by simp [← here]⟩
      · refine .inr ⟨?_, fun gone => ?_, fun clear => (List.mem_filter.mp clear).1⟩
        · rw [Enclave.mnode, Enclave.setMnode, Store.get_set_other _ here,
            Store.get_set_other _ isFresh] at isStored
          exact isStored
        · exact List.mem_filter.mpr ⟨gone, decide_eq_true (Ne.symm isFresh)⟩
  · refine Keeps.relisted (fun address good => ?_) ?_
    · exact Store.get_erase_other fun same => notGood (same ▸ good)
    · exact Keeps.mem_rewritten [(platform.place e, ⟨found.key, node, 0, false⟩)] split rfl
        rfl

/-- A job lands at its place in key order, wherever the index led the search. -/
theorem updateIntermediateLayer_refines (honest : platform.Honest) (repr : Repr e l) (job : Job)
    (positive : 1 ≤ job.key)
    (nodeOk : job.node ≠ 0 → ∃ node, Store.get e.nodes job.node = some node ∧ node.key = job.key) :
    ∃ e' l', e.updateIntermediateLayer platform job = some e' ∧ Repr e' l' ∧
      abs e' l' = (abs e l).updateIntermediateLayer job ∧ e'.nodes = e.nodes ∧
      Keeps l.good l.mnodes e l e' l' := by
  obtain ⟨before, p, after, split, notPast, past, found⟩ := repr.search_returns job.key
  have stored : e.mnode p.1 = some (p.2.at (firstOf after)) := repr.intermed.at_split split
  have sorted := repr.intermed.sorted
  rw [split, List.pairwise_append] at sorted
  have entries : (abs e l).entries = (before ++ p :: after).tail.map Prod.snd := by
    rw [abs, split]
  have pastEntries : ∀ entry ∈ after.map Prod.snd, job.key < entry.key := by
    intro entry member
    obtain ⟨r, inAfter, rfl⟩ := List.mem_map.mp member
    exact past r inAfter
  rw [Enclave.updateIntermediateLayer]
  simp only [found, stored, Option.bind_eq_bind, Option.bind_some, Entry.at]
  by_cases here : p.2.key = job.key
  · -- the key has its mnode
    have pPositive : 1 ≤ p.2.key := by omega
    obtain ⟨node, rest, rfl⟩ := repr.intermed.before_cons split pPositive
    have smaller : ∀ entry ∈ rest.map Prod.snd, entry.key < job.key := by
      intro entry member
      obtain ⟨r, inRest, rfl⟩ := List.mem_map.mp member
      have below := sorted.2.2 r (List.mem_cons_of_mem _ inRest) p List.mem_cons_self
      omega
    have applied : applyJob job (abs e l).entries =
        rest.map Prod.snd ++ { p.2 with marked := decide (job.node = 0) } :: after.map Prod.snd := by
      rw [entries, List.cons_append, List.tail_cons, List.map_append, List.map_cons,
        applyJob_append job smaller, applyJob_present job _ here]
    have unchanged : p.2.marked = decide (job.node = 0) →
        (abs e l).updateIntermediateLayer job = abs e l := by
      intro same
      rw [Index.updateIntermediateLayer, applied, ← same]
      simp only [abs, split]
      simp
    have changed : ∃ e' l', e.setMarked p.1 (decide (job.node = 0)) = some e' ∧ Repr e' l' ∧
        abs e' l' = (abs e l).updateIntermediateLayer job ∧ e'.nodes = e.nodes ∧
        Keeps l.good l.mnodes e l e' l' := by
      obtain ⟨e', done, nodes, repr', keeps, absEq⟩ :=
        repr.setMarked_returns split pPositive (decide (job.node = 0))
      refine ⟨e', _, done, repr', ?_, nodes, keeps⟩
      rw [absEq, Index.updateIntermediateLayer, applied, Index.keepsIndex]
      simp
    by_cases isDelete : job.node = 0
    · rw [if_neg (not_not_intro isDelete), if_pos here]
      simpa [isDelete] using changed
    · rw [if_pos isDelete, if_pos here]
      cases marked : p.2.marked with
      | true => simpa [isDelete] using changed
      | false =>
          exact ⟨e, l, rfl, repr, (unchanged (by simp [marked, isDelete])).symm, rfl, .refl e l⟩
  · -- the key has none
    have absent : ∀ extra : List (Nat × Entry),
        (before ++ p :: (extra ++ after)).tail.map Prod.snd =
          (before ++ [p]).tail.map Prod.snd ++ (extra.map Prod.snd ++ after.map Prod.snd) := by
      intro extra
      cases before <;> simp
    have bare : (before ++ p :: after).tail.map Prod.snd =
        (before ++ [p]).tail.map Prod.snd ++ after.map Prod.snd := by
      cases before <;> simp
    have smaller : ∀ entry ∈ (before ++ [p]).tail.map Prod.snd, entry.key < job.key := by
      intro entry member
      obtain ⟨r, inTail, rfl⟩ := List.mem_map.mp member
      rcases List.mem_append.mp (List.mem_of_mem_tail inTail) with inBefore | isP
      · have below := sorted.2.2 r inBefore p List.mem_cons_self
        omega
      · rw [List.mem_singleton.mp isP]
        omega
    have applied : applyJob job (abs e l).entries = (before ++ [p]).tail.map Prod.snd ++
        (if job.node ≠ 0 then ⟨job.key, job.node, 0, false⟩ :: after.map Prod.snd
          else after.map Prod.snd) := by
      rw [entries, bare, applyJob_append job smaller, applyJob_absent job pastEntries]
    by_cases isDelete : job.node = 0
    · rw [if_neg (not_not_intro isDelete), if_neg here]
      refine ⟨e, l, rfl, repr, ?_, rfl, .refl e l⟩
      rw [Index.updateIntermediateLayer, applied, if_neg (not_not_intro isDelete)]
      rw [← bare, ← entries]
    · obtain ⟨node, nodeStored, nodeKey⟩ := nodeOk isDelete
      obtain ⟨fresh, middle, e', made, linked, nodes, repr', keeps, absEq⟩ :=
        repr.mnodeNew_returns honest split nodeStored nodeKey (by omega) past
      rw [if_pos isDelete, if_neg here]
      simp only [made, Option.bind_some, linked]
      refine ⟨e', _, rfl, repr', ?_, nodes, keeps⟩
      rw [absEq, Index.updateIntermediateLayer, applied, if_pos isDelete, Index.keepsIndex]
      have same := absent [(fresh, ⟨job.key, job.node, 0, false⟩)]
      simp only [List.cons_append, List.nil_append, List.map_cons, List.map_nil] at same
      rw [same]

section Traversal

theorem bgMremove_removes (repr : Repr e l) (honest : platform.Honest) {q : Nat × Entry}
    (split : l.mnodes = before ++ p :: q :: after) (gone : q.2.stays = false) :
    ∃ e', e.bgMremove platform p.1 q.1 = some (true, e') ∧ e'.nodes = e.nodes ∧
      e'.inodes = e.inodes ∧ Repr e' { l with mnodes := before ++ p :: after } ∧
      abs e' { l with mnodes := before ++ p :: after } =
        (abs e l).keepsIndex ((before ++ p :: after).tail.map Prod.snd) := by
  have here : p ∈ l.mnodes := by simp [split]
  have alsoHere : q ∈ l.mnodes := by simp [split]
  have behind : l.mnodes = (before ++ [p]) ++ q :: after := by simp [split]
  have unused : q.2.level = 0 ∧ q.2.marked = true := by simpa [Entry.stays] using gone
  have pStored : e.mnode p.1 = some (p.2.at (firstOf (q :: after))) := repr.intermed.at_split split
  have qStored : e.mnode q.1 = some (q.2.at (firstOf after)) := repr.intermed.at_split behind
  have nodup := repr.intermed.chain.nodup
  rw [split, List.map_append, List.map_cons, List.map_cons, List.nodup_append, List.nodup_cons,
    List.nodup_cons] at nodup
  have others : ∀ r ∈ before ++ p :: after, r ∈ l.mnodes ∧ q.1 ≠ r.1 := by
    intro r member
    rw [List.mem_append, List.mem_cons] at member
    rcases member with inBefore | rfl | inAfter
    · exact ⟨by simp [split, inBefore], fun same =>
        nodup.2.2 r.1 (List.mem_map_of_mem inBefore) q.1 (by simp) same.symm⟩
    · exact ⟨here, fun same => nodup.2.1.1 (by simp [same])⟩
    · exact ⟨by simp [split, inAfter], fun same =>
        nodup.2.1.2.1 (same ▸ List.mem_map_of_mem inAfter)⟩
  let cut := e.setMnode p.1 (p.2.at (firstOf after))
  have linked : Intermed cut.mnodes cut.nodes l.base l.rows.length (before ++ p :: after) :=
    repr.intermed.remove split
  obtain ⟨mnodes, zeroed, deleted, atOnce, elsewhere⟩ := honest.mnodeDelete_eq cut q.1
  refine ⟨{ cut with mnodes := mnodes, trace := .mnodeDelete q.1 zeroed :: cut.trace }, ?_, rfl, rfl,
    ⟨?_, ?_, ?_, ?_, ?_, ?_⟩, rfl⟩
  · rw [Enclave.bgMremove, qStored]
    simp only [Option.bind_eq_bind, Option.bind_some, Entry.at, unused, and_self, if_true]
    rw [Enclave.setNext, pStored]
    exact congrArg (fun last => some (true, last)) deleted
  · exact linked.congr (fun r member => elsewhere r.1 (others r member).2)
      fun address node stored => ⟨node, stored, rfl⟩
  · apply repr.grid.mono
    rintro mnode key level positive ⟨entry, member, sameKey, enough⟩
    refine ⟨entry, ?_, sameKey, enough⟩
    rw [split] at member
    simp only [List.mem_append, List.mem_cons] at member ⊢
    rcases member with inBefore | isP | isQ | inAfter
    · exact .inl inBefore
    · exact .inr (.inl isP)
    · have level : entry.level = 0 := by
        rw [← isQ] at unused
        exact unused.1
      omega
    · exact .inr (.inr inAfter)
  · intro r member
    exact List.mem_filter.mpr ⟨repr.liveMnodes r (others r member).1,
      decide_eq_true (Ne.symm (others r member).2)⟩
  · intro address good
    refine List.mem_filter.mpr ⟨repr.liveInodes address good, decide_eq_true ?_⟩
    rintro rfl
    exact repr.apart q alsoHere good
  · exact fun r member => repr.noInode r (others r member).1
  · intro address mnode stored
    by_cases isQ : q.1 = address
    · subst isQ
      refine .inr ⟨List.mem_cons_self, fun clear => ?_⟩
      rw [cleared] at clear
      split at clear
      · exact Option.some.inj (stored.symm.trans (atOnce ‹_›))
      · exact absurd rfl (of_decide_eq_true (List.mem_filter.mp clear).2)
    by_cases isP : p.1 = address
    · exact .inl ⟨p.2, by simp [← isP]⟩
    have before' : e.mnode address = some mnode := by
      have unmoved : Store.get mnodes address = Store.get e.mnodes address :=
        (elsewhere address isQ).trans (Store.get_set_other _ isP)
      exact unmoved.symm.trans stored
    rcases repr.strays address mnode before' with ⟨entry, listed⟩ | ⟨isDead, zero⟩
    · refine .inl ⟨entry, ?_⟩
      rw [split] at listed
      simp only [List.mem_append, List.mem_cons] at listed ⊢
      rcases listed with inBefore | same | same | inAfter
      · exact .inl inBefore
      · exact .inr (.inl same)
      · exact absurd (congrArg Prod.fst same).symm isQ
      · exact .inr (.inr inAfter)
    · refine .inr ⟨List.mem_cons_of_mem _ isDead, fun clear => zero ?_⟩
      rw [cleared] at clear
      split at clear
      · exact (List.mem_cons.mp clear).resolve_left (Ne.symm isQ)
      · exact (List.mem_filter.mp clear).1

theorem bgMremove_keeps (repr : Repr e l) (platform : Platform) {q : Nat × Entry}
    (split : l.mnodes = before ++ q :: after) (kept : q.2.stays = true) (prev : Nat) :
    e.bgMremove platform prev q.1 = some (false, e) := by
  have stored : e.mnode q.1 = some (q.2.at (firstOf after)) := repr.intermed.at_split split
  have used : ¬ (q.2.level = 0 ∧ q.2.marked = true) := by
    intro both
    simp [Entry.stays, both] at kept
  rw [Enclave.bgMremove, stored]
  simp only [Option.bind_eq_bind, Option.bind_some, Entry.at, if_neg used]

theorem countMnode_repr (repr : Repr e l) (platform : Platform) (entry : Entry) (next : Nat) :
    Repr (e.countMnode platform (entry.at next)) l ∧
      abs (e.countMnode platform (entry.at next)) l = (abs e l).count platform.int entry ∧
      (e.countMnode platform (entry.at next)).nodes = e.nodes ∧
      (e.countMnode platform (entry.at next)).inodes = e.inodes := by
  cases marked : entry.marked with
  | false =>
      have counted : e.countMnode platform (entry.at next) =
          { e with nonDel := platform.int (e.nonDel + 1) } := by
        simp [Enclave.countMnode, Entry.at, marked]
      rw [counted, Index.count, if_pos marked]
      exact ⟨repr.transfer rfl rfl rfl rfl rfl, rfl, rfl, rfl⟩
  | true =>
      by_cases tall : 1 ≤ entry.level
      · have counted : e.countMnode platform (entry.at next) =
            { e with tallDel := platform.int (e.tallDel + 1) } := by
          simp [Enclave.countMnode, Entry.at, marked, tall]
        rw [counted, Index.count, if_neg (by simp [marked]), if_pos tall]
        exact ⟨repr.transfer rfl rfl rfl rfl rfl, rfl, rfl, rfl⟩
      · have counted : e.countMnode platform (entry.at next) = e := by
          simp [Enclave.countMnode, Entry.at, marked, tall]
        rw [counted, Index.count, if_neg (by simp [marked]), if_neg tall]
        exact ⟨repr, rfl, rfl, rfl⟩

end Traversal

end Repr

theorem Index.count_keepsIndex (int : Int → Int) (index : Index) (entries : List Entry)
    (entry : Entry) : (index.keepsIndex entries).count int entry =
      (index.count int entry).keepsIndex entries := by
  rw [Index.count, Index.count, Index.keepsIndex]
  split
  · rfl
  · split <;> rfl

theorem Index.counts_keepsIndex (int : Int → Int) (index : Index) (entries list : List Entry) :
    list.foldl (Index.count int) (index.keepsIndex entries) =
      (list.foldl (Index.count int) index).keepsIndex entries := by
  induction list generalizing index with
  | nil => rfl
  | cons entry rest ih => rw [List.foldl_cons, List.foldl_cons, Index.count_keepsIndex, ih]

namespace Repr

variable {e : Enclave} {l : Layout} {platform : Platform} {before after : List (Nat × Entry)}
  {p : Nat × Entry}

/-- The traversal from the mnode behind `p` on: what stays is counted, what does not is deleted. -/
theorem travMnodesLoop_refines (honest : platform.Honest) (todo : List (Nat × Entry)) :
    ∀ fuel e l before p, Repr e l → l.mnodes = before ++ p :: todo → todo.length < fuel →
      ∃ e', e.travMnodesLoop platform fuel p.1 (firstOf todo) = some e' ∧ e'.nodes = e.nodes ∧
        e'.inodes = e.inodes ∧ Repr e' { l with mnodes := before ++ p :: todo.filter (·.2.stays) } ∧
        abs e' { l with mnodes := before ++ p :: todo.filter (·.2.stays) } =
          (((todo.filter (·.2.stays)).map Prod.snd).foldl (Index.count platform.int)
            (abs e l)).keepsIndex
              ((before ++ p :: todo.filter (·.2.stays)).tail.map Prod.snd) := by
  induction todo with
  | nil =>
      intro fuel e l before p repr split bound
      obtain ⟨fuel, rfl⟩ := Nat.exists_eq_succ_of_ne_zero (Nat.ne_of_gt bound)
      refine ⟨e, rfl, rfl, rfl, ?_, ?_⟩
      · rw [List.filter_nil, ← split]
        exact repr
      · rw [List.filter_nil, ← split]
        rfl
  | cons q rest ih =>
      intro fuel e l before p repr split bound
      obtain ⟨fuel, rfl⟩ := Nat.exists_eq_succ_of_ne_zero (Nat.ne_of_gt (Nat.zero_lt_of_lt bound))
      have fewer : rest.length < fuel := by simpa using bound
      have nonzero : q.1 ≠ 0 := repr.intermed.nonzero (by simp [split])
      have behind : l.mnodes = (before ++ [p]) ++ q :: rest := by simp [split]
      rw [firstOf_cons, Enclave.travMnodesLoop, if_neg nonzero]
      cases stays : q.2.stays with
      | false =>
          obtain ⟨cut, removed, nodes, inodes, repr', absEq⟩ :=
            repr.bgMremove_removes honest split stays
          have stored : cut.mnode p.1 = some (p.2.at (firstOf rest)) := repr'.intermed.at_split rfl
          obtain ⟨e', done, nodes', inodes', reprFinal, absFinal⟩ :=
            ih fuel cut _ before p repr' rfl fewer
          refine ⟨e', ?_, nodes'.trans nodes, inodes'.trans inodes, ?_, ?_⟩
          · simp only [removed, Option.bind_eq_bind, Option.bind_some, if_true, stored, Entry.at]
            exact done
          · simpa [List.filter_cons, stays] using reprFinal
          · rw [List.filter_cons_of_neg (by simp [stays])]
            rw [absEq, Index.counts_keepsIndex] at absFinal
            exact absFinal
      | true =>
          have kept := repr.bgMremove_keeps platform behind stays p.1
          have stored : e.mnode q.1 = some (q.2.at (firstOf rest)) := repr.intermed.at_split behind
          obtain ⟨counted, absCounted, sameNodes, sameInodes⟩ :=
            repr.countMnode_repr platform q.2 (firstOf rest)
          obtain ⟨e', done, nodes', inodes', reprFinal, absFinal⟩ :=
            ih fuel _ l (before ++ [p]) q counted behind fewer
          have shape : before ++ p :: (q :: rest).filter (·.2.stays) =
              (before ++ [p]) ++ q :: rest.filter (·.2.stays) := by
            rw [List.filter_cons_of_pos (by simp [stays])]
            simp
          refine ⟨e', ?_, nodes'.trans sameNodes, inodes'.trans sameInodes, ?_, ?_⟩
          · simp only [kept, Option.bind_eq_bind, Option.bind_some, stored, Bool.false_eq_true,
              if_false]
            exact done
          · rw [shape]
            exact reprFinal
          · rw [shape, absFinal, absCounted, List.filter_cons_of_pos (by simp [stays])]
            rfl

theorem bgTravMnodes_refines (honest : platform.Honest) (repr : Repr e l) : ∃ e' mnodes,
    e.bgTravMnodes platform = some e' ∧ e'.nodes = e.nodes ∧ Repr e' { l with mnodes := mnodes } ∧
      Keeps l.good (l.mnodes.filter (·.2.stays)) e l e' { l with mnodes := mnodes } ∧
      abs e' { l with mnodes := mnodes } = (abs e l).trav platform.int := by
  obtain ⟨_, inode, _, _, _, found, _, isBase⟩ := repr.sentinel
  obtain ⟨node, rest, split⟩ := repr.intermed.first
  have stored : e.mnode l.base = some (Entry.at ⟨0, node, l.rows.length, false⟩ (firstOf rest)) :=
    repr.intermed.at_split (show l.mnodes = [] ++ (l.base, ⟨0, node, l.rows.length, false⟩) :: rest
      from split)
  have size := repr.intermed.length_le
  rw [split, List.length_cons] at size
  obtain ⟨e', done, nodes, inodes, repr', absEq⟩ := travMnodesLoop_refines honest rest
    (e.mnodes.length + 1) e l [] (l.base, ⟨0, node, l.rows.length, false⟩) repr split (by omega)
  refine ⟨e', _, ?_, nodes, repr', Keeps.relisted ?_ ?_, ?_⟩
  · rw [Enclave.bgTravMnodes, found]
    simp only [Option.bind_eq_bind, Option.bind_some, isBase, stored, Entry.at]
    exact done
  · intro address _
    rw [Enclave.inode, inodes]
    rfl
  · intro p member
    obtain ⟨inList, stays⟩ := List.mem_filter.mp member
    refine ⟨p.2, ?_, rfl, rfl⟩
    rw [split] at inList
    rcases List.mem_cons.mp inList with rfl | inRest
    · exact List.mem_cons_self
    · exact List.mem_cons_of_mem _ (List.mem_filter.mpr ⟨inRest, stays⟩)
  · have entries : (abs e l).entries = rest.map Prod.snd := by
      rw [abs, split]
      rfl
    have kept : (rest.filter (·.2.stays)).map Prod.snd = (abs e l).entries.filter Entry.stays := by
      rw [entries, List.filter_map]
      rfl
    rw [absEq, Index.trav, List.nil_append, List.tail_cons, kept]
    rfl

end Repr

end Hosk
