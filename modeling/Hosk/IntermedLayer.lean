import Hosk.Chain
import Hosk.IndexSpec

/-! The intermediate layer in memory: a chain of mnodes that holds a list of entries. -/

namespace Hosk

def firstOf {α : Type} (list : List (Nat × α)) : Nat := (list.map Prod.fst).headD 0

@[simp] theorem firstOf_nil {α : Type} : firstOf ([] : List (Nat × α)) = 0 := rfl

@[simp] theorem firstOf_cons {α : Type} (p : Nat × α) (rest : List (Nat × α)) :
    firstOf (p :: rest) = p.1 := rfl

def nextAt (mnodes : Store Mnode) (address : Nat) : Option Nat :=
  (Store.get mnodes address).map Mnode.next

theorem nextAt_found {mnodes : Store Mnode} {address : Nat} {mnode : Mnode}
    (found : Store.get mnodes address = some mnode) : nextAt mnodes address = some mnode.next := by
  simp [nextAt, found]

theorem chain_length_le {α : Type} (store : Store α) (field : α → Nat) {start : Nat}
    {addresses : List Nat}
    (chain : Chain (fun address => (Store.get store address).map field) start addresses) :
    addresses.length ≤ store.length := by
  have inside : addresses ⊆ store.map Prod.fst := by
    intro address member
    obtain ⟨before, after, rfl⟩ := List.append_of_mem member
    obtain ⟨value, found, _⟩ := Option.map_eq_some_iff.mp chain.next_eq
    exact Store.mem_of_get found
  have bound := (chain.nodup.subperm inside).length_le
  rwa [List.length_map] at bound

def Entry.at (entry : Entry) (next : Nat) : Mnode :=
  ⟨next, entry.node, entry.key, entry.level, entry.marked⟩

/-- The chain from `base` holds the entries in key order, the sentinel's first, each with the key
of its data node. -/
structure Intermed (mnodes : Store Mnode) (nodes : Nodes) (base height : Nat)
    (list : List (Nat × Entry)) : Prop where
  chain : Chain (nextAt mnodes) base (list.map Prod.fst)
  holds : ∀ p ∈ list, ∃ next, Store.get mnodes p.1 = some (p.2.at next)
  nodes : ∀ p ∈ list, ∃ node, Store.get nodes p.2.node = some node ∧ node.key = p.2.key
  sorted : list.Pairwise fun p q => p.2.key < q.2.key
  first : ∃ node rest, list = (base, ⟨0, node, height, false⟩) :: rest

namespace Intermed

variable {mnodes mnodes' : Store Mnode} {nodes nodes' : Nodes} {base height : Nat}
  {list before after : List (Nat × Entry)} {p q : Nat × Entry}

theorem at_split (ok : Intermed mnodes nodes base height list) (split : list = before ++ p :: after) :
    Store.get mnodes p.1 = some (p.2.at (firstOf after)) := by
  have chain := ok.chain
  obtain ⟨next, found⟩ := ok.holds p (by simp [split])
  rw [split, List.map_append, List.map_cons] at chain
  have onward := chain.next_eq
  rw [nextAt_found found] at onward
  obtain rfl : next = firstOf after := Option.some.inj onward
  exact found

theorem nonzero (ok : Intermed mnodes nodes base height list) (member : p ∈ list) : p.1 ≠ 0 :=
  ok.chain.ne_zero p.1 (List.mem_map_of_mem member)

theorem eq_of_key (ok : Intermed mnodes nodes base height list) (left : p ∈ list)
    (right : q ∈ list) (same : p.2.key = q.2.key) : p = q := by
  have distinct : (list.map fun p => p.2.key).Nodup :=
    List.pairwise_map.mpr (ok.sorted.imp Nat.ne_of_lt)
  exact List.inj_on_of_nodup_map distinct left right same

theorem eq_of_address (ok : Intermed mnodes nodes base height list) (left : p ∈ list)
    (right : q ∈ list) (same : p.1 = q.1) : p = q :=
  List.inj_on_of_nodup_map ok.chain.nodup left right same

theorem sentinel (ok : Intermed mnodes nodes base height list) :
    ∃ node, (base, ⟨0, node, height, false⟩) ∈ list := by
  obtain ⟨node, rest, rfl⟩ := ok.first
  exact ⟨node, List.mem_cons_self⟩

theorem positive (ok : Intermed mnodes nodes base height list) (member : p ∈ list)
    (other : p.1 ≠ base) : 1 ≤ p.2.key := by
  obtain ⟨node, rest, rfl⟩ := ok.first
  rcases List.mem_cons.mp member with rfl | inRest
  · exact absurd rfl other
  · have smaller : 0 < p.2.key := (List.pairwise_cons.mp ok.sorted).1 p inRest
    exact smaller

theorem length_le (ok : Intermed mnodes nodes base height list) :
    list.length ≤ mnodes.length := by
  have bound := chain_length_le mnodes Mnode.next ok.chain
  rwa [List.length_map] at bound

theorem congr (ok : Intermed mnodes nodes base height list)
    (agree : ∀ p ∈ list, Store.get mnodes' p.1 = Store.get mnodes p.1)
    (keys : ∀ address node, Store.get nodes address = some node →
      ∃ node', Store.get nodes' address = some node' ∧ node'.key = node.key) :
    Intermed mnodes' nodes' base height list := by
  refine ⟨ok.chain.congr ?_, ?_, ?_, ok.sorted, ok.first⟩
  · intro address member
    obtain ⟨p, inList, rfl⟩ := List.mem_map.mp member
    rw [nextAt, nextAt, agree p inList]
  · intro p inList
    rw [agree p inList]
    exact ok.holds p inList
  · intro p inList
    obtain ⟨node, found, key⟩ := ok.nodes p inList
    obtain ⟨node', found', same⟩ := keys _ node found
    exact ⟨node', found', same.trans key⟩

theorem rewrite (ok : Intermed mnodes nodes base height list) (split : list = before ++ p :: after)
    {entry : Entry} {height' : Nat} (sameKey : entry.key = p.2.key) (sameNode : entry.node = p.2.node)
    (first : ∃ node rest,
      before ++ (p.1, entry) :: after = (base, ⟨0, node, height', false⟩) :: rest) :
    Intermed (Store.set mnodes p.1 (entry.at (firstOf after))) nodes base height'
      (before ++ (p.1, entry) :: after) := by
  have found := ok.at_split split
  have addresses : (before ++ (p.1, entry) :: after).map Prod.fst = list.map Prod.fst := by
    simp [split]
  have members : ∀ r ∈ before ++ (p.1, entry) :: after, r = (p.1, entry) ∨ r ∈ list ∧ r.1 ≠ p.1 := by
    have nodup := ok.chain.nodup
    rw [split, List.map_append, List.map_cons] at nodup
    intro r inside
    rw [List.mem_append, List.mem_cons] at inside
    rw [List.nodup_append, List.nodup_cons] at nodup
    rcases inside with inBefore | same | inAfter
    · refine .inr ⟨by simp [split, inBefore], ?_⟩
      exact nodup.2.2 r.1 (List.mem_map_of_mem inBefore) p.1 List.mem_cons_self
    · exact .inl same
    · refine .inr ⟨by simp [split, inAfter], ?_⟩
      intro same
      exact nodup.2.1.1 (same ▸ List.mem_map_of_mem inAfter)
  refine ⟨?_, ?_, ?_, ?_, first⟩
  · rw [addresses]
    refine ok.chain.congr fun address _ => ?_
    by_cases same : p.1 = address
    · rw [← same, nextAt_found found, nextAt_found (Store.get_set_same _ _ _)]
      rfl
    · rw [nextAt, nextAt, Store.get_set_other _ same]
  · intro r inside
    rcases members r inside with rfl | ⟨inList, other⟩
    · exact ⟨_, Store.get_set_same _ _ _⟩
    · rw [Store.get_set_other _ (Ne.symm other)]
      exact ok.holds r inList
  · intro r inside
    rcases members r inside with rfl | ⟨inList, _⟩
    · obtain ⟨node, stored, key⟩ := ok.nodes p (by simp [split])
      exact ⟨node, by rw [sameNode]; exact stored, key.trans sameKey.symm⟩
    · exact ok.nodes r inList
  · have sorted := ok.sorted
    rw [split, List.pairwise_append, List.pairwise_cons] at sorted
    rw [List.pairwise_append, List.pairwise_cons]
    refine ⟨sorted.1, ⟨?_, sorted.2.1.2⟩, ?_⟩
    · intro r inAfter
      rw [sameKey]
      exact sorted.2.1.1 r inAfter
    · intro r inBefore s inRest
      rcases List.mem_cons.mp inRest with rfl | inAfter
      · rw [sameKey]
        exact sorted.2.2 r inBefore p List.mem_cons_self
      · exact sorted.2.2 r inBefore s (List.mem_cons_of_mem _ inAfter)

theorem remove (ok : Intermed mnodes nodes base height list)
    (split : list = before ++ p :: q :: after) :
    Intermed (Store.set mnodes p.1 (p.2.at (firstOf after))) nodes base height
      (before ++ p :: after) := by
  have chain := ok.chain
  have nodup := ok.chain.nodup
  have behind : list = (before ++ [p]) ++ q :: after := by simp [split]
  have found := ok.at_split behind
  have members : ∀ r ∈ before ++ p :: after, r ∈ list := by
    intro r inside
    rw [split]
    simp only [List.mem_append, List.mem_cons] at inside ⊢
    tauto
  rw [split, List.map_append, List.map_cons, List.map_cons] at chain nodup
  rw [List.nodup_append, List.nodup_cons] at nodup
  refine ⟨?_, ?_, fun r inside => ok.nodes r (members r inside), ?_, ?_⟩
  · rw [List.map_append, List.map_cons]
    refine chain.removeAfter ?_ ?_ ?_
    · intro address inBefore
      have other : p.1 ≠ address :=
        fun same => nodup.2.2 address inBefore p.1 List.mem_cons_self same.symm
      rw [nextAt, nextAt, Store.get_set_other _ other]
    · intro address inAfter
      have other : p.1 ≠ address :=
        fun same => nodup.2.1.1 (same ▸ List.mem_cons_of_mem _ inAfter)
      rw [nextAt, nextAt, Store.get_set_other _ other]
    · rw [nextAt_found (Store.get_set_same _ _ _), nextAt_found found]
      rfl
  · intro r inside
    by_cases same : p.1 = r.1
    · have equal : p = r := ok.eq_of_address (by simp [split]) (members r inside) same
      subst equal
      exact ⟨_, Store.get_set_same _ _ _⟩
    · rw [Store.get_set_other _ same]
      exact ok.holds r (members r inside)
  · have kept : (before ++ p :: after).Sublist list := by
      rw [split]
      exact (List.Sublist.refl before).append ((List.sublist_cons_self q after).cons_cons p)
    exact ok.sorted.sublist kept
  · obtain ⟨node, rest, same⟩ := ok.first
    rw [split] at same
    cases before with
    | nil =>
        obtain ⟨rfl, _⟩ := List.cons.inj same
        exact ⟨node, after, rfl⟩
    | cons head tail =>
        obtain ⟨rfl, _⟩ := List.cons.inj same
        exact ⟨node, tail ++ p :: after, rfl⟩

theorem insert (ok : Intermed mnodes nodes base height list) (split : list = before ++ p :: after)
    (entry : Entry) {fresh : Nat} {node : Node} (freshNonzero : fresh ≠ 0)
    (notListed : ∀ r ∈ list, r.1 ≠ fresh) (stored : Store.get nodes entry.node = some node)
    (nodeKey : node.key = entry.key) (above : p.2.key < entry.key)
    (below : ∀ r ∈ after, entry.key < r.2.key) :
    Intermed
      (Store.set (Store.set mnodes fresh (entry.at (firstOf after))) p.1 (p.2.at fresh))
      nodes base height (before ++ p :: (fresh, entry) :: after) := by
  have found := ok.at_split split
  have chain := ok.chain
  have nodup := ok.chain.nodup
  have isListed : p ∈ list := by simp [split]
  have apart : p.1 ≠ fresh := notListed p isListed
  have members : ∀ r ∈ before ++ p :: (fresh, entry) :: after, r = (fresh, entry) ∨ r ∈ list := by
    intro r inside
    rw [split]
    simp only [List.mem_append, List.mem_cons] at inside ⊢
    tauto
  have elsewhere : ∀ address, address ≠ p.1 → address ≠ fresh →
      Store.get (Store.set (Store.set mnodes fresh (entry.at (firstOf after))) p.1 (p.2.at fresh))
        address = Store.get mnodes address := by
    intro address notP notFresh
    rw [Store.get_set_other _ (Ne.symm notP), Store.get_set_other _ (Ne.symm notFresh)]
  have atFresh : Store.get
      (Store.set (Store.set mnodes fresh (entry.at (firstOf after))) p.1 (p.2.at fresh)) fresh =
        some (entry.at (firstOf after)) := by
    rw [Store.get_set_other _ apart, Store.get_set_same]
  rw [split, List.map_append, List.map_cons] at chain nodup
  rw [List.nodup_append, List.nodup_cons] at nodup
  refine ⟨?_, ?_, ?_, ?_, ?_⟩
  · rw [List.map_append, List.map_cons, List.map_cons]
    refine chain.insertAfter freshNonzero ?_ ?_ ?_ ?_
    · intro address inBefore
      obtain ⟨r, inList, rfl⟩ := List.mem_map.mp inBefore
      rw [nextAt, nextAt, elsewhere]
      · exact fun same => nodup.2.2 r.1 inBefore p.1 List.mem_cons_self same
      · exact notListed r (by simp [split, inList])
    · intro address inAfter
      obtain ⟨r, inList, rfl⟩ := List.mem_map.mp inAfter
      rw [nextAt, nextAt, elsewhere]
      · exact fun same => nodup.2.1.1 (same ▸ inAfter)
      · exact notListed r (by simp [split, inList])
    · exact nextAt_found (Store.get_set_same _ _ _)
    · rw [nextAt_found found, nextAt_found atFresh]
      rfl
  · intro r inside
    rcases members r inside with rfl | inList
    · exact ⟨_, atFresh⟩
    · by_cases same : p.1 = r.1
      · have equal : p = r := ok.eq_of_address isListed inList same
        subst equal
        exact ⟨_, Store.get_set_same _ _ _⟩
      · rw [elsewhere r.1 (Ne.symm same) (notListed r inList)]
        exact ok.holds r inList
  · intro r inside
    rcases members r inside with rfl | inList
    · exact ⟨node, stored, nodeKey⟩
    · exact ok.nodes r inList
  · have sorted := ok.sorted
    rw [split, List.pairwise_append, List.pairwise_cons] at sorted
    rw [List.pairwise_append, List.pairwise_cons, List.pairwise_cons]
    refine ⟨sorted.1, ⟨?_, below, sorted.2.1.2⟩, ?_⟩
    · intro r inRest
      rcases List.mem_cons.mp inRest with rfl | inAfter
      · exact above
      · exact sorted.2.1.1 r inAfter
    · intro r inBefore s inRest
      have smaller := sorted.2.2 r inBefore
      rcases List.mem_cons.mp inRest with rfl | inRest
      · exact smaller s List.mem_cons_self
      · rcases List.mem_cons.mp inRest with rfl | inAfter
        · exact Nat.lt_trans (smaller p List.mem_cons_self) above
        · exact smaller s (List.mem_cons_of_mem _ inAfter)
  · obtain ⟨node, rest, same⟩ := ok.first
    rw [split] at same
    cases before with
    | nil =>
        obtain ⟨rfl, _⟩ := List.cons.inj same
        exact ⟨node, (fresh, entry) :: after, rfl⟩
    | cons head tail =>
        obtain ⟨rfl, _⟩ := List.cons.inj same
        exact ⟨node, tail ++ p :: (fresh, entry) :: after, rfl⟩

end Intermed

end Hosk
