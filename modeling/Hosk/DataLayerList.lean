import Mathlib.Data.Finset.Insert
import Mathlib.Data.List.Pairwise
import Mathlib.Tactic.Common
import Hosk.Chain
import Hosk.DataLayerCore

/-! The shared data list as a sorted chain, and what each kind of store does to it. -/

namespace Hosk

def nextOf (nodes : Nodes) (address : Nat) : Option Nat := (Store.get nodes address).map Node.next

def keyAt (nodes : Nodes) (address : Nat) : Nat := (Store.get nodes address).elim 0 Node.key

def valAt (nodes : Nodes) (address : Nat) : Nat := (Store.get nodes address).elim 0 Node.val

def prevAt (nodes : Nodes) (address : Nat) : Nat := (Store.get nodes address).elim 0 Node.prev

section Reading

variable {nodes : Nodes} {address : Nat} {node : Node}

theorem nextOf_found (found : Store.get nodes address = some node) :
    nextOf nodes address = some node.next := by
  simp [nextOf, found]

theorem keyAt_found (found : Store.get nodes address = some node) :
    keyAt nodes address = node.key := by
  simp [keyAt, found]

theorem valAt_found (found : Store.get nodes address = some node) :
    valAt nodes address = node.val := by
  simp [valAt, found]

theorem prevAt_found (found : Store.get nodes address = some node) :
    prevAt nodes address = node.prev := by
  simp [prevAt, found]

end Reading

/-- The list from the sentinel is finite and strictly increasing in key, prev pointers lead back to
smaller keys, and the linked nodes with a value hold exactly the given keys. -/
structure ListOk (head : Nat) (nodes : Nodes) (linked : List Nat) (keys : Finset Nat) : Prop where
  chain : Chain (nextOf nodes) head linked
  headLinked : head ∈ linked
  headKey : keyAt nodes head = 0
  sorted : linked.Pairwise fun before after => keyAt nodes before < keyAt nodes after
  notOwn : ∀ address ∈ linked, valAt nodes address ≠ address
  prevs : ∀ address ∈ linked, address ≠ head →
    prevAt nodes address ∈ linked ∧ keyAt nodes (prevAt nodes address) < keyAt nodes address
  members : ∀ key, 1 ≤ key →
    (key ∈ keys ↔ ∃ address ∈ linked, keyAt nodes address = key ∧ valAt nodes address ≠ 0)

namespace ListOk

variable {head : Nat} {nodes stored : Nodes} {linked : List Nat} {keys : Finset Nat}

theorem initial {head : Nat} (nonzero : head ≠ 0) :
    ListOk head (DataLayer.new head).nodes [head] ∅ := by
  have found : Store.get (DataLayer.new head).nodes head = some ⟨0, 0, 0, 0, 0⟩ := by
    simp [DataLayer.new, Store.get]
  refine ⟨⟨rfl, nonzero, 0, nextOf_found found, rfl⟩, List.mem_singleton_self head,
    keyAt_found found, List.pairwise_singleton _ _, ?_, ?_, ?_⟩
  · intro address member
    rw [List.mem_singleton.mp member, valAt_found found]
    exact fun same => nonzero same.symm
  · intro address member other
    exact absurd (List.mem_singleton.mp member) other
  · intro key _
    simp [valAt_found found]

theorem nonzero (ok : ListOk head nodes linked keys) {address : Nat} (member : address ∈ linked) :
    address ≠ 0 :=
  ok.chain.ne_zero address member

theorem found (ok : ListOk head nodes linked keys) {address : Nat} (member : address ∈ linked) :
    ∃ node, Store.get nodes address = some node ∧ ∃ before after,
      linked = before ++ address :: after ∧ node.next = after.headD 0 := by
  obtain ⟨before, after, split⟩ := List.append_of_mem member
  have chain := ok.chain
  rw [split] at chain
  have next := chain.next_eq
  rw [nextOf, Option.map_eq_some_iff] at next
  obtain ⟨node, stored, successor⟩ := next
  exact ⟨node, stored, before, after, split, successor⟩

theorem successor (ok : ListOk head nodes linked keys) {address : Nat} {node : Node}
    (member : address ∈ linked) (stored : Store.get nodes address = some node)
    (present : node.next ≠ 0) :
    node.next ∈ linked ∧ keyAt nodes address < keyAt nodes node.next := by
  obtain ⟨same, foundSame, before, after, split, next⟩ := ok.found member
  obtain rfl : same = node := by rw [foundSame] at stored; exact Option.some.inj stored
  have sorted := ok.sorted
  cases after with
  | nil => exact absurd next present
  | cons successor rest =>
      rw [List.headD_cons] at next
      rw [split, List.pairwise_append, List.pairwise_cons] at sorted
      rw [next, split]
      exact ⟨by simp, sorted.2.1.1 successor List.mem_cons_self⟩

theorem same_of_key (ok : ListOk head nodes linked keys) {left right : Nat}
    (leftLinked : left ∈ linked) (rightLinked : right ∈ linked)
    (same : keyAt nodes left = keyAt nodes right) : left = right := by
  have distinct : (linked.map (keyAt nodes)).Nodup :=
    List.pairwise_map.mpr (ok.sorted.imp Nat.ne_of_lt)
  exact List.inj_on_of_nodup_map distinct leftLinked rightLinked same

theorem mem_iff (ok : ListOk head nodes linked keys) {address : Nat} (member : address ∈ linked)
    (positive : 1 ≤ keyAt nodes address) :
    keyAt nodes address ∈ keys ↔ valAt nodes address ≠ 0 := by
  rw [ok.members _ positive]
  constructor
  · rintro ⟨other, otherLinked, sameKey, present⟩
    rw [ok.same_of_key member otherLinked sameKey.symm]
    exact present
  · intro present
    exact ⟨address, member, rfl, present⟩

theorem gap (ok : ListOk head nodes linked keys) {address key : Nat} {node : Node}
    (member : address ∈ linked) (stored : Store.get nodes address = some node)
    (above : keyAt nodes address < key) (below : node.next = 0 ∨ key < keyAt nodes node.next) :
    ∀ other ∈ linked, keyAt nodes other ≠ key := by
  obtain ⟨same, foundSame, before, after, split, next⟩ := ok.found member
  obtain rfl : same = node := by rw [foundSame] at stored; exact Option.some.inj stored
  have sorted := ok.sorted
  rw [split, List.pairwise_append, List.pairwise_cons] at sorted
  intro other otherLinked
  rw [split, List.mem_append, List.mem_cons] at otherLinked
  rcases otherLinked with inBefore | rfl | inAfter
  · have smaller := sorted.2.2 other inBefore address List.mem_cons_self
    omega
  · omega
  · cases after with
    | nil => exact absurd inAfter List.not_mem_nil
    | cons successor rest =>
        have nonzero : successor ≠ 0 := ok.nonzero (by rw [split]; simp)
        rw [List.headD_cons] at next
        rw [next] at below
        have bound : key < keyAt nodes successor := by
          rcases below with isNull | bound
          · exact absurd isNull nonzero
          · exact bound
        rcases List.mem_cons.mp inAfter with rfl | inRest
        · omega
        · have later := (List.pairwise_cons.mp sorted.2.1.2).1 other inRest
          omega

theorem absent (ok : ListOk head nodes linked keys) {address key : Nat} {node : Node}
    (member : address ∈ linked) (stored : Store.get nodes address = some node)
    (above : keyAt nodes address < key) (below : node.next = 0 ∨ key < keyAt nodes node.next) :
    key ∉ keys := by
  rw [ok.members key (by omega)]
  rintro ⟨other, otherLinked, sameKey, _⟩
  exact ok.gap member stored above below other otherLinked sameKey

theorem congr (ok : ListOk head nodes linked keys)
    (agree : ∀ address ∈ linked, Store.get stored address = Store.get nodes address) :
    ListOk head stored linked keys := by
  have sameKey : ∀ address ∈ linked, keyAt stored address = keyAt nodes address := by
    intro address member
    simp only [keyAt, agree address member]
  have sameVal : ∀ address ∈ linked, valAt stored address = valAt nodes address := by
    intro address member
    simp only [valAt, agree address member]
  have samePrev : ∀ address ∈ linked, prevAt stored address = prevAt nodes address := by
    intro address member
    simp only [prevAt, agree address member]
  refine ⟨ok.chain.congr ?_, ok.headLinked, ?_, ?_, ?_, ?_, ?_⟩
  · intro address member
    simp only [nextOf, agree address member]
  · rw [sameKey head ok.headLinked]
    exact ok.headKey
  · refine ok.sorted.imp_of_mem ?_
    intro before after inBefore inAfter smaller
    rw [sameKey before inBefore, sameKey after inAfter]
    exact smaller
  · intro address member
    rw [sameVal address member]
    exact ok.notOwn address member
  · intro address member other
    have prev := ok.prevs address member other
    rw [samePrev address member, sameKey _ prev.1, sameKey address member]
    exact prev
  · intro key positive
    rw [ok.members key positive]
    constructor
    · rintro ⟨address, member, facts⟩
      exact ⟨address, member, by rwa [sameKey address member, sameVal address member]⟩
    · rintro ⟨address, member, facts⟩
      exact ⟨address, member, by rwa [sameKey address member, sameVal address member] at facts⟩

section Rewrite

variable {address : Nat} {node : Node} (changed : Node)

theorem keyAt_set (member : Store.get nodes address = some node) (sameKey : changed.key = node.key)
    (other : Nat) : keyAt (Store.set nodes address changed) other = keyAt nodes other := by
  by_cases same : address = other
  · subst other
    simp [keyAt, member, sameKey]
  · simp only [keyAt, Store.get_set_other changed same]

theorem nextOf_set (member : Store.get nodes address = some node)
    (sameNext : changed.next = node.next) (other : Nat) :
    nextOf (Store.set nodes address changed) other = nextOf nodes other := by
  by_cases same : address = other
  · subst other
    simp [nextOf, member, sameNext]
  · simp only [nextOf, Store.get_set_other changed same]

theorem valAt_set (other : Nat) : valAt (Store.set nodes address changed) other =
    if address = other then changed.val else valAt nodes other := by
  simp only [valAt, Store.get_set]
  split <;> rfl

theorem prevAt_set (other : Nat) : prevAt (Store.set nodes address changed) other =
    if address = other then changed.prev else prevAt nodes other := by
  simp only [prevAt, Store.get_set]
  split <;> rfl

theorem storeVal (ok : ListOk head nodes linked keys) (member : address ∈ linked)
    (stored : Store.get nodes address = some node) {val : Nat} (notOwn : val ≠ address) :
    ListOk head (Store.set nodes address { node with val := val }) linked
      (if val = 0 then keys.erase (keyAt nodes address)
        else insert (keyAt nodes address) keys) := by
  rw [keyAt_found stored]
  have key := keyAt_set { node with val := val } stored rfl
  have own := keyAt_found stored
  have prev : ∀ other, prevAt (Store.set nodes address { node with val := val }) other =
      prevAt nodes other := by
    intro other
    rw [prevAt_set]
    split
    · next same => rw [← same, prevAt_found stored]
    · rfl
  have next := nextOf_set { node with val := val } stored rfl
  refine ⟨ok.chain.congr fun other _ => next other, ok.headLinked, ?_, ?_, ?_, ?_, ?_⟩
  · rw [key]
    exact ok.headKey
  · simp only [key]
    exact ok.sorted
  · intro other otherLinked
    rw [valAt_set]
    split
    · next same => rw [← same]; exact notOwn
    · exact ok.notOwn other otherLinked
  · intro other otherLinked different
    rw [prev, key, key]
    exact ok.prevs other otherLinked different
  · intro wanted wantedPositive
    have split : wanted ∈ (if val = 0 then keys.erase node.key else insert node.key keys) ↔
        if wanted = node.key then val ≠ 0 else wanted ∈ keys := by
      by_cases null : val = 0 <;> by_cases same : wanted = node.key <;> simp [null, same]
    rw [split]
    simp only [key]
    by_cases same : wanted = node.key
    · rw [if_pos same]
      constructor
      · intro present
        exact ⟨address, member, own.trans same.symm, by rw [valAt_set, if_pos rfl]; exact present⟩
      · rintro ⟨other, otherLinked, otherKey, present⟩
        have isAddress : address = other :=
          ok.same_of_key member otherLinked (by rw [own, otherKey, same])
        rw [valAt_set, if_pos isAddress] at present
        exact present
    · rw [if_neg same, ok.members wanted wantedPositive]
      refine exists_congr fun other => and_congr_right fun otherLinked => and_congr_right fun holds => ?_
      have apart : address ≠ other := by
        rintro rfl
        exact same (holds.symm.trans own)
      rw [valAt_set, if_neg apart]

theorem storePrev (ok : ListOk head nodes linked keys)
    (stored : Store.get nodes address = some node) {prev : Nat} (prevLinked : prev ∈ linked)
    (smaller : keyAt nodes prev < node.key) :
    ListOk head (Store.set nodes address { node with prev := prev }) linked keys := by
  have key := keyAt_set { node with prev := prev } stored rfl
  have val : ∀ other, valAt (Store.set nodes address { node with prev := prev }) other =
      valAt nodes other := by
    intro other
    rw [valAt_set]
    split
    · next same => rw [← same, valAt_found stored]
    · rfl
  have next := nextOf_set { node with prev := prev } stored rfl
  refine ⟨ok.chain.congr fun other _ => next other, ok.headLinked, ?_, ?_, ?_, ?_, ?_⟩
  · rw [key]
    exact ok.headKey
  · simp only [key]
    exact ok.sorted
  · intro other otherLinked
    rw [val]
    exact ok.notOwn other otherLinked
  · intro other otherLinked different
    rw [key, key, prevAt_set]
    split
    · next same =>
        rw [← same, keyAt_found stored]
        exact ⟨prevLinked, smaller⟩
    · exact ok.prevs other otherLinked different
  · intro wanted positive
    simp only [key, val]
    exact ok.members wanted positive

end Rewrite

theorem link (ok : ListOk head nodes linked keys) {address fresh : Nat} {node new : Node}
    (member : address ∈ linked) (stored : Store.get nodes address = some node)
    (freshStored : Store.get nodes fresh = some new) (freshNonzero : fresh ≠ 0)
    (freshPrivate : fresh ∉ linked) (back : new.prev = address) (onward : new.next = node.next)
    (above : node.key < new.key) (below : node.next = 0 ∨ new.key < keyAt nodes node.next)
    (value : new.val ≠ 0) (notOwn : new.val ≠ fresh) :
    ∃ grown, linked ⊆ grown ∧ (∀ other, other ∈ grown ↔ other ∈ linked ∨ other = fresh) ∧
      ListOk head (Store.set nodes address { node with next := fresh }) grown
        (insert new.key keys) := by
  obtain ⟨same, foundSame, before, after, split, next⟩ := ok.found member
  obtain rfl : same = node := by rw [foundSame] at stored; exact Option.some.inj stored
  have inGrown : ∀ other, other ∈ before ++ address :: fresh :: after ↔
      other ∈ linked ∨ other = fresh := by
    intro other
    rw [split]
    simp only [List.mem_append, List.mem_cons]
    tauto
  have apart : address ≠ fresh := by
    rintro rfl
    exact freshPrivate member
  have key := keyAt_set { same with next := fresh } stored rfl
  have val : ∀ other, valAt (Store.set nodes address { same with next := fresh }) other =
      valAt nodes other := by
    intro other
    rw [valAt_set]
    split
    · next equal => rw [← equal, valAt_found stored]
    · rfl
  have prev : ∀ other, prevAt (Store.set nodes address { same with next := fresh }) other =
      prevAt nodes other := by
    intro other
    rw [prevAt_set]
    split
    · next equal => rw [← equal, prevAt_found stored]
    · rfl
  have freshKey := keyAt_found freshStored
  have sorted := ok.sorted
  have chain := ok.chain
  rw [split] at sorted chain
  have nodup : (before ++ address :: after).Nodup :=
    sorted.imp fun {_ _} smaller => fun equal => Nat.ne_of_lt smaller (congrArg (keyAt nodes) equal)
  have notBefore : address ∉ before := fun inBefore =>
    List.disjoint_of_nodup_append nodup inBefore List.mem_cons_self
  have notAfter : address ∉ after :=
    (List.nodup_cons.mp (List.Nodup.of_append_right nodup)).1
  have elsewhere : ∀ other, other ≠ address →
      nextOf (Store.set nodes address { same with next := fresh }) other = nextOf nodes other := by
    intro other different
    simp only [nextOf, Store.get_set_other _ (Ne.symm different)]
  refine ⟨before ++ address :: fresh :: after, fun other inLinked => (inGrown other).mpr (.inl inLinked),
    inGrown, ?_, (inGrown head).mpr (.inl ok.headLinked), ?_, ?_, ?_, ?_, ?_⟩
  · refine chain.insertAfter freshNonzero ?_ ?_ ?_ ?_
    · intro other inBefore
      exact elsewhere other fun equal => notBefore (equal ▸ inBefore)
    · intro other inAfter
      exact elsewhere other fun equal => notAfter (equal ▸ inAfter)
    · simp [nextOf]
    · rw [elsewhere fresh (Ne.symm apart), nextOf_found freshStored, nextOf_found stored, onward]
  · rw [key]
    exact ok.headKey
  · simp only [key]
    rw [List.pairwise_append, List.pairwise_cons] at sorted
    have fromAddress : ∀ other ∈ after, new.key < keyAt nodes other := by
      intro other inAfter
      cases after with
      | nil => exact absurd inAfter List.not_mem_nil
      | cons successor rest =>
          rw [List.headD_cons] at next
          have bound : new.key < keyAt nodes successor := by
            rcases below with isNull | bound
            · exact absurd (next.symm.trans isNull) (ok.nonzero (by rw [split]; simp))
            · rw [← next]; exact bound
          rcases List.mem_cons.mp inAfter with rfl | inRest
          · exact bound
          · exact Nat.lt_trans bound ((List.pairwise_cons.mp sorted.2.1.2).1 other inRest)
    rw [List.pairwise_append, List.pairwise_cons, List.pairwise_cons]
    refine ⟨sorted.1, ⟨?_, ?_, sorted.2.1.2⟩, ?_⟩
    · intro other inRest
      rcases List.mem_cons.mp inRest with rfl | inAfter
      · rw [keyAt_found stored, freshKey]
        exact above
      · exact sorted.2.1.1 other inAfter
    · intro other inAfter
      rw [freshKey]
      exact fromAddress other inAfter
    · intro first inBefore other inRest
      have upTo := sorted.2.2 first inBefore
      rcases List.mem_cons.mp inRest with rfl | inRest
      · exact upTo other List.mem_cons_self
      · rcases List.mem_cons.mp inRest with rfl | inAfter
        · rw [freshKey]
          have smaller := upTo address List.mem_cons_self
          rw [keyAt_found stored] at smaller
          omega
        · exact upTo other (List.mem_cons_of_mem _ inAfter)
  · intro other inside
    rw [val]
    rcases (inGrown other).mp inside with inLinked | rfl
    · exact ok.notOwn other inLinked
    · rw [valAt_found freshStored]
      exact notOwn
  · intro other inside different
    rw [prev, key, key]
    rcases (inGrown other).mp inside with inLinked | rfl
    · have back := ok.prevs other inLinked different
      exact ⟨(inGrown _).mpr (.inl back.1), back.2⟩
    · rw [prevAt_found freshStored, back, freshKey, keyAt_found stored]
      exact ⟨(inGrown _).mpr (.inl member), above⟩
  · intro wanted positive
    simp only [key, val]
    rw [Finset.mem_insert, ok.members wanted positive]
    constructor
    · rintro (rfl | ⟨other, inLinked, facts⟩)
      · exact ⟨fresh, (inGrown fresh).mpr (.inr rfl), freshKey,
          by rw [valAt_found freshStored]; exact value⟩
      · exact ⟨other, (inGrown other).mpr (.inl inLinked), facts⟩
    · rintro ⟨other, inside, otherKey, present⟩
      rcases (inGrown other).mp inside with inLinked | rfl
      · exact .inr ⟨other, inLinked, otherKey, present⟩
      · exact .inl (otherKey.symm.trans freshKey)

end ListOk

end Hosk
