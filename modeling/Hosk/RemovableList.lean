import Mathlib.Logic.Relation
import Hosk.DataLayerList

/-!
Data lists with physically removable nodes. Such a node holds its own address as its value, and may
have a marker behind it: a node of key 0 that leads back to it.
-/

namespace Hosk

/-- A node of the list, with the marker behind it if there is one. -/
structure DataCell where
  node : Nat
  marker : Option Nat
  deriving DecidableEq

def DataCell.addresses (cell : DataCell) : List Nat := cell.node :: cell.marker.toList

def addresses (cells : List DataCell) : List Nat := cells.flatMap DataCell.addresses

section Addresses

variable {before after : List DataCell} {cell : DataCell}

@[simp] theorem addresses_nil : addresses [] = [] := rfl

@[simp] theorem addresses_cons : addresses (cell :: after) = cell.addresses ++ addresses after := rfl

@[simp] theorem addresses_append : addresses (before ++ after) = addresses before ++ addresses after :=
  List.flatMap_append

theorem node_mem_addresses {cells : List DataCell} (member : cell ∈ cells) :
    cell.node ∈ addresses cells :=
  List.mem_flatMap.mpr ⟨cell, member, List.mem_cons_self⟩

theorem marker_mem_addresses {cells : List DataCell} (member : cell ∈ cells) {marker : Nat}
    (has : marker ∈ cell.marker) : marker ∈ addresses cells :=
  List.mem_flatMap.mpr ⟨cell, member, List.mem_cons_of_mem _ (Option.mem_toList.mpr has)⟩

def firstCell (cells : List DataCell) : Nat := (cells.map DataCell.node).headD 0

theorem headD_addresses (cells : List DataCell) : (addresses cells).headD 0 = firstCell cells := by
  cases cells <;> rfl

end Addresses

def Kept (nodes nodes' : Nodes) : Prop :=
  ∀ address node, Store.get nodes address = some node →
    ∃ next, Store.get nodes' address = some { node with next := next }

namespace Kept

variable {nodes middle nodes' : Nodes} {address : Nat} {node : Node}

theorem refl (nodes : Nodes) : Kept nodes nodes := fun _ node stored => ⟨node.next, stored⟩

theorem trans (left : Kept nodes middle) (right : Kept middle nodes') : Kept nodes nodes' := by
  intro address node stored
  obtain ⟨next, stored⟩ := left address node stored
  obtain ⟨next', stored'⟩ := right address _ stored
  exact ⟨next', stored'⟩

theorem relink (stored : Store.get nodes address = some node) (next : Nat) :
    Kept nodes (Store.set nodes address { node with next := next }) := by
  intro other old found
  by_cases same : address = other
  · subst same
    obtain rfl := Option.some.inj (stored.symm.trans found)
    exact ⟨next, Store.get_set_same _ _ _⟩
  · exact ⟨old.next, (Store.get_set_other _ same).trans found⟩

theorem add (free : Store.get nodes address = none) (new : Node) :
    Kept nodes (Store.set nodes address new) := by
  intro other old found
  have apart : address ≠ other := by
    rintro rfl
    exact absurd (free.symm.trans found) (Option.some_ne_none old).symm
  exact ⟨old.next, (Store.get_set_other _ apart).trans found⟩

variable (kept : Kept nodes nodes') (stored : Store.get nodes address = some node)

include kept stored

theorem keyAt_eq : keyAt nodes' address = keyAt nodes address := by
  obtain ⟨next, stored'⟩ := kept address node stored
  rw [keyAt_found stored', keyAt_found stored]

theorem valAt_eq : valAt nodes' address = valAt nodes address := by
  obtain ⟨next, stored'⟩ := kept address node stored
  rw [valAt_found stored', valAt_found stored]

theorem prevAt_eq : prevAt nodes' address = prevAt nodes address := by
  obtain ⟨next, stored'⟩ := kept address node stored
  rw [prevAt_found stored', prevAt_found stored]

end Kept

theorem nextOf_set_same (nodes : Nodes) (address : Nat) (node : Node) :
    nextOf (Store.set nodes address node) address = some node.next := by
  simp [nextOf]

theorem nextOf_set_apart {nodes : Nodes} {address other : Nat} (node : Node) (apart : address ≠ other) :
    nextOf (Store.set nodes address node) other = nextOf nodes other := by
  simp only [nextOf, Store.get_set_other _ apart]

/-- A list from the sentinel that is strictly increasing in key apart from the markers; only
removable nodes have one. -/
structure RemovableList (head : Nat) (nodes : Nodes) (cells : List DataCell) : Prop where
  chain : Chain (nextOf nodes) head (addresses cells)
  headListed : ⟨head, none⟩ ∈ cells
  headKey : keyAt nodes head = 0
  headVal : valAt nodes head = 0
  headPrev : prevAt nodes head = 0
  sorted : (cells.map DataCell.node).Pairwise fun before after => keyAt nodes before < keyAt nodes after
  markers : ∀ cell ∈ cells, ∀ marker ∈ cell.marker, valAt nodes cell.node = cell.node ∧
    keyAt nodes marker = 0 ∧ valAt nodes marker = marker ∧ prevAt nodes marker = cell.node

namespace RemovableList

variable {head : Nat} {nodes nodes' : Nodes} {cells before after : List DataCell}

theorem nonzero (list : RemovableList head nodes cells) {address : Nat}
    (member : address ∈ addresses cells) : address ≠ 0 :=
  list.chain.ne_zero address member

theorem head_live (list : RemovableList head nodes cells) : valAt nodes head ≠ head := by
  rw [list.headVal]
  exact (list.nonzero (node_mem_addresses list.headListed)).symm

theorem stored (list : RemovableList head nodes cells) {address : Nat}
    (member : address ∈ addresses cells) : ∃ node, Store.get nodes address = some node := by
  obtain ⟨first, rest, split⟩ := List.append_of_mem member
  have chain := list.chain
  rw [split] at chain
  obtain ⟨node, found, _⟩ := Option.map_eq_some_iff.mp chain.next_eq
  exact ⟨node, found⟩

theorem unmarked (list : RemovableList head nodes cells) {cell : DataCell} (member : cell ∈ cells)
    (live : valAt nodes cell.node ≠ cell.node) : cell = ⟨cell.node, none⟩ := by
  obtain ⟨node, marker⟩ := cell
  cases marker with
  | none => rfl
  | some marker => exact absurd (list.markers _ member marker rfl).1 live

theorem next_stored {address : Nat} {node : Node}
    (list : RemovableList head nodes (before ++ ⟨address, none⟩ :: after))
    (found : Store.get nodes address = some node) : node.next = firstCell after := by
  have chain := list.chain
  simp only [addresses_append, addresses_cons, DataCell.addresses, Option.toList_none, List.cons_append,
    List.nil_append] at chain
  have next := chain.next_eq
  rw [nextOf_found found, headD_addresses] at next
  exact Option.some.inj next

theorem same_cell (list : RemovableList head nodes cells) {left right : DataCell} (inLeft : left ∈ cells)
    (inRight : right ∈ cells) (same : keyAt nodes left.node = keyAt nodes right.node) : left = right := by
  have distinct : ((cells.map DataCell.node).map (keyAt nodes)).Nodup :=
    List.pairwise_map.mpr (list.sorted.imp Nat.ne_of_lt)
  rw [List.map_map] at distinct
  exact List.inj_on_of_nodup_map distinct inLeft inRight same

theorem kept_sorted {cells' : List DataCell} (list : RemovableList head nodes cells)
    (kept : Kept nodes nodes') (fewer : (cells'.map DataCell.node).Sublist (cells.map DataCell.node)) :
    (cells'.map DataCell.node).Pairwise fun before after => keyAt nodes' before < keyAt nodes' after := by
  have foundNode : ∀ address ∈ cells.map DataCell.node, ∃ node, Store.get nodes address = some node := by
    intro address member
    obtain ⟨cell, inCells, rfl⟩ := List.mem_map.mp member
    exact list.stored (node_mem_addresses inCells)
  refine (list.sorted.sublist fewer).imp_of_mem ?_
  intro first second inFirst inSecond smaller
  obtain ⟨firstNode, foundFirst⟩ := foundNode first (fewer.subset inFirst)
  obtain ⟨secondNode, foundSecond⟩ := foundNode second (fewer.subset inSecond)
  rw [kept.keyAt_eq foundFirst, kept.keyAt_eq foundSecond]
  exact smaller

theorem relinked {cells' : List DataCell} (list : RemovableList head nodes cells)
    (kept : Kept nodes nodes') (chain : Chain (nextOf nodes') head (addresses cells'))
    (headListed : ⟨head, none⟩ ∈ cells')
    (sorted : (cells'.map DataCell.node).Pairwise fun before after =>
      keyAt nodes' before < keyAt nodes' after)
    (markers : ∀ cell ∈ cells', cell ∉ cells → ∀ marker ∈ cell.marker,
      valAt nodes' cell.node = cell.node ∧ keyAt nodes' marker = 0 ∧ valAt nodes' marker = marker ∧
        prevAt nodes' marker = cell.node) : RemovableList head nodes' cells' := by
  obtain ⟨sentinel, foundHead⟩ := list.stored (node_mem_addresses list.headListed)
  refine ⟨chain, headListed, ?_, ?_, ?_, sorted, ?_⟩
  · rw [kept.keyAt_eq foundHead, list.headKey]
  · rw [kept.valAt_eq foundHead, list.headVal]
  · rw [kept.prevAt_eq foundHead, list.headPrev]
  · intro cell member marker has
    by_cases old : cell ∈ cells
    · obtain ⟨node, found⟩ := list.stored (node_mem_addresses old)
      obtain ⟨markerNode, foundMarker⟩ := list.stored (marker_mem_addresses old has)
      rw [kept.valAt_eq found, kept.keyAt_eq foundMarker, kept.valAt_eq foundMarker,
        kept.prevAt_eq foundMarker]
      exact list.markers cell old marker has
    · exact markers cell member old marker has

theorem insertBehind {address new : Nat} {node : Node} (content : Node)
    (list : RemovableList head nodes (before ++ ⟨address, none⟩ :: after))
    (found : Store.get nodes address = some node) (nonzero : new ≠ 0)
    (free : Store.get nodes new = none) (onward : content.next = node.next)
    (stored : Store.set (Store.set nodes new content) address { node with next := new } = nodes') :
    Kept nodes nodes' ∧ Store.get nodes' new = some content ∧
      Chain (nextOf nodes') head (addresses before ++ address :: new :: addresses after) := by
  have apart : ∀ other ∈ addresses (before ++ ⟨address, none⟩ :: after), new ≠ other := by
    rintro other member rfl
    obtain ⟨otherNode, foundOther⟩ := list.stored member
    exact absurd (free.symm.trans foundOther) (Option.some_ne_none otherNode).symm
  have chain := list.chain
  simp only [addresses_append, addresses_cons, DataCell.addresses, Option.toList_none, List.cons_append,
    List.nil_append] at chain apart
  have notSelf : new ≠ address := apart address (by simp)
  have foundStill : Store.get (Store.set nodes new content) address = some node :=
    (Store.get_set_other _ notSelf).trans found
  have foundNew : Store.get nodes' new = some content := by
    rw [← stored, Store.get_set_other _ notSelf.symm, Store.get_set_same]
  have elsewhere : ∀ other, address ≠ other → new ≠ other → nextOf nodes' other = nextOf nodes other := by
    intro other differs isNot
    rw [← stored, nextOf_set_apart _ differs, nextOf_set_apart _ isNot]
  have distinct := chain.nodup
  have notBefore : address ∉ addresses before := fun inBefore =>
    List.disjoint_of_nodup_append distinct inBefore List.mem_cons_self
  have notAfter : address ∉ addresses after :=
    (List.nodup_cons.mp (List.Nodup.of_append_right distinct)).1
  refine ⟨?_, foundNew, chain.insertAfter nonzero ?_ ?_ ?_ ?_⟩
  · rw [← stored]
    exact (Kept.add free content).trans (Kept.relink foundStill new)
  · intro other inBefore
    exact elsewhere other (fun same => notBefore (same ▸ inBefore)) (apart other (by simp [inBefore]))
  · intro other inAfter
    exact elsewhere other (fun same => notAfter (same ▸ inAfter)) (apart other (by simp [inAfter]))
  · rw [← stored, nextOf_set_same]
  · rw [nextOf_found foundNew, nextOf_found found, onward]

theorem mark {address marker : Nat} {node : Node}
    (list : RemovableList head nodes (before ++ ⟨address, none⟩ :: after))
    (found : Store.get nodes address = some node) (own : node.val = address) (nonzero : marker ≠ 0)
    (free : Store.get nodes marker = none)
    (stored : Store.set (Store.set nodes marker ⟨address, node.next, marker, 0, 0⟩) address
      { node with next := marker } = nodes') :
    RemovableList head nodes' (before ++ ⟨address, some marker⟩ :: after) := by
  obtain ⟨kept, foundMarker, chain⟩ := list.insertBehind ⟨address, node.next, marker, 0, 0⟩ found
    nonzero free rfl stored
  refine list.relinked kept ?_ ?_ (list.kept_sorted kept (by simp)) ?_
  · simpa [DataCell.addresses] using chain
  · have listed := list.headListed
    have other : (⟨head, none⟩ : DataCell) ≠ ⟨address, none⟩ := by
      intro same
      obtain rfl : head = address := congrArg DataCell.node same
      exact list.head_live ((valAt_found found).trans own)
    simp only [List.mem_append, List.mem_cons, other, false_or] at listed ⊢
    exact listed.imp_right Or.inr
  · intro cell member new other has
    have isMarked : cell = ⟨address, some marker⟩ := by
      simp only [List.mem_append, List.mem_cons] at member new
      tauto
    subst isMarked
    obtain rfl : marker = other := Option.some.inj has
    have markerVal : valAt nodes' address = address := by
      rw [kept.valAt_eq found, valAt_found found, own]
    exact ⟨markerVal, keyAt_found foundMarker, valAt_found foundMarker, prevAt_found foundMarker⟩

theorem unlink {address removed marker : Nat} {node markerNode : Node}
    (list : RemovableList head nodes (before ++ ⟨address, none⟩ :: ⟨removed, some marker⟩ :: after))
    (found : Store.get nodes address = some node) (foundMarker : Store.get nodes marker = some markerNode) :
    RemovableList head (Store.set nodes address { node with next := markerNode.next })
      (before ++ ⟨address, none⟩ :: after) := by
  have chain := list.chain
  simp only [addresses_append, addresses_cons, DataCell.addresses, Option.toList_none,
    Option.toList_some, List.cons_append, List.nil_append] at chain
  have distinct := chain.nodup
  have notBefore : address ∉ addresses before := fun inBefore =>
    List.disjoint_of_nodup_append distinct inBefore List.mem_cons_self
  have notAfter : address ∉ addresses after := by
    have notLater := (List.nodup_cons.mp (List.Nodup.of_append_right distinct)).1
    simp only [List.mem_cons, not_or] at notLater
    exact notLater.2.2
  have behind : Chain (nextOf nodes) markerNode.next (addresses after) := by
    rw [show addresses before ++ address :: removed :: marker :: addresses after =
      (addresses before ++ [address, removed]) ++ marker :: addresses after by simp] at chain
    obtain ⟨_, _, successor, next, later⟩ := chain.suffix_cons
    rw [nextOf_found foundMarker] at next
    rw [Option.some.inj next]
    exact later
  refine list.relinked (Kept.relink found _) ?_ ?_ (list.kept_sorted (Kept.relink found _) (by simp)) ?_
  · simp only [addresses_append, addresses_cons, DataCell.addresses, Option.toList_none, List.cons_append,
      List.nil_append]
    refine chain.replace ?_ (nextOf_set_same _ _ _) (behind.congr ?_)
    · intro other inBefore
      exact nextOf_set_apart _ fun same => notBefore (same ▸ inBefore)
    · intro other inAfter
      exact nextOf_set_apart _ fun same => notAfter (same ▸ inAfter)
  · have listed := list.headListed
    simp only [List.mem_append, List.mem_cons, DataCell.mk.injEq, reduceCtorEq, and_false,
      false_or] at listed ⊢
    exact listed
  · intro cell member new
    simp only [List.mem_append, List.mem_cons] at member new
    tauto

theorem link {address new : Nat} {node content : Node}
    (list : RemovableList head nodes (before ++ ⟨address, none⟩ :: after))
    (found : Store.get nodes address = some node) (nonzero : new ≠ 0)
    (free : Store.get nodes new = none) (onward : content.next = node.next)
    (above : node.key < content.key) (below : ∀ cell ∈ after, content.key < keyAt nodes cell.node)
    (stored : Store.set (Store.set nodes new content) address { node with next := new } = nodes') :
    RemovableList head nodes' (before ++ ⟨address, none⟩ :: ⟨new, none⟩ :: after) := by
  obtain ⟨kept, foundNew, chain⟩ := list.insertBehind content found nonzero free onward stored
  have newKey := keyAt_found foundNew
  have sameKey : keyAt nodes' address = node.key := by rw [kept.keyAt_eq found, keyAt_found found]
  refine list.relinked kept ?_ ?_ ?_ ?_
  · simpa [DataCell.addresses] using chain
  · have listed := list.headListed
    simp only [List.mem_append, List.mem_cons] at listed ⊢
    tauto
  · have sorted := list.kept_sorted kept (List.Sublist.refl _)
    rw [List.map_append, List.pairwise_append, List.map_cons, List.pairwise_cons] at sorted
    rw [List.map_append, List.pairwise_append, List.map_cons, List.pairwise_cons, List.map_cons,
      List.pairwise_cons]
    refine ⟨sorted.1, ⟨?_, ?_, sorted.2.1.2⟩, ?_⟩
    · intro other member
      rcases List.mem_cons.mp member with rfl | later
      · rw [sameKey, newKey]
        exact above
      · exact sorted.2.1.1 other later
    · intro other member
      obtain ⟨cell, inAfter, rfl⟩ := List.mem_map.mp member
      obtain ⟨cellNode, foundCell⟩ := list.stored
        (node_mem_addresses (List.mem_append_right before (List.mem_cons_of_mem _ inAfter)))
      rw [newKey, kept.keyAt_eq foundCell]
      exact below cell inAfter
    · intro first inBefore other member
      have upTo := sorted.2.2 first inBefore
      rcases List.mem_cons.mp member with rfl | member
      · exact upTo other List.mem_cons_self
      · rcases List.mem_cons.mp member with rfl | later
        · have smaller := upTo address List.mem_cons_self
          rw [newKey]
          omega
        · exact upTo other (List.mem_cons_of_mem _ later)
  · intro cell member isNew marker has
    have isCell : cell = ⟨new, none⟩ := by
      simp only [List.mem_append, List.mem_cons] at member isNew
      tauto
    rw [isCell] at has
    exact absurd has (by simp)

theorem rewritten {address : Nat} {node changed : Node} (list : RemovableList head nodes cells)
    (found : Store.get nodes address = some node) (positive : node.key ≠ 0)
    (sameKey : changed.key = node.key) (sameNext : changed.next = node.next)
    (sameVal : changed.val = node.val ∨ ⟨address, none⟩ ∈ cells) :
    RemovableList head (Store.set nodes address changed) cells := by
  have key := ListOk.keyAt_set changed found sameKey
  have next := ListOk.nextOf_set changed found sameNext
  have isZero : ∀ {other : Nat}, keyAt nodes other = 0 → address ≠ other := by
    rintro other zero rfl
    exact positive (keyAt_found found ▸ zero)
  have apartHead := isZero list.headKey
  refine ⟨list.chain.congr fun other _ => next other, list.headListed, ?_, ?_, ?_, ?_, ?_⟩
  · rw [key, list.headKey]
  · rw [ListOk.valAt_set, if_neg apartHead, list.headVal]
  · rw [ListOk.prevAt_set, if_neg apartHead, list.headPrev]
  · simp only [key]
    exact list.sorted
  · intro cell member marker has
    obtain ⟨own, zero, markerOwn, back⟩ := list.markers cell member marker has
    have apart := isZero zero
    rw [key, ListOk.valAt_set, ListOk.valAt_set, ListOk.prevAt_set, if_neg apart, if_neg apart]
    refine ⟨?_, zero, markerOwn, back⟩
    split
    · next same =>
        rcases sameVal with sameVal | unmarked
        · rw [sameVal, ← valAt_found found, same, own]
        · have isCell := list.same_cell unmarked member (by simp [same])
          rw [← isCell] at has
          exact absurd has (by simp)
    · exact own

end RemovableList

/-- The nodes that an entry or a prev pointer may still lead to. Those that are linked no more are
removable ones. -/
structure Backed (head : Nat) (nodes : Nodes) (cells : List DataCell) (known : List Nat) : Prop where
  listed : ∀ cell ∈ cells, cell.node ∈ known
  nonzero : ∀ address ∈ known, address ≠ 0
  stored : ∀ address ∈ known, ∃ node, Store.get nodes address = some node
  prevs : ∀ address ∈ known, address ≠ head →
    prevAt nodes address ∈ known ∧ keyAt nodes (prevAt nodes address) < keyAt nodes address
  linked : ∀ address ∈ known, valAt nodes address ≠ address → ⟨address, none⟩ ∈ cells

def WalksBack (nodes : Nodes) : Nat → Nat → Prop :=
  Relation.ReflTransGen fun address before =>
    valAt nodes address = address ∧ before = prevAt nodes address

end Hosk
