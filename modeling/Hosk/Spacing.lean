import Mathlib.Data.Finset.Card
import Mathlib.Data.List.Count
import Mathlib.Data.List.Sort

/-! Items taken out of a list so that no two of them are neighbours, and how many lie between two. -/

section Spacing

variable {α : Type} {taken taken' : α → Prop} {after after' : Prop} {list first second : List α}

/-- No two neighbours are taken, nor is the last item, nor the first one `after` a taken one. -/
def Spaced (taken : α → Prop) : Prop → List α → Prop
  | _, [] => True
  | after, item :: rest => (taken item → ¬ after ∧ rest ≠ []) ∧ Spaced taken (taken item) rest

theorem Spaced.congr (same : ∀ item ∈ list, taken item ↔ taken' item) :
    Spaced taken after list ↔ Spaced taken' after list := by
  induction list generalizing after with
  | nil => exact Iff.rfl
  | cons item rest ih =>
      have here := same item List.mem_cons_self
      rw [Spaced, Spaced, ih fun other member => same other (List.mem_cons_of_mem _ member), here]

theorem Spaced.none (free : ∀ item ∈ list, ¬ taken item) : Spaced taken after list := by
  induction list generalizing after with
  | nil => trivial
  | cons item rest ih =>
      exact ⟨fun isTaken => absurd isTaken (free item List.mem_cons_self),
        ih fun other member => free other (List.mem_cons_of_mem _ member)⟩

theorem Spaced.weaken (spaced : Spaced taken after list) (weaker : after' → after) :
    Spaced taken after' list := by
  cases list with
  | nil => trivial
  | cons item rest =>
      exact ⟨fun isTaken => ⟨fun isAfter => (spaced.1 isTaken).1 (weaker isAfter),
        (spaced.1 isTaken).2⟩, spaced.2⟩

theorem Spaced.fewer (spaced : Spaced taken after list)
    (fewer : ∀ item ∈ list, taken' item → taken item) : Spaced taken' after list := by
  induction list generalizing after with
  | nil => trivial
  | cons item rest ih =>
      have here := fewer item List.mem_cons_self
      refine ⟨fun isTaken => spaced.1 (here isTaken), ?_⟩
      exact (ih spaced.2 fun other member => fewer other (List.mem_cons_of_mem _ member)).weaken here

theorem Spaced.strengthen (spaced : Spaced taken after list)
    (free : ∀ item ∈ list.head?, ¬ taken item) : Spaced taken True list := by
  cases list with
  | nil => trivial
  | cons item rest => exact ⟨fun isTaken => absurd isTaken (free item rfl), spaced.2⟩

theorem Spaced.insert {item : α} (spaced : Spaced taken after (first ++ second))
    (free : ¬ taken item) : Spaced taken after (first ++ item :: second) := by
  induction first generalizing after with
  | nil =>
      have never : taken item → after := fun isTaken => absurd isTaken free
      exact ⟨fun isTaken => absurd isTaken free, Spaced.weaken spaced never⟩
  | cons head first ih =>
      refine ⟨fun isTaken => ⟨(spaced.1 isTaken).1, ?_⟩, ih spaced.2⟩
      exact List.append_ne_nil_of_right_ne_nil first (List.cons_ne_nil item second)

theorem Spaced.count_le [DecidablePred taken] (list : List α) : ∀ {after : Prop},
    Spaced taken after list → 2 * list.countP (taken ·) ≤ list.length ∧
      (after → list ≠ [] → 2 * list.countP (taken ·) + 1 ≤ list.length) := by
  induction list with
  | nil => exact fun _ => ⟨Nat.le_refl 0, fun _ nonempty => absurd rfl nonempty⟩
  | cons item rest ih =>
      intro after spaced
      obtain ⟨atMost, fewer⟩ := ih spaced.2
      rw [List.countP_cons, List.length_cons]
      by_cases isTaken : taken item
      · obtain ⟨notAfter, nonempty⟩ := spaced.1 isTaken
        have more := fewer isTaken nonempty
        simp only [isTaken, decide_true, if_true]
        exact ⟨by omega, fun isAfter => absurd isAfter notAfter⟩
      · simp only [isTaken, decide_false, Bool.false_eq_true, if_false]
        exact ⟨by omega, fun _ _ => by omega⟩

end Spacing

section Between

variable {α : Type} [LinearOrder α] {seen seen' : Finset α} {low middle high : α}

def itemsBetween (seen : Finset α) (low high : α) : Finset α :=
  seen.filter fun item => low < item ∧ item < high

theorem mem_itemsBetween {item : α} :
    item ∈ itemsBetween seen low high ↔ item ∈ seen ∧ low < item ∧ item < high :=
  Finset.mem_filter

theorem itemsBetween_mono (more : seen ⊆ seen') :
    (itemsBetween seen low high).card ≤ (itemsBetween seen' low high).card :=
  Finset.card_le_card (Finset.filter_subset_filter _ more)

theorem itemsBetween_split (member : middle ∈ seen) (above : low < middle) (below : middle < high) :
    (itemsBetween seen low middle).card + 1 + (itemsBetween seen middle high).card ≤
      (itemsBetween seen low high).card := by
  have fresh : middle ∉ itemsBetween seen middle high := fun again =>
    lt_irrefl _ (mem_itemsBetween.mp again).2.1
  have apart : Disjoint (itemsBetween seen low middle) (insert middle (itemsBetween seen middle high)) := by
    refine Finset.disjoint_left.mpr fun item inLow inHigh => ?_
    have before := (mem_itemsBetween.mp inLow).2.2
    rcases Finset.mem_insert.mp inHigh with rfl | behind
    · exact lt_irrefl _ before
    · exact lt_asymm before (mem_itemsBetween.mp behind).2.1
  have inside : itemsBetween seen low middle ∪ insert middle (itemsBetween seen middle high) ⊆
      itemsBetween seen low high := by
    intro item either
    rcases Finset.mem_union.mp either with inLow | inHigh
    · obtain ⟨isSeen, first, second⟩ := mem_itemsBetween.mp inLow
      exact mem_itemsBetween.mpr ⟨isSeen, first, second.trans below⟩
    · rcases Finset.mem_insert.mp inHigh with rfl | behind
      · exact mem_itemsBetween.mpr ⟨member, above, below⟩
      · obtain ⟨isSeen, first, second⟩ := mem_itemsBetween.mp behind
        exact mem_itemsBetween.mpr ⟨isSeen, above.trans first, second⟩
  have size := Finset.card_le_card inside
  rw [Finset.card_union_of_disjoint apart, Finset.card_insert_of_notMem fresh] at size
  omega

theorem itemsBetween_ends (first : low ∈ seen) (last : high ∈ seen) (order : low < high) :
    (itemsBetween seen low high).card + 2 ≤ seen.card := by
  have freshHigh : high ∉ itemsBetween seen low high := fun again =>
    lt_irrefl _ (mem_itemsBetween.mp again).2.2
  have freshLow : low ∉ insert high (itemsBetween seen low high) := by
    intro again
    rcases Finset.mem_insert.mp again with same | behind
    · exact ne_of_lt order same
    · exact lt_irrefl _ (mem_itemsBetween.mp behind).2.1
  have inside : insert low (insert high (itemsBetween seen low high)) ⊆ seen := by
    intro item either
    rcases Finset.mem_insert.mp either with rfl | either
    · exact first
    · rcases Finset.mem_insert.mp either with rfl | behind
      · exact last
      · exact (mem_itemsBetween.mp behind).1
  have size := Finset.card_le_card inside
  rw [Finset.card_insert_of_notMem freshLow, Finset.card_insert_of_notMem freshHigh] at size
  omega

end Between
