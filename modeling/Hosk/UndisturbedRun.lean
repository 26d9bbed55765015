import Mathlib.Logic.Relation
import Hosk.DataLayerList

/-!
One `sl_traverse_data` with no other thread on the list, whatever the nodes hold and however many
nodes it allocates on the way.
-/

namespace Hosk

/-- `malloc` in each state of the memory: an address of no node, with anything in its block. -/
structure Mallocs where
  block : Nodes → Malloc
  nonzero : ∀ nodes, (block nodes).address ≠ 0
  free : ∀ nodes, Store.get nodes (block nodes).address = none

def traverseUndisturbed (mallocs : Mallocs) : Nat → Nodes → Local → Option (Nodes × Local)
  | 0, _, _ => none
  | fuel + 1, nodes, state =>
      match state.pc with
      | .returned _ => some (nodes, state)
      | _ => do
          let (nodes, state) ← dataStep (mallocs.block nodes) nodes state
          traverseUndisturbed mallocs fuel nodes state

def Reaches (mallocs : Mallocs) : Nodes × Local → Nodes × Local → Prop :=
  Relation.ReflTransGen fun before after =>
    dataStep (mallocs.block before.1) before.1 before.2 = some after

namespace Reaches

variable {mallocs : Mallocs} {start middle final : Nodes × Local}

theorem refl (start : Nodes × Local) : Reaches mallocs start start := Relation.ReflTransGen.refl

theorem trans (left : Reaches mallocs start middle) (right : Reaches mallocs middle final) :
    Reaches mallocs start final :=
  Relation.ReflTransGen.trans left right

theorem step (taken : dataStep (mallocs.block start.1) start.1 start.2 = some middle)
    (later : Reaches mallocs middle final) : Reaches mallocs start final :=
  Relation.ReflTransGen.head taken later

theorem returns (reaches : Reaches mallocs start final) {result : Nat}
    (returned : final.2.pc = .returned result) :
    ∃ enough, ∀ fuel ≥ enough, traverseUndisturbed mallocs fuel start.1 start.2 = some final := by
  induction reaches using Relation.ReflTransGen.head_induction_on with
  | refl =>
      refine ⟨1, fun fuel enough => ?_⟩
      obtain ⟨less, rfl⟩ := Nat.exists_eq_add_of_le' enough
      simp only [traverseUndisturbed, returned]
  | @head before after taken _ ih =>
      obtain ⟨enough, ends⟩ := ih
      refine ⟨enough + 1, fun fuel more => ?_⟩
      obtain ⟨less, rfl⟩ := Nat.exists_eq_add_of_le' (Nat.le_trans (Nat.le_add_left 1 enough) more)
      have ended := ends less (by omega)
      obtain ⟨nodes, ⟨pc, f⟩⟩ := before
      cases pc with
      | returned result => exact absurd taken (Option.some_ne_none after).symm
      | _ => simp only [traverseUndisturbed, taken, Option.bind_eq_bind, Option.bind_some, ended]

end Reaches

theorem reaches_of_traverseUndisturbed {mallocs : Mallocs} (fuel : Nat) : ∀ nodes state final,
    traverseUndisturbed mallocs fuel nodes state = some final →
    Reaches mallocs (nodes, state) final ∧ ∃ result, final.2.pc = .returned result := by
  induction fuel with
  | zero => exact fun _ _ final ran => absurd ran (Option.some_ne_none final).symm
  | succ fuel ih =>
      rintro nodes ⟨pc, f⟩ final ran
      cases pc with
      | returned result =>
          obtain rfl := Option.some.inj ran
          exact ⟨.refl _, result, rfl⟩
      | _ =>
          simp only [traverseUndisturbed, Option.bind_eq_bind] at ran
          obtain ⟨⟨nodes₁, state₁⟩, taken, later⟩ := Option.bind_eq_some_iff.mp ran
          obtain ⟨reaches, returned⟩ := ih nodes₁ state₁ final later
          exact ⟨.step taken reaches, returned⟩

theorem Reaches.unique {mallocs : Mallocs} {start left right : Nodes × Local} {first second : Nat}
    (toLeft : Reaches mallocs start left) (toRight : Reaches mallocs start right)
    (leftReturned : left.2.pc = .returned first) (rightReturned : right.2.pc = .returned second) :
    left = right := by
  obtain ⟨enough, ends⟩ := toLeft.returns leftReturned
  obtain ⟨enough', ends'⟩ := toRight.returns rightReturned
  have same := (ends (enough + enough') (Nat.le_add_right _ _)).symm.trans
    (ends' (enough + enough') (Nat.le_add_left _ _))
  exact Option.some.inj same

end Hosk
