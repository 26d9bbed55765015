import Mathlib.Logic.Basic

/-! What holds of the result of a computation that may fail, and of two computations that end alike. -/

/-- If the computation returns, then this holds of what it returns. -/
def Ends {α : Type} (run : Option α) (post : α → Prop) : Prop := ∀ a, run = some a → post a

namespace Ends

variable {α β : Type} {run : Option α} {post : β → Prop} {next : α → Option β}

theorem none (post : β → Prop) : Ends Option.none post := fun b returned =>
  absurd returned (Option.some_ne_none b).symm

theorem some {b : β} (holds : post b) : Ends (Option.some b) post := by
  rintro _ ⟨⟩
  exact holds

theorem bind {middle : α → Prop} (first : Ends run middle) (later : ∀ a, middle a → Ends (next a) post) :
    Ends (run.bind next) post := by
  intro b returned
  obtain ⟨a, isA, isB⟩ := Option.bind_eq_some_iff.mp returned
  exact later a (first a isA) b isB

theorem read (later : ∀ a, Ends (next a) post) : Ends (run.bind next) post :=
  bind (fun _ _ => trivial : Ends run fun _ => True) fun a _ => later a

theorem ite {condition : Prop} [Decidable condition] {yes no : Option β} (ifTrue : Ends yes post)
    (ifFalse : Ends no post) : Ends (if condition then yes else no) post := by
  split
  · exact ifTrue
  · exact ifFalse

end Ends

/-- The two computations are equal, and this holds of what they return. -/
structure Twins {α : Type} (left right : Option α) (post : α → Prop) : Prop where
  same : left = right
  ends : Ends left post

namespace Twins

variable {α β : Type} {left right run : Option α} {post : β → Prop} {next next' : α → Option β}

theorem one {post : α → Prop} (ends : Ends run post) : Twins run run post := ⟨rfl, ends⟩

theorem some {b : β} (holds : post b) : Twins (Option.some b) (Option.some b) post :=
  one (.some holds)

theorem bind {middle : α → Prop} (first : Twins left right middle)
    (later : ∀ a, middle a → Twins (next a) (next' a) post) :
    Twins (left.bind next) (right.bind next') post := by
  refine ⟨?_, first.ends.bind fun a holds => (later a holds).ends⟩
  rw [← first.same]
  cases isLeft : left with
  | none => rfl
  | some a => exact (later a (first.ends a isLeft)).same

theorem read (later : ∀ a, Twins (next a) (next' a) post) :
    Twins (run.bind next) (run.bind next') post :=
  bind (one fun _ _ => trivial : Twins run run fun _ => True) fun a _ => later a

theorem ite {condition : Prop} [Decidable condition] {yes yes' no no' : Option β}
    (ifTrue : Twins yes yes' post) (ifFalse : Twins no no' post) :
    Twins (if condition then yes else no) (if condition then yes' else no') post := by
  split
  · exact ifTrue
  · exact ifFalse

end Twins
