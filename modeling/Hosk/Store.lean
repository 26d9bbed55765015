import Mathlib.Data.List.Basic

/-! Memory as a finite table from addresses to cells; address 0 is never special here. -/

/-- Cells by address, each address at most once when built with `set`. -/
abbrev Store (Cell : Type) := List (Nat × Cell)

namespace Store

variable {Cell : Type}

def get : Store Cell → Nat → Option Cell
  | [], _ => none
  | (address, cell) :: rest, wanted => if address = wanted then some cell else get rest wanted

def set : Store Cell → Nat → Cell → Store Cell
  | [], address, cell => [(address, cell)]
  | (head, old) :: rest, address, cell =>
      if head = address then (head, cell) :: rest else (head, old) :: set rest address cell

def erase : Store Cell → Nat → Store Cell
  | [], _ => []
  | (head, cell) :: rest, address =>
      if head = address then erase rest address else (head, cell) :: erase rest address

@[simp] theorem get_nil (address : Nat) : get ([] : Store Cell) address = none := rfl

theorem get_set (store : Store Cell) (address wanted : Nat) (cell : Cell) :
    get (set store address cell) wanted = if address = wanted then some cell else get store wanted := by
  induction store with
  | nil => rfl
  | cons head rest ih =>
      obtain ⟨first, old⟩ := head
      by_cases same : first = address
      · subst first
        by_cases found : address = wanted <;> simp [set, get, found]
      · by_cases found : first = wanted
        · subst first
          simp [set, get, same, Ne.symm same]
        · simp [set, get, same, found, ih]

@[simp] theorem get_set_same (store : Store Cell) (address : Nat) (cell : Cell) :
    get (set store address cell) address = some cell := by
  simp [get_set]

theorem get_set_other {store : Store Cell} {address wanted : Nat} (cell : Cell)
    (different : address ≠ wanted) : get (set store address cell) wanted = get store wanted := by
  simp [get_set, different]

theorem set_set (store : Store Cell) (address : Nat) (first second : Cell) :
    set (set store address first) address second = set store address second := by
  induction store with
  | nil => simp [set]
  | cons head rest ih =>
      obtain ⟨other, old⟩ := head
      by_cases same : other = address
      · simp [set, same]
      · simp [set, same, ih]

theorem get_erase (store : Store Cell) (address wanted : Nat) :
    get (erase store address) wanted = if address = wanted then none else get store wanted := by
  induction store with
  | nil => simp [erase]
  | cons head rest ih =>
      obtain ⟨first, old⟩ := head
      by_cases same : first = address
      · subst first
        simp only [erase, if_true, ih, get]
        split <;> rfl
      · by_cases found : first = wanted
        · subst first
          simp [erase, get, same, Ne.symm same]
        · simp [erase, get, same, found, ih]

@[simp] theorem get_erase_same (store : Store Cell) (address : Nat) :
    get (erase store address) address = none := by
  simp [get_erase]

theorem get_erase_other {store : Store Cell} {address wanted : Nat}
    (different : address ≠ wanted) : get (erase store address) wanted = get store wanted := by
  simp [get_erase, different]

theorem cell_mem_of_get {store : Store Cell} {address : Nat} {cell : Cell}
    (found : get store address = some cell) : (address, cell) ∈ store := by
  induction store with
  | nil => exact absurd found (Option.some_ne_none cell).symm
  | cons head rest ih =>
      obtain ⟨first, old⟩ := head
      by_cases same : first = address
      · rw [get, if_pos same] at found
        rw [same, Option.some.inj found]
        exact List.mem_cons_self
      · rw [get, if_neg same] at found
        exact List.mem_cons_of_mem _ (ih found)

theorem mem_of_get {store : Store Cell} {address : Nat} {cell : Cell}
    (found : get store address = some cell) : address ∈ store.map Prod.fst :=
  List.mem_map_of_mem (cell_mem_of_get found)

end Store
