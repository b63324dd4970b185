import Mathlib.Data.List.Basic

namespace clib.heap

/-- A heap of cells. Addresses are natural numbers and a nullable pointer is an
`Option Nat`. Allocation hands out addresses from `next` on, so no freed address
is ever live again and a dangling access is always detected. -/
structure Heap (α : Type) where
  cell : Nat → Option α
  next : Nat
  fresh : ∀ a, next ≤ a → cell a = none

namespace Heap

variable {α : Type}

def empty : Heap α where
  cell _ := none
  next := 0
  fresh _ _ := rfl

/-- Reading through a pointer; `none` on a dangling one. -/
def get (h : Heap α) (a : Nat) : Option α := h.cell a

/-- Changing a live cell; nothing happens at a dangling address. -/
def update (h : Heap α) (a : Nat) (f : α → α) : Heap α where
  cell b := if b = a then (h.cell a).map f else h.cell b
  next := h.next
  fresh b hb := by
    split
    · next hba =>
      subst b
      rw [h.fresh a hb]
      rfl
    · exact h.fresh b hb

/-- Storing through a pointer; `none` on a dangling one. -/
def modify (h : Heap α) (a : Nat) (f : α → α) : Option (Heap α) :=
  match h.cell a with
  | none => none
  | some _ => some (h.update a f)

/-- Allocation of an initialised cell. -/
def alloc (h : Heap α) (v : α) : Nat × Heap α :=
  (h.next,
    { cell := fun b => if b = h.next then some v else h.cell b
      next := h.next + 1
      fresh := fun b hb => by
        rw [if_neg (by omega)]
        exact h.fresh b (by omega) })

/-- The heap after a cell is gone. -/
def erase (h : Heap α) (a : Nat) : Heap α where
  cell b := if b = a then none else h.cell b
  next := h.next
  fresh b hb := by
    split
    · rfl
    · exact h.fresh b hb

/-- Deallocation; `none` on a dangling pointer. -/
def free (h : Heap α) (a : Nat) : Option (Heap α) :=
  match h.cell a with
  | none => none
  | some _ => some (h.erase a)

/-- The statement `if (p) *p = f(*p);`. -/
def modify_if (h : Heap α) (p : Option Nat) (f : α → α) : Option (Heap α) :=
  match p with
  | none => some h
  | some a => h.modify a f

/-- The heap after the statement `if (p) *p = f(*p);`. -/
def update_if (h : Heap α) (p : Option Nat) (f : α → α) : Heap α :=
  match p with
  | none => h
  | some a => h.update a f

/-- Reading one field through a pointer. -/
def field {β : Type} (h : Heap α) (f : α → β) (a : Nat) : Option β := (h.get a).map f

@[simp] theorem get_empty (a : Nat) : (empty : Heap α).get a = none := rfl

theorem get_update (h : Heap α) (a b : Nat) (f : α → α) :
    (h.update a f).get b = if b = a then (h.get a).map f else h.get b := rfl

@[simp] theorem get_update_self (h : Heap α) (a : Nat) (f : α → α) :
    (h.update a f).get a = (h.get a).map f := by simp [get_update]

theorem get_update_of_ne (h : Heap α) {a b : Nat} (hne : b ≠ a) (f : α → α) :
    (h.update a f).get b = h.get b := by simp [get_update, hne]

@[simp] theorem next_update (h : Heap α) (a : Nat) (f : α → α) : (h.update a f).next = h.next := rfl

protected theorem ext {h h' : Heap α} (hcell : ∀ b, h.get b = h'.get b) (hnext : h.next = h'.next) : h = h' := by
  obtain ⟨cell, next, _⟩ := h
  obtain ⟨cell', next', _⟩ := h'
  obtain rfl : cell = cell' := funext hcell
  obtain rfl : next = next' := hnext
  rfl

/-- Stores to one cell that commute. -/
theorem update_comm (h : Heap α) (a : Nat) {f g : α → α} (hfg : ∀ v, f (g v) = g (f v)) :
    (h.update a f).update a g = (h.update a g).update a f := by
  refine Heap.ext (fun b => ?_) rfl
  by_cases hb : b = a
  · subst b
    simp [Option.map_map, Function.comp_def, hfg]
  · simp [get_update_of_ne _ hb]

theorem modify_of_get {h : Heap α} {a : Nat} {v : α} (hget : h.get a = some v) (f : α → α) :
    h.modify a f = some (h.update a f) := by
  have hcell : h.cell a = some v := hget
  simp [modify, hcell]

theorem modify_if_of_live {h : Heap α} {p : Option Nat} (hlive : ∀ a, p = some a → ∃ v, h.get a = some v)
    (f : α → α) : h.modify_if p f = some (h.update_if p f) := by
  cases p with
  | none => rfl
  | some a =>
    obtain ⟨v, hget⟩ := hlive a rfl
    exact modify_of_get hget f

@[simp] theorem next_update_if (h : Heap α) (p : Option Nat) (f : α → α) : (h.update_if p f).next = h.next := by
  cases p <;> rfl

theorem get_update_if_of_ne (h : Heap α) {p : Option Nat} {b : Nat} (hne : p ≠ some b) (f : α → α) :
    (h.update_if p f).get b = h.get b := by
  cases p with
  | none => rfl
  | some a => exact h.get_update_of_ne (fun hba => hne (by rw [hba])) f

theorem field_eq_some {β : Type} {h : Heap α} {f : α → β} {a : Nat} {x : β} (hfield : h.field f a = some x) :
    ∃ v, h.get a = some v ∧ f v = x := by
  simpa [field] using hfield

/-- A store that does not touch a field leaves it readable as before. -/
theorem field_update_of_eq {β : Type} (h : Heap α) (a : Nat) {g : α → α} {f : α → β}
    (hfg : ∀ v, f (g v) = f v) : (h.update a g).field f = h.field f := by
  funext b
  unfold field
  rw [get_update]
  split
  · next hba =>
    subst b
    cases h.get a with
    | none => rfl
    | some v => simp [hfg]
  · rfl

theorem field_update_if_of_eq {β : Type} (h : Heap α) (p : Option Nat) {g : α → α} {f : α → β}
    (hfg : ∀ v, f (g v) = f v) : (h.update_if p g).field f = h.field f := by
  cases p with
  | none => rfl
  | some a => exact h.field_update_of_eq a hfg

/-- A store of the constant `x` to a field of a live cell. -/
theorem field_update_const {β : Type} {h : Heap α} {a : Nat} {g : α → α} {f : α → β} {x : β}
    (hfg : ∀ v, f (g v) = x) {v : α} (hlive : h.get a = some v) (b : Nat) :
    (h.update a g).field f b = if b = a then some x else h.field f b := by
  unfold field
  rw [get_update]
  split
  · simp [hlive, hfg]
  · rfl

theorem field_update_if_const {β : Type} {h : Heap α} {p : Option Nat} {g : α → α} {f : α → β} {x : β}
    (hfg : ∀ v, f (g v) = x) (hlive : ∀ a, p = some a → ∃ v, h.get a = some v) (b : Nat) :
    (h.update_if p g).field f b = if p = some b then some x else h.field f b := by
  cases p with
  | none => simp [update_if]
  | some a =>
    obtain ⟨v, hget⟩ := hlive a rfl
    rw [update_if, field_update_const hfg hget]
    simp [eq_comm]

theorem field_modify {β : Type} {h h' : Heap α} {a : Nat} {g : α → α} {f : α → β}
    (hmodify : h.modify a g = some h') (hfg : ∀ v, f (g v) = f v) : h'.field f = h.field f := by
  unfold modify at hmodify
  split at hmodify
  · cases hmodify
  · obtain rfl := Option.some.inj hmodify
    exact h.field_update_of_eq a hfg

theorem field_modify_if {β : Type} {h h' : Heap α} {p : Option Nat} {g : α → α} {f : α → β}
    (hmodify : h.modify_if p g = some h') (hfg : ∀ v, f (g v) = f v) : h'.field f = h.field f := by
  cases p with
  | none => rw [← Option.some.inj hmodify]
  | some a => exact field_modify hmodify hfg

/-- Stores keep every cell live. -/
theorem live_update {h : Heap α} (a b : Nat) (g : α → α) :
    (∃ v, (h.update a g).get b = some v) ↔ ∃ v, h.get b = some v := by
  rw [get_update]
  split
  · next hba =>
    subst b
    cases h.get a <;> simp
  · rfl

theorem live_update_if {h : Heap α} (p : Option Nat) (b : Nat) (g : α → α) :
    (∃ v, (h.update_if p g).get b = some v) ↔ ∃ v, h.get b = some v := by
  cases p with
  | none => rfl
  | some a => exact live_update a b g

@[simp] theorem get_alloc_self (h : Heap α) (v : α) : (h.alloc v).2.get (h.alloc v).1 = some v := by
  simp [alloc, get]

theorem get_alloc_of_ne (h : Heap α) (v : α) {b : Nat} (hne : b ≠ h.next) :
    (h.alloc v).2.get b = h.get b := by simp [alloc, get, hne]

@[simp] theorem fst_alloc (h : Heap α) (v : α) : (h.alloc v).1 = h.next := rfl

@[simp] theorem next_alloc (h : Heap α) (v : α) : (h.alloc v).2.next = h.next + 1 := rfl

theorem get_erase (h : Heap α) (a b : Nat) :
    (h.erase a).get b = if b = a then none else h.get b := rfl

theorem get_erase_of_ne (h : Heap α) {a b : Nat} (hne : b ≠ a) : (h.erase a).get b = h.get b := by
  simp [get_erase, hne]

theorem field_erase_of_ne {β : Type} (h : Heap α) (f : α → β) {a b : Nat} (hne : b ≠ a) :
    (h.erase a).field f b = h.field f b := by
  unfold field
  rw [get_erase_of_ne h hne]

/-- What is read after a cell is freed was there before. -/
theorem field_free {β : Type} {h h' : Heap α} {a b : Nat} {f : α → β} {x : β} (hfree : h.free a = some h')
    (hfield : h'.field f b = some x) : h.field f b = some x := by
  unfold free at hfree
  split at hfree
  · cases hfree
  · obtain rfl := Option.some.inj hfree
    unfold field at hfield
    rw [get_erase] at hfield
    split at hfield
    · cases hfield
    · exact hfield

theorem field_alloc_of_ne {β : Type} (h : Heap α) (f : α → β) (v : α) {b : Nat} (hne : b ≠ h.next) :
    (h.alloc v).2.field f b = h.field f b := by
  unfold field
  rw [get_alloc_of_ne h v hne]

theorem field_alloc_self {β : Type} (h : Heap α) (f : α → β) (v : α) :
    (h.alloc v).2.field f h.next = some (f v) := by
  have hget := get_alloc_self h v
  rw [fst_alloc] at hget
  simp [field, hget]

@[simp] theorem next_erase (h : Heap α) (a : Nat) : (h.erase a).next = h.next := rfl

theorem free_of_get {h : Heap α} {a : Nat} {v : α} (hget : h.get a = some v) :
    h.free a = some (h.erase a) := by
  have hcell : h.cell a = some v := hget
  simp [free, hcell]

/-- A live address was handed out before. -/
theorem lt_next_of_get {h : Heap α} {a : Nat} {v : α} (hget : h.get a = some v) : a < h.next := by
  by_contra hle
  have hnone : h.get a = none := h.fresh a (by omega)
  rw [hnone] at hget
  cases hget

end Heap

end clib.heap
