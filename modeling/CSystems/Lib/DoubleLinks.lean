import CSystems.Lib.LinkedList

namespace clib.heap

/-- The two link fields of a cell, and the stores to them. -/
structure Links (α : Type) where
  next : α → Option Nat
  prev : α → Option Nat
  set_next : Option Nat → α → α
  set_prev : Option Nat → α → α
  next_set_next : ∀ p v, next (set_next p v) = p
  prev_set_prev : ∀ p v, prev (set_prev p v) = p
  next_set_prev : ∀ p v, next (set_prev p v) = next v
  prev_set_next : ∀ p v, prev (set_next p v) = prev v
  set_comm : ∀ p q v, set_next p (set_prev q v) = set_prev q (set_next p v)

namespace Links

variable {α : Type} (links : Links α)

/-- What is read of a cell besides its links. -/
def Apart {β : Type} (f : α → β) : Prop := ∀ p v, f (links.set_next p v) = f v ∧ f (links.set_prev p v) = f v

/-- The cells of two heaps differ in their links only. -/
structure SameApart (heap heap' : Heap α) : Prop where
  field : ∀ {β : Type} {f : α → β}, links.Apart f → heap'.field f = heap.field f
  next : heap'.next = heap.next

/-- After the statements `if (p) p->next = n; if (n) n->prev = p;`. -/
structure Unlinked (heap heap' : Heap α) (p n : Option Nat) : Prop where
  next : ∀ b, heap'.field links.next b = if p = some b then some n else heap.field links.next b
  prev : ∀ b, heap'.field links.prev b = if n = some b then some p else heap.field links.prev b
  same : links.SameApart heap heap'

/-- After the statements `a->prev = NULL; a->next = head; if (head) head->prev = a;`. -/
structure Pushed (heap heap' : Heap α) (a : Nat) (head : Option Nat) : Prop where
  next : ∀ b, heap'.field links.next b = if b = a then some head else heap.field links.next b
  prev : ∀ b, heap'.field links.prev b =
    if head = some b then some (some a) else if b = a then some none else heap.field links.prev b
  same : links.SameApart heap heap'

variable {links} {heap heap' : Heap α} {head tail p n : Option Nat} {xs : List Nat} {a : Nat}

theorem SameApart.trans {heap'' : Heap α} (h : links.SameApart heap heap') (h' : links.SameApart heap' heap'') :
    links.SameApart heap heap'' :=
  ⟨fun hf => (h'.field hf).trans (h.field hf), h'.next.trans h.next⟩

theorem SameApart.live (h : links.SameApart heap heap') {b : Nat} (hlive : ∃ v, heap.get b = some v) :
    ∃ v, heap'.get b = some v := by
  obtain ⟨v, hget⟩ := hlive
  have hunit := congrFun (h.field (f := fun _ => ()) fun _ _ => ⟨rfl, rfl⟩) b
  rw [Heap.field, Heap.field, hget] at hunit
  obtain ⟨v', hget', -⟩ := Option.map_eq_some_iff.mp hunit
  exact ⟨v', hget'⟩

theorem sameApart_store_next (heap : Heap α) (p q : Option Nat) :
    links.SameApart heap (heap.update_if p (links.set_next q)) :=
  ⟨fun hf => heap.field_update_if_of_eq p fun v => (hf q v).1, heap.next_update_if p _⟩

theorem sameApart_store_prev (heap : Heap α) (p q : Option Nat) :
    links.SameApart heap (heap.update_if p (links.set_prev q)) :=
  ⟨fun hf => heap.field_update_if_of_eq p fun v => (hf q v).2, heap.next_update_if p _⟩

section Stores

theorem next_store_next (hlive : ∀ b, p = some b → ∃ v, heap.get b = some v) (q : Option Nat) (b : Nat) :
    (heap.update_if p (links.set_next q)).field links.next b =
      if p = some b then some q else heap.field links.next b :=
  Heap.field_update_if_const (links.next_set_next q) hlive b

theorem prev_store_prev (hlive : ∀ b, p = some b → ∃ v, heap.get b = some v) (q : Option Nat) (b : Nat) :
    (heap.update_if p (links.set_prev q)).field links.prev b =
      if p = some b then some q else heap.field links.prev b :=
  Heap.field_update_if_const (links.prev_set_prev q) hlive b

@[simp] theorem next_store_prev (heap : Heap α) (p q : Option Nat) :
    (heap.update_if p (links.set_prev q)).field links.next = heap.field links.next :=
  heap.field_update_if_of_eq p (links.next_set_prev q)

@[simp] theorem prev_store_next (heap : Heap α) (p q : Option Nat) :
    (heap.update_if p (links.set_next q)).field links.prev = heap.field links.prev :=
  heap.field_update_if_of_eq p (links.prev_set_next q)

end Stores

section Unlink

/-- The stores that unlink a cell between `p` and `n`, neither of which is touched twice. -/
theorem unlinked_of_live (links : Links α) (hp : ∀ b, p = some b → ∃ v, heap.get b = some v)
    (hn : ∀ b, n = some b → ∃ v, heap.get b = some v) :
    ∃ heap₁ heap', heap.modify_if p (links.set_next n) = some heap₁ ∧
      heap₁.modify_if n (links.set_prev p) = some heap' ∧ (∀ a, p ≠ some a → heap₁.get a = heap.get a) ∧
      (∀ a, p ≠ some a → n ≠ some a → heap'.get a = heap.get a) ∧ links.Unlinked heap heap' p n := by
  have hn₁ : ∀ b, n = some b → ∃ v, (heap.update_if p (links.set_next n)).get b = some v := fun b hb =>
    (Heap.live_update_if _ _ _).mpr (hn b hb)
  have hfirst (a : Nat) (hpa : p ≠ some a) : (heap.update_if p (links.set_next n)).get a = heap.get a :=
    Heap.get_update_if_of_ne _ hpa _
  refine ⟨_, _, Heap.modify_if_of_live hp _, Heap.modify_if_of_live hn₁ _, hfirst, ?_, ?_, ?_, ?_⟩
  · intro a hpa hna
    rw [Heap.get_update_if_of_ne _ hna, hfirst a hpa]
  · intro b
    rw [next_store_prev, next_store_next hp]
  · intro b
    rw [prev_store_prev hn₁, prev_store_next]
  · exact (sameApart_store_next heap p n).trans (sameApart_store_prev _ n p)

theorem Unlinked.back (h : links.Unlinked heap heap' (pred xs a) (succ xs a))
    (hback : Back (heap.field links.prev) head tail xs) :
    Back (heap'.field links.prev) (if head = some a then succ xs a else head)
      (if tail = some a then pred xs a else tail) (xs.erase a) :=
  hback.unlink fun b _ _ => h.prev b

theorem Unlinked.dlist (h : links.Unlinked heap heap' (pred xs a) (succ xs a))
    (hlist : DList (heap.field links.next) (heap.field links.prev) head tail xs) :
    DList (heap'.field links.next) (heap'.field links.prev) (if head = some a then succ xs a else head)
      (if tail = some a then pred xs a else tail) (xs.erase a) :=
  hlist.unlink (fun b _ _ => h.next b) fun b _ _ => h.prev b

end Unlink

section Push

/-- The stores that put a cell in front of a list. -/
theorem pushed_of_live (links : Links α) (ha : ∃ v, heap.get a = some v)
    (hhead : ∀ b, head = some b → ∃ v, heap.get b = some v) :
    ∃ heap₁ heap₂ heap', heap.modify a (links.set_prev none) = some heap₁ ∧
      heap₁.modify a (links.set_next head) = some heap₂ ∧
      heap₂.modify_if head (links.set_prev (some a)) = some heap' ∧ links.Pushed heap heap' a head := by
  have hself : ∀ b, some a = some b → ∃ v, heap.get b = some v := fun b hb => Option.some.inj hb ▸ ha
  let heap₁ := heap.update_if (some a) (links.set_prev none)
  let heap₂ := heap₁.update_if (some a) (links.set_next head)
  have hself₁ : ∀ b, some a = some b → ∃ v, heap₁.get b = some v := fun b hb =>
    (Heap.live_update_if _ _ _).mpr (hself b hb)
  have hhead₂ : ∀ b, head = some b → ∃ v, heap₂.get b = some v := fun b hb =>
    (Heap.live_update_if _ _ _).mpr ((Heap.live_update_if _ _ _).mpr (hhead b hb))
  have hrun₁ : heap.modify a (links.set_prev none) = some heap₁ := Heap.modify_if_of_live hself _
  have hrun₂ : heap₁.modify a (links.set_next head) = some heap₂ := Heap.modify_if_of_live hself₁ _
  refine ⟨heap₁, heap₂, _, hrun₁, hrun₂, Heap.modify_if_of_live hhead₂ _, ?_, ?_, ?_⟩
  · intro b
    rw [next_store_prev, next_store_next hself₁, next_store_prev]
    simp only [Option.some.injEq, eq_comm]
  · intro b
    rw [prev_store_prev hhead₂, prev_store_next, prev_store_prev hself]
    simp only [Option.some.injEq, eq_comm]
  · have hfirst : links.SameApart heap heap₁ := sameApart_store_prev heap (some a) none
    have hsecond : links.SameApart heap₁ heap₂ := sameApart_store_next heap₁ (some a) head
    exact (hfirst.trans hsecond).trans (sameApart_store_prev heap₂ head (some a))

/-- The first two stores may come in the other order. -/
theorem pushed_of_live_comm (links : Links α) (ha : ∃ v, heap.get a = some v)
    (hhead : ∀ b, head = some b → ∃ v, heap.get b = some v) :
    ∃ heap₁ heap₂ heap', heap.modify a (links.set_next head) = some heap₁ ∧
      heap₁.modify a (links.set_prev none) = some heap₂ ∧
      heap₂.modify_if head (links.set_prev (some a)) = some heap' ∧ links.Pushed heap heap' a head := by
  obtain ⟨heap₁, heap₂, heap', hrun₁, hrun₂, hrun₃, hpushed⟩ := pushed_of_live links ha hhead
  obtain ⟨v, hget⟩ := ha
  have hget₁ : (heap.update a (links.set_prev none)).get a = some (links.set_prev none v) := by simp [hget]
  have hget₂ : (heap.update a (links.set_next head)).get a = some (links.set_next head v) := by simp [hget]
  obtain rfl := Option.some.inj ((Heap.modify_of_get hget _).symm.trans hrun₁)
  obtain rfl := Option.some.inj ((Heap.modify_of_get hget₁ _).symm.trans hrun₂)
  refine ⟨_, _, heap', Heap.modify_of_get hget _, Heap.modify_of_get hget₂ _, ?_, hpushed⟩
  rw [Heap.update_comm heap a (links.set_comm head none)]
  exact hrun₃

theorem Pushed.back (h : links.Pushed heap heap' a head) (hback : Back (heap.field links.prev) head tail xs)
    (ha : a ∉ xs) : Back (heap'.field links.prev) (some a) (if tail = none then some a else tail) (a :: xs) := by
  have hne : head ≠ some a := fun hhead => ha (hback.mem_of_head hhead)
  refine hback.push ha ?_ fun b hb => ?_
  · rw [h.prev, if_neg hne, if_pos rfl]
  · have hba : b ≠ a := by
      rintro rfl
      exact ha hb
    rw [h.prev, if_neg hba]

theorem Pushed.dlist (h : links.Pushed heap heap' a head)
    (hlist : DList (heap.field links.next) (heap.field links.prev) head tail xs) (ha : a ∉ xs) :
    DList (heap'.field links.next) (heap'.field links.prev) (some a) (if tail = none then some a else tail)
      (a :: xs) := by
  have hback := h.back hlist.back ha
  refine ⟨hback.nodup, hback.head_eq, hback.tail_eq, fun b hb => ?_, hback.prev_eq⟩
  rw [h.next, succ]
  by_cases hba : b = a
  · rw [if_pos hba, if_pos hba, hlist.head_eq]
  · rw [if_neg hba, if_neg hba]
    exact hlist.next_eq b ((List.mem_cons.mp hb).resolve_left hba)

end Push

end Links

end clib.heap
