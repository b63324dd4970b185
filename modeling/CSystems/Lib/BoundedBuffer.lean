import Mathlib.Algebra.BigOperators.Group.Finset.Basic
import Mathlib.Algebra.Order.BigOperators.Group.Finset
import Mathlib.Algebra.Order.Ring.Int
import Mathlib.Data.List.Basic

namespace clib.ring

variable {α : Type} {capacity head tail : Nat} {cells contents : List α}

/-- A queue in a circular array: `contents` are the elements from `head` on. -/
structure Ring (capacity : Nat) (cells : List α) (head tail : Nat) (contents : List α) : Prop where
  length_eq : cells.length = capacity
  head_lt : head < capacity
  tail_eq : tail = (head + contents.length) % capacity
  length_le : contents.length ≤ capacity
  get_eq : ∀ i < contents.length, cells[(head + i) % capacity]? = contents[i]?

theorem ring_nil (hlength : cells.length = capacity) (hpos : 0 < capacity) : Ring capacity cells 0 0 [] :=
  ⟨hlength, hpos, by simp, Nat.zero_le _, by simp⟩

/-- Slots less than a round apart are different. -/
theorem add_mod_ne {capacity a i j : Nat} (hij : i < j) (hj : j < i + capacity) :
    (a + i) % capacity ≠ (a + j) % capacity := by
  intro heq
  have hzero : (a + j - (a + i)) % capacity = 0 := Nat.sub_mod_eq_zero_of_mod_eq heq.symm
  have hdiff : a + j - (a + i) = j - i := by omega
  rw [hdiff, Nat.mod_eq_of_lt (by omega)] at hzero
  omega

/-- Storing at the tail of a queue that is not full. -/
theorem Ring.push (h : Ring capacity cells head tail contents) (hroom : contents.length < capacity) (x : α) :
    Ring capacity (cells.set tail x) head ((tail + 1) % capacity) (contents ++ [x]) := by
  have hpos : 0 < capacity := by omega
  have htail : tail < cells.length := by
    rw [h.tail_eq, h.length_eq]
    exact Nat.mod_lt _ hpos
  refine ⟨?_, h.head_lt, ?_, ?_, ?_⟩
  · rw [List.length_set, h.length_eq]
  · rw [h.tail_eq, Nat.mod_add_mod, List.length_append, List.length_singleton, Nat.add_assoc]
  · rw [List.length_append, List.length_singleton]
    omega
  · intro i hi
    rw [List.length_append, List.length_singleton] at hi
    by_cases hlast : i = contents.length
    · subst hlast
      rw [← h.tail_eq, List.getElem?_set_self htail, List.getElem?_append_right (Nat.le_refl _)]
      simp
    · have hlt : i < contents.length := by omega
      have hne : tail ≠ (head + i) % capacity := by
        rw [h.tail_eq]
        exact Ne.symm (add_mod_ne hlt (by omega))
      rw [List.getElem?_set_ne hne, h.get_eq i hlt, List.getElem?_append_left hlt]

/-- Taking the element at the head. -/
theorem Ring.pop {x : α} (h : Ring capacity cells head tail (x :: contents)) :
    cells[head]? = some x ∧ Ring capacity cells ((head + 1) % capacity) tail contents := by
  have hlength := h.length_le
  rw [List.length_cons] at hlength
  have hpos : 0 < capacity := by omega
  constructor
  · have hget := h.get_eq 0 (by simp)
    rwa [Nat.add_zero, Nat.mod_eq_of_lt h.head_lt] at hget
  · refine ⟨h.length_eq, Nat.mod_lt _ hpos, ?_, by omega, ?_⟩
    · rw [h.tail_eq, Nat.mod_add_mod, List.length_cons]
      congr 1
      omega
    · intro i hi
      have hget := h.get_eq (i + 1) (by simpa using hi)
      rw [List.getElem?_cons_succ] at hget
      rw [Nat.mod_add_mod, ← hget]
      congr 2
      omega

end clib.ring

namespace clib.bounded_buffer

/-! A bounded buffer guarded by a mutex, with one condition variable for the
threads that put and one for the threads that get. -/

inductive op where
  | put
  | get
  deriving DecidableEq, Repr

/-- The operation that makes another one possible. -/
def op.dual : op → op
  | .put => .get
  | .get => .put

/-- How far a thread is in an operation on the buffer. -/
inductive stage where
  /-- It is about to lock the mutex. -/
  | lock
  /-- It holds the mutex and is about to test the buffer. -/
  | locked
  /-- It waits on its condition variable. -/
  | asleep
  /-- It was woken and is about to lock the mutex again. -/
  | woken
  /-- It has changed the buffer and is about to signal. -/
  | acted
  /-- It has signalled and is about to unlock the mutex. -/
  | signalled
  deriving DecidableEq, Repr

variable {θ : Type} [DecidableEq θ]

/-- How often an operation is possible in a buffer of `count` elements. -/
def op.available (capacity count : Int) : op → Int
  | .put => capacity - count
  | .get => count

/-- The number of elements after an operation. -/
def op.apply (count : Int) : op → Int
  | .put => count + 1
  | .get => count - 1

/-- What the threads can do to the buffer. A signal wakes one sleeper, and further
ones may wake at any time. -/
inductive Step (capacity : Int) (act : θ → Option (op × stage)) (count : Int) :
    (θ → Option (op × stage)) → Int → Prop where
  | enter (t : θ) (o : op) (h : act t = none) : Step capacity act count (Function.update act t (some (o, .lock))) count
  | acquire (t : θ) (o : op) (h : act t = some (o, .lock) ∨ act t = some (o, .woken)) :
    Step capacity act count (Function.update act t (some (o, .locked))) count
  | sleep (t : θ) (o : op) (h : act t = some (o, .locked)) (hnone : o.available capacity count = 0) :
    Step capacity act count (Function.update act t (some (o, .asleep))) count
  | act (t : θ) (o : op) (h : act t = some (o, .locked)) :
    Step capacity act count (Function.update act t (some (o, .acted))) (o.apply count)
  | signal (t u : θ) (o : op) (h : act t = some (o, .acted)) (hu : act u = some (o.dual, .asleep)) :
    Step capacity act count
      (Function.update (Function.update act u (some (o.dual, .woken))) t (some (o, .signalled))) count
  | silent (t : θ) (o : op) (h : act t = some (o, .acted)) (hnone : ∀ u, act u ≠ some (o.dual, .asleep)) :
    Step capacity act count (Function.update act t (some (o, .signalled))) count
  | leave (t : θ) (o : op) (h : act t = some (o, .signalled)) :
    Step capacity act count (Function.update act t none) count
  | wake (u : θ) (o : op) (h : act u = some (o, .asleep)) :
    Step capacity act count (Function.update act u (some (o, .woken))) count

/-- A thread that will still test the buffer for the operation, or is about to
signal one that will. -/
def credit (o : op) (a : Option (op × stage)) : Int :=
  if a = some (o, .lock) ∨ a = some (o, .locked) ∨ a = some (o, .woken) ∨ a = some (o.dual, .acted) then 1 else 0

/-- No wake-up is lost: while a thread sleeps for an operation, there are as many
threads on their way to it as it is possible. -/
def NoLostWakeup [Fintype θ] (capacity : Int) (act : θ → Option (op × stage)) (count : Int) : Prop :=
  ∀ o, (∃ t, act t = some (o, .asleep)) → o.available capacity count ≤ ∑ t, credit o (act t)

theorem credit_nonneg (o : op) (a : Option (op × stage)) : 0 ≤ credit o a := by
  unfold credit
  split <;> omega

/-- A sum over all threads after a change of one. -/
theorem sum_update [Fintype θ] {β : Type} (w : β → Int) (f : θ → β) (t : θ) (a : β) :
    ∑ u, w (Function.update f t a u) = ∑ u, w (f u) - w (f t) + w a := by
  have hsum (f : θ → Int) : ∑ u, f u = f t + ∑ u ∈ Finset.univ.erase t, f u :=
    (Finset.add_sum_erase Finset.univ f (Finset.mem_univ t)).symm
  have hrest : ∑ u ∈ Finset.univ.erase t, w (Function.update f t a u) = ∑ u ∈ Finset.univ.erase t, w (f u) := by
    refine Finset.sum_congr rfl fun u hu => ?_
    rw [Function.update_of_ne (Finset.ne_of_mem_erase hu)]
  rw [hsum, hsum fun u => w (f u), hrest, Function.update_self]
  omega

section Credits

variable (o : op)

@[simp] theorem credit_none : credit o none = 0 := by simp [credit]

@[simp] theorem credit_lock (o' : op) : credit o (some (o', .lock)) = if o' = o then 1 else 0 := by simp [credit]

@[simp] theorem credit_locked (o' : op) : credit o (some (o', .locked)) = if o' = o then 1 else 0 := by simp [credit]

@[simp] theorem credit_woken (o' : op) : credit o (some (o', .woken)) = if o' = o then 1 else 0 := by simp [credit]

@[simp] theorem credit_acted (o' : op) : credit o (some (o', .acted)) = if o' = o then 0 else 1 := by
  cases o <;> cases o' <;> simp [credit, op.dual]

@[simp] theorem credit_asleep (o' : op) : credit o (some (o', .asleep)) = 0 := by simp [credit]

@[simp] theorem credit_signalled (o' : op) : credit o (some (o', .signalled)) = 0 := by simp [credit]

end Credits

theorem available_apply (capacity count : Int) (o o' : op) :
    o.available capacity (o'.apply count) = o.available capacity count + if o' = o then -1 else 1 := by
  cases o <;> cases o' <;> simp [op.available, op.apply] <;> omega

theorem update_eq_asleep {act : θ → Option (op × stage)} {t : θ} {a : Option (op × stage)} {o : op}
    (ha : a ≠ some (o, .asleep)) (h : ∃ u, Function.update act t a u = some (o, .asleep)) :
    ∃ u, act u = some (o, .asleep) := by
  obtain ⟨u, hu⟩ := h
  by_cases hut : u = t
  · subst hut
    rw [Function.update_self] at hu
    exact absurd hu ha
  · rw [Function.update_of_ne hut] at hu
    exact ⟨u, hu⟩

variable [Fintype θ] {capacity count count' : Int} {act act' : θ → Option (op × stage)}

/-- A thread that moves on without falling asleep keeps the invariant, if its credit
makes up for what becomes possible. -/
theorem NoLostWakeup.update (h : NoLostWakeup capacity act count) {t : θ} {a : Option (op × stage)} {n : Int}
    (ha : ∀ o, a ≠ some (o, .asleep))
    (hcredit : ∀ o, op.available capacity n o + credit o (act t) ≤ op.available capacity count o + credit o a) :
    NoLostWakeup capacity (Function.update act t a) n := by
  intro o hasleep
  have hbound := h o (update_eq_asleep (ha o) hasleep)
  have hchange := hcredit o
  rw [sum_update]
  omega

theorem NoLostWakeup.step (h : NoLostWakeup capacity act count) (hstep : Step capacity act count act' count') :
    NoLostWakeup capacity act' count' := by
  cases hstep with
  | enter t o hact =>
    apply h.update (by simp)
    intro o'
    rw [hact, credit_none, credit_lock]
    split <;> omega
  | acquire t o hact =>
    apply h.update (by simp)
    intro o'
    obtain hact | hact := hact <;> rw [hact] <;> simp
  | sleep t o hact hnone =>
    intro o' hasleep
    have hsum : (0 : Int) ≤ ∑ u, credit o' (Function.update act t (some (o, .asleep)) u) :=
      Finset.sum_nonneg fun u _ => credit_nonneg o' _
    by_cases hoo : o' = o
    · rw [hoo] at hsum ⊢
      omega
    · have hne : some (o, stage.asleep) ≠ some (o', .asleep) := by simpa using Ne.symm hoo
      have hbound := h o' (update_eq_asleep hne hasleep)
      rw [sum_update, hact, credit_locked, if_neg (Ne.symm hoo), credit_asleep]
      omega
  | act t o hact =>
    apply h.update (by simp)
    intro o'
    rw [available_apply, hact, credit_locked, credit_acted]
    split <;> omega
  | signal t u o hact hasleep =>
    have hut : u ≠ t := by
      rintro rfl
      rw [hact] at hasleep
      simp at hasleep
    -- the woken thread takes over the credit of the one that signals
    intro o' hsleeper
    have hsleeper := update_eq_asleep (by simp) (update_eq_asleep (by simp) hsleeper)
    have hbound := h o' hsleeper
    rw [sum_update, Function.update_of_ne (Ne.symm hut), hact, sum_update, hasleep, credit_asleep, credit_woken,
      credit_acted, credit_signalled]
    cases o <;> cases o' <;> simp [op.dual] <;> omega
  | silent t o hact hnone =>
    intro o' hsleeper
    have hsleeper := update_eq_asleep (by simp) hsleeper
    have hne : o = o' := by
      obtain ⟨u, hu⟩ := hsleeper
      have hdual : o.dual ≠ o' := fun heq => hnone u (heq ▸ hu)
      cases o <;> cases o' <;> simp_all [op.dual]
    have hbound := h o' hsleeper
    rw [sum_update, hact, credit_acted, if_pos hne, credit_signalled]
    omega
  | leave t o hact =>
    apply h.update (by simp)
    intro o'
    rw [hact, credit_signalled, credit_none]
  | wake u o hact =>
    apply h.update (by simp)
    intro o'
    rw [hact, credit_asleep, credit_woken]
    split <;> omega

omit [DecidableEq θ] in
/-- Where every thread in an operation is asleep, none sleeps for an operation that
is possible. -/
theorem NoLostWakeup.available_nonpos (h : NoLostWakeup capacity act count)
    (hall : ∀ t, act t = none ∨ ∃ o, act t = some (o, .asleep)) {o : op} (hasleep : ∃ t, act t = some (o, .asleep)) :
    o.available capacity count ≤ 0 := by
  have hzero : ∑ t, credit o (act t) = 0 := by
    refine Finset.sum_eq_zero fun t _ => ?_
    obtain hnone | ⟨o', hsome⟩ := hall t
    · rw [hnone, credit_none]
    · rw [hsome, credit_asleep]
  have hbound := h o hasleep
  omega

section Mutex

/-- How far a thread is when it holds the mutex. -/
def holds : Option (op × stage) → Bool
  | some (_, .locked) | some (_, .acted) | some (_, .signalled) => true
  | _ => false

/-- The mutex is held by the thread that is at work on the buffer. -/
def Exclusive (lock : Option θ) (act : θ → Option (op × stage)) : Prop := ∀ t, lock = some t ↔ holds (act t) = true

variable {lock lock' : Option θ}

omit [Fintype θ] in
/-- A thread moves on, and the mutex changes for nobody else. -/
theorem Exclusive.update (h : Exclusive lock act) {t : θ} {a : Option (op × stage)}
    (hother : ∀ u, u ≠ t → (lock' = some u ↔ lock = some u)) (ht : lock' = some t ↔ holds a = true) :
    Exclusive lock' (Function.update act t a) := by
  intro u
  by_cases hut : u = t
  · subst hut
    rw [Function.update_self]
    exact ht
  · rw [Function.update_of_ne hut, hother u hut]
    exact h u

omit [Fintype θ] in
/-- A thread that needs no change of the mutex moves on. -/
theorem Exclusive.move (h : Exclusive lock act) {t : θ} {a : Option (op × stage)} (ha : holds a = holds (act t)) :
    Exclusive lock (Function.update act t a) :=
  h.update (fun _ _ => Iff.rfl) (ha ▸ h t)

omit [Fintype θ] in
theorem Exclusive.acquire (h : Exclusive none act) {t : θ} {a : Option (op × stage)} (ha : holds a = true) :
    Exclusive (some t) (Function.update act t a) :=
  h.update (fun u hu => iff_of_false (fun heq => hu (Option.some.inj heq).symm) (by simp)) (by simp [ha])

omit [Fintype θ] in
theorem Exclusive.release (h : Exclusive lock act) {t : θ} {a : Option (op × stage)} (ht : holds (act t) = true)
    (ha : holds a = false) : Exclusive none (Function.update act t a) := by
  refine h.update (fun u hu => iff_of_false (by simp) fun heq => ?_) (by simp [ha])
  have hlock := (h t).mpr ht
  exact hu (Option.some.inj (heq.symm.trans hlock))

end Mutex

/-- A total after the change of one summand. -/
theorem total_update (f : θ → Nat) (t : θ) (a : Nat) : ∑ u, Function.update f t a u + f t = ∑ u, f u + a := by
  have hsum (g : θ → Nat) : ∑ u, g u = g t + ∑ u ∈ Finset.univ.erase t, g u :=
    (Finset.add_sum_erase Finset.univ g (Finset.mem_univ t)).symm
  have hrest : ∑ u ∈ Finset.univ.erase t, Function.update f t a u = ∑ u ∈ Finset.univ.erase t, f u :=
    Finset.sum_congr rfl fun u hu => Function.update_of_ne (Finset.ne_of_mem_erase hu) ..
  rw [hsum, hsum f, hrest, Function.update_self]
  omega

end clib.bounded_buffer
