import Mathlib.Data.Fintype.Sum
import CSystems.Lib.BoundedBuffer
import CSystems.Lib.Run

open clib.bounded_buffer clib.run

namespace csystems.producer_consumer

def BUFFER_CAPACITY : Nat := 10

/-- The constants `TOTAL_PRODUCERS`, `ITEMS_PER_PRODUCER` and `TOTAL_CONSUMERS`. What the
program computes from them are numbers of type `int`. -/
structure config where
  producers : Nat
  items : Nat
  consumers : Nat
  /-- `TOTAL_PRODUCERS * ITEMS_PER_PRODUCER` in `consumer_thread`. -/
  product_lt : producers * items < 2 ^ 31
  /-- The last item of the last producer. -/
  item_lt : producers * 100 + items ≤ 2 ^ 31
  consumers_lt : consumers < 2 ^ 31

/-- The values of the constants in the source. -/
def config.source : config := ⟨5, 10, 5, by decide, by decide, by decide⟩

/-- The threads that `main` creates. -/
inductive thread (c : config) where
  | producer (i : Fin c.producers)
  | consumer (i : Fin c.consumers)
  deriving DecidableEq

instance instFintypeThread (c : config) : Fintype (thread c) :=
  Fintype.ofEquiv (Fin c.producers ⊕ Fin c.consumers)
    { toFun := fun
        | .inl i => .producer i
        | .inr i => .consumer i
      invFun := fun
        | .producer i => .inl i
        | .consumer i => .inr i
      left_inv := fun
        | .inl _ => rfl
        | .inr _ => rfl
      right_inv := fun
        | .producer _ => rfl
        | .consumer _ => rfl }

/-- The next statement of `main`; `i` is the iterator of the loop it is in. -/
inductive main_t where
  | create_producers (i : Nat)
  | create_consumers (i : Nat)
  | join_producers (i : Nat)
  | join_consumers (i : Nat)
  | finished
  deriving DecidableEq, Repr

/-- The next statement of a thread in round `i` of its loop. The item is the argument
of `push_to_buffer`, or the local variable of `pop_from_buffer`, which does not exist
before the buffer is read and is 0 until then. -/
inductive point_t where
  /-- The thread is not created yet. -/
  | absent
  /-- The test of the loop. -/
  | loop (i : Nat)
  | inside (i : Nat) (at_ : stage) (item : Int)
  /-- The call has returned, and the thread is about to print its line. -/
  | returned (i : Nat) (item : Int)
  | finished
  deriving DecidableEq, Repr

variable {c : config}

/-- The memory and the threads. The lists at the end are a history: the items put
into the buffer and taken from it, and the lines printed, each with the thread. -/
structure state (c : config) where
  buffer : List Int
  head : Nat
  tail : Nat
  item_count : Int
  lock : Option (thread c)
  main : main_t
  point : thread c → point_t
  pushed : List (thread c × Int)
  popped : List (thread c × Int)
  printed : List (thread c × Int)

def start (c : config) : state c where
  buffer := List.replicate BUFFER_CAPACITY 0
  head := 0
  tail := 0
  item_count := 0
  lock := none
  main := .create_producers 0
  point _ := .absent
  pushed := []
  popped := []
  printed := []

namespace state

def goto (s : state c) (t : thread c) (p : point_t) : state c := { s with point := Function.update s.point t p }

/-- The end of the sleep of a thread, by a signal or spuriously. -/
def wake_up (s : state c) (t : thread c) : Option (state c) :=
  match s.point t with
  | .inside i .asleep item => some (s.goto t (.inside i .woken item))
  | _ => none

end state

def thread.op : thread c → op
  | .producer _ => .put
  | .consumer _ => .get

def point_t.asleep : point_t → Bool
  | .inside _ .asleep _ => true
  | _ => false

/-- `pthread_cond_signal` on the condition variable that threads with operation `o`
wait for: one that sleeps is woken, if there is one. -/
def cond_signal (s : state c) (o : op) (wake : Option (thread c)) : Option (state c) :=
  match wake with
  | some t => if t.op = o then s.wake_up t else none
  | none => if ∀ t : thread c, t.op = o → (s.point t).asleep = false then some s else none

/-- The statements of `push_to_buffer` that store the item. -/
def store (s : state c) (t : thread c) (item : Int) : state c :=
  { s with
    buffer := s.buffer.set s.tail item
    tail := (s.tail + 1) % BUFFER_CAPACITY
    item_count := s.item_count + 1
    pushed := s.pushed ++ [(t, item)] }

/-- The statements of `pop_from_buffer` that take the item. -/
def take (s : state c) (t : thread c) (item : Int) : state c :=
  { s with
    head := (s.head + 1) % BUFFER_CAPACITY
    item_count := s.item_count - 1
    popped := s.popped ++ [(t, item)] }

/-- A step of thread `t` in `push_to_buffer`, with the stage it is at afterwards;
`none` when it has returned. -/
def push_to_buffer (s : state c) (t : thread c) (item : Int) (wake : Option (thread c)) :
    stage → Option (state c × Option stage)
  | .lock | .woken => if s.lock = none then some ({ s with lock := some t }, some .locked) else none
  | .locked =>
    if s.item_count = BUFFER_CAPACITY then some ({ s with lock := none }, some .asleep)
    else some (store s t item, some .acted)
  | .asleep => none
  | .acted => (cond_signal s .get wake).map fun s => (s, some .signalled)
  | .signalled => some ({ s with lock := none }, none)

/-- The same for `pop_from_buffer`, with the value of its variable `item`. -/
def pop_from_buffer (s : state c) (t : thread c) (item : Int) (wake : Option (thread c)) :
    stage → Option (state c × Option stage × Int)
  | .lock | .woken => if s.lock = none then some ({ s with lock := some t }, some .locked, item) else none
  | .locked =>
    if s.item_count = 0 then some ({ s with lock := none }, some .asleep, item)
    else do
      let item ← s.buffer[s.head]?
      some (take s t item, some .acted, item)
  | .asleep => none
  | .acted => (cond_signal s .put wake).map fun s => (s, some .signalled, item)
  | .signalled => some ({ s with lock := none }, none, item)

/-- The number that producer `i` pushes in round `k`; its `producer_id` is `i + 1`. -/
def produced (i : Fin c.producers) (k : Nat) : Int := (i + 1) * 100 + k

def point_t.call (i : Nat) (item : Int) : Option stage → point_t
  | some at_ => .inside i at_ item
  | none => .returned i item

def print (s : state c) (t : thread c) (i : Nat) (item : Int) : state c :=
  { s.goto t (.loop (i + 1)) with printed := s.printed ++ [(t, item)] }

def producer_thread (s : state c) (i : Fin c.producers) (wake : Option (thread c)) : Option (state c) :=
  let t := thread.producer i
  match s.point t with
  | .loop k => some (s.goto t (if k < c.items then .inside k .lock (produced i k) else .finished))
  | .inside k at_ item =>
    (push_to_buffer s t item wake at_).map fun (s, next) => s.goto t (.call k item next)
  | .returned k item => some (print s t k item)
  | _ => none

/-- The local variable `items_to_consume` of a consumer. -/
def config.items_to_consume (c : config) : Nat := c.producers * c.items / c.consumers

def consumer_thread (s : state c) (i : Fin c.consumers) (wake : Option (thread c)) : Option (state c) :=
  let t := thread.consumer i
  match s.point t with
  | .loop k => some (s.goto t (if k < c.items_to_consume then .inside k .lock 0 else .finished))
  | .inside k at_ item =>
    (pop_from_buffer s t item wake at_).map fun (s, next, item) => s.goto t (.call k item next)
  | .returned k item => some (print s t k item)
  | _ => none

def main_step (s : state c) : Option (state c) :=
  match s.main with
  | .create_producers i =>
    if hi : i < c.producers then
      some { s.goto (.producer ⟨i, hi⟩) (.loop 0) with main := .create_producers (i + 1) }
    else some { s with main := .create_consumers 0 }
  | .create_consumers i =>
    if hi : i < c.consumers then
      some { s.goto (.consumer ⟨i, hi⟩) (.loop 0) with main := .create_consumers (i + 1) }
    else some { s with main := .join_producers 0 }
  | .join_producers i =>
    if hi : i < c.producers then
      if s.point (.producer ⟨i, hi⟩) = .finished then some { s with main := .join_producers (i + 1) } else none
    else some { s with main := .join_consumers 0 }
  | .join_consumers i =>
    if hi : i < c.consumers then
      if s.point (.consumer ⟨i, hi⟩) = .finished then some { s with main := .join_consumers (i + 1) } else none
    else some { s with main := .finished }
  | .finished => none

/-- The scheduler's choice: `main` or a thread runs, the latter with the one it wakes
if it signals, or a thread wakes up without a signal. -/
inductive action_t (c : config) where
  | main
  | run (t : thread c) (wake : Option (thread c))
  | spurious (t : thread c)

def step (s : state c) : action_t c → Option (state c)
  | .main => main_step s
  | .run (.producer i) wake => producer_thread s i wake
  | .run (.consumer i) wake => consumer_thread s i wake
  | .spurious t => s.wake_up t

/-! What one step does. -/

/-- How often a thread goes through its loop. -/
def thread.rounds : thread c → Nat
  | .producer _ => c.items
  | .consumer _ => c.items_to_consume

/-- The item a thread enters round `k` with. -/
def thread.argument (k : Nat) : thread c → Int
  | .producer i => produced i k
  | .consumer _ => 0

/-- `main` goes on to its next loop. -/
inductive main_t.Leaves (c : config) : main_t → main_t → Prop where
  | created_producers (i : Nat) (h : ¬ i < c.producers) : Leaves c (.create_producers i) (.create_consumers 0)
  | created_consumers (i : Nat) (h : ¬ i < c.consumers) : Leaves c (.create_consumers i) (.join_producers 0)
  | joined_producers (i : Nat) (h : ¬ i < c.producers) : Leaves c (.join_producers i) (.join_consumers 0)
  | joined_consumers (i : Nat) (h : ¬ i < c.consumers) : Leaves c (.join_consumers i) .finished

inductive Move (s : state c) : state c → Prop where
  | create_producer (i : Fin c.producers) (h : s.main = .create_producers i) :
    Move s { s.goto (.producer i) (.loop 0) with main := .create_producers (i + 1) }
  | create_consumer (i : Fin c.consumers) (h : s.main = .create_consumers i) :
    Move s { s.goto (.consumer i) (.loop 0) with main := .create_consumers (i + 1) }
  | join_producer (i : Fin c.producers) (h : s.main = .join_producers i) (hdone : s.point (.producer i) = .finished) :
    Move s { s with main := .join_producers (i + 1) }
  | join_consumer (i : Fin c.consumers) (h : s.main = .join_consumers i) (hdone : s.point (.consumer i) = .finished) :
    Move s { s with main := .join_consumers (i + 1) }
  | leave_loop (m : main_t) (h : s.main.Leaves c m) : Move s { s with main := m }
  | begin (t : thread c) (k : Nat) (h : s.point t = .loop k) (hk : k < t.rounds) :
    Move s (s.goto t (.inside k .lock (t.argument k)))
  | finish (t : thread c) (k : Nat) (h : s.point t = .loop k) (hk : ¬ k < t.rounds) : Move s (s.goto t .finished)
  | acquire (t : thread c) (k : Nat) (at_ : stage) (item : Int) (h : s.point t = .inside k at_ item)
    (hat : at_ = .lock ∨ at_ = .woken) (hfree : s.lock = none) :
    Move s { s.goto t (.inside k .locked item) with lock := some t }
  | sleep (t : thread c) (k : Nat) (item : Int) (h : s.point t = .inside k .locked item)
    (hnone : t.op.available BUFFER_CAPACITY s.item_count = 0) :
    Move s { s.goto t (.inside k .asleep item) with lock := none }
  | push (i : Fin c.producers) (k : Nat) (item : Int) (h : s.point (.producer i) = .inside k .locked item)
    (hroom : s.item_count ≠ BUFFER_CAPACITY) :
    Move s ((store s (.producer i) item).goto (.producer i) (.inside k .acted item))
  | pop (i : Fin c.consumers) (k : Nat) (item taken : Int) (h : s.point (.consumer i) = .inside k .locked item)
    (hsome : s.item_count ≠ 0) (hget : s.buffer[s.head]? = some taken) :
    Move s ((take s (.consumer i) taken).goto (.consumer i) (.inside k .acted taken))
  | signal (t u : thread c) (k k' : Nat) (item item' : Int) (h : s.point t = .inside k .acted item)
    (hu : s.point u = .inside k' .asleep item') (hop : u.op = t.op.dual) :
    Move s ((s.goto u (.inside k' .woken item')).goto t (.inside k .signalled item))
  | silent (t : thread c) (k : Nat) (item : Int) (h : s.point t = .inside k .acted item)
    (hnone : ∀ u : thread c, u.op = t.op.dual → (s.point u).asleep = false) :
    Move s (s.goto t (.inside k .signalled item))
  | leave (t : thread c) (k : Nat) (item : Int) (h : s.point t = .inside k .signalled item) :
    Move s { s.goto t (.returned k item) with lock := none }
  | print (t : thread c) (k : Nat) (item : Int) (h : s.point t = .returned k item) : Move s (print s t k item)

variable {s s' : state c} {t : thread c} {wake : Option (thread c)}

theorem wake_up_cases (h : s.wake_up t = some s') :
    ∃ k item, s.point t = .inside k .asleep item ∧ s' = s.goto t (.inside k .woken item) := by
  unfold state.wake_up at h
  split at h
  · next k item hpoint => exact ⟨k, item, hpoint, (Option.some.inj h).symm⟩
  · cases h

theorem cond_signal_cases {o : op} (h : cond_signal s o wake = some s') :
    (∃ u k item, u.op = o ∧ s.point u = .inside k .asleep item ∧ s' = s.goto u (.inside k .woken item)) ∨
      ((∀ u : thread c, u.op = o → (s.point u).asleep = false) ∧ s' = s) := by
  unfold cond_signal at h
  split at h
  · next u =>
    split at h
    · next hop =>
      obtain ⟨k, item, hpoint, hs'⟩ := wake_up_cases h
      exact Or.inl ⟨u, k, item, hop, hpoint, hs'⟩
    · cases h
  · split at h
    · next hnone => exact Or.inr ⟨hnone, (Option.some.inj h).symm⟩
    · cases h

/-- The signal of a thread that has changed the buffer. -/
theorem move_signal {k : Nat} {item : Int} {s₁ : state c} (h : s.point t = .inside k .acted item)
    (hsignal : cond_signal s t.op.dual wake = some s₁) : Move s (s₁.goto t (.inside k .signalled item)) := by
  obtain ⟨u, k', item', hop, hu, rfl⟩ | ⟨hnone, rfl⟩ := cond_signal_cases hsignal
  · exact .signal t u k k' item item' h hu hop
  · exact .silent t k item h hnone

theorem producer_thread_move {i : Fin c.producers} (h : producer_thread s i wake = some s') : Move s s' := by
  unfold producer_thread at h
  dsimp only at h
  split at h
  · next k hpoint =>
    obtain rfl := Option.some.inj h
    split
    · next hk => exact .begin (.producer i) k hpoint hk
    · next hk => exact .finish (.producer i) k hpoint hk
  · next k at_ item hpoint =>
    obtain ⟨⟨s₁, next⟩, hpush, rfl⟩ := Option.map_eq_some_iff.mp h
    cases at_ with
    | lock | woken =>
      simp only [push_to_buffer] at hpush
      split at hpush
      · next hfree =>
        obtain ⟨rfl, rfl⟩ := Prod.mk.inj (Option.some.inj hpush)
        exact .acquire (.producer i) k _ item hpoint (by simp) hfree
      · cases hpush
    | locked =>
      simp only [push_to_buffer] at hpush
      split at hpush
      · next hfull =>
        obtain ⟨rfl, rfl⟩ := Prod.mk.inj (Option.some.inj hpush)
        exact .sleep (.producer i) k item hpoint (by rw [thread.op, op.available, hfull]; omega)
      · next hroom =>
        obtain ⟨rfl, rfl⟩ := Prod.mk.inj (Option.some.inj hpush)
        exact .push i k item hpoint hroom
    | asleep => cases hpush
    | acted =>
      obtain ⟨s₂, hsignal, heq⟩ := Option.map_eq_some_iff.mp hpush
      obtain ⟨rfl, rfl⟩ := Prod.mk.inj heq
      exact move_signal hpoint hsignal
    | signalled =>
      obtain ⟨rfl, rfl⟩ := Prod.mk.inj (Option.some.inj hpush)
      exact .leave (.producer i) k item hpoint
  · next k item hpoint =>
    obtain rfl := Option.some.inj h
    exact .print (.producer i) k item hpoint
  · cases h

theorem consumer_thread_move {i : Fin c.consumers} (h : consumer_thread s i wake = some s') : Move s s' := by
  unfold consumer_thread at h
  dsimp only at h
  split at h
  · next k hpoint =>
    obtain rfl := Option.some.inj h
    split
    · next hk => exact .begin (.consumer i) k hpoint hk
    · next hk => exact .finish (.consumer i) k hpoint hk
  · next k at_ item hpoint =>
    obtain ⟨⟨s₁, next, item₁⟩, hpop, rfl⟩ := Option.map_eq_some_iff.mp h
    cases at_ with
    | lock | woken =>
      simp only [pop_from_buffer] at hpop
      split at hpop
      · next hfree =>
        obtain ⟨rfl, heq⟩ := Prod.mk.inj (Option.some.inj hpop)
        obtain ⟨rfl, rfl⟩ := Prod.mk.inj heq
        exact .acquire (.consumer i) k _ item hpoint (by simp) hfree
      · cases hpop
    | locked =>
      simp only [pop_from_buffer] at hpop
      split at hpop
      · next hempty =>
        obtain ⟨rfl, heq⟩ := Prod.mk.inj (Option.some.inj hpop)
        obtain ⟨rfl, rfl⟩ := Prod.mk.inj heq
        exact .sleep (.consumer i) k item hpoint hempty
      · next hsome =>
        obtain ⟨taken, hget, htaken⟩ := Option.bind_eq_some_iff.mp hpop
        obtain ⟨rfl, heq⟩ := Prod.mk.inj (Option.some.inj htaken)
        obtain ⟨rfl, rfl⟩ := Prod.mk.inj heq
        exact .pop i k item taken hpoint hsome hget
    | asleep => cases hpop
    | acted =>
      obtain ⟨s₂, hsignal, heq⟩ := Option.map_eq_some_iff.mp hpop
      simp only [Prod.mk.injEq] at heq
      obtain ⟨rfl, rfl, rfl⟩ := heq
      exact move_signal hpoint hsignal
    | signalled =>
      obtain ⟨rfl, heq⟩ := Prod.mk.inj (Option.some.inj hpop)
      obtain ⟨rfl, rfl⟩ := Prod.mk.inj heq
      exact .leave (.consumer i) k item hpoint
  · next k item hpoint =>
    obtain rfl := Option.some.inj h
    exact .print (.consumer i) k item hpoint
  · cases h

theorem main_step_move (h : main_step s = some s') : Move s s' := by
  unfold main_step at h
  split at h
  · next i hmain =>
    split at h
    · next hi =>
      obtain rfl := Option.some.inj h
      exact .create_producer ⟨i, hi⟩ hmain
    · next hi =>
      obtain rfl := Option.some.inj h
      exact .leave_loop _ (hmain ▸ .created_producers i hi)
  · next i hmain =>
    split at h
    · next hi =>
      obtain rfl := Option.some.inj h
      exact .create_consumer ⟨i, hi⟩ hmain
    · next hi =>
      obtain rfl := Option.some.inj h
      exact .leave_loop _ (hmain ▸ .created_consumers i hi)
  · next i hmain =>
    split at h
    · next hi =>
      split at h
      · next hdone =>
        obtain rfl := Option.some.inj h
        exact .join_producer ⟨i, hi⟩ hmain hdone
      · cases h
    · next hi =>
      obtain rfl := Option.some.inj h
      exact .leave_loop _ (hmain ▸ .joined_producers i hi)
  · next i hmain =>
    split at h
    · next hi =>
      split at h
      · next hdone =>
        obtain rfl := Option.some.inj h
        exact .join_consumer ⟨i, hi⟩ hmain hdone
      · cases h
    · next hi =>
      obtain rfl := Option.some.inj h
      exact .leave_loop _ (hmain ▸ .joined_consumers i hi)
  · cases h

/-- The thread wakes up without a signal. -/
def Wakes (s : state c) (t : thread c) (s' : state c) : Prop :=
  ∃ k item, s.point t = .inside k .asleep item ∧ s' = s.goto t (.inside k .woken item)

theorem step_move {a : action_t c} (h : step s a = some s') : Move s s' ∨ ∃ t, a = .spurious t ∧ Wakes s t s' := by
  unfold step at h
  split at h
  · exact Or.inl (main_step_move h)
  · exact Or.inl (producer_thread_move h)
  · exact Or.inl (consumer_thread_move h)
  · next t => exact Or.inr ⟨t, rfl, wake_up_cases h⟩

end csystems.producer_consumer
