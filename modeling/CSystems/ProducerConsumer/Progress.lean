import CSystems.ProducerConsumer.Delivery

open clib.bounded_buffer clib.run clib.ring

namespace csystems.producer_consumer

variable {c : config} {s s' : state c}

/-- How far a thread is in its operation on the buffer. -/
def point_t.activity (o : op) : point_t → Option (op × stage)
  | .inside _ at_ _ => some (o, at_)
  | _ => none

def activity (s : state c) (t : thread c) : Option (op × stage) := (s.point t).activity t.op

theorem activity_goto (s : state c) (t : thread c) (p : point_t) :
    activity (s.goto t p) = Function.update (activity s) t (p.activity t.op) := by
  funext u
  exact Function.apply_update (fun u p => point_t.activity (thread.op u) p) s.point t p u

theorem activity_inside {t : thread c} {k : Nat} {at_ : stage} {item : Int} (h : s.point t = .inside k at_ item) :
    activity s t = some (t.op, at_) := by
  rw [activity, h]
  rfl

theorem asleep_iff {t : thread c} : (s.point t).asleep = true ↔ activity s t = some (t.op, .asleep) := by
  unfold activity
  cases s.point t with
  | inside k at_ item => cases at_ <;> simp [point_t.asleep, point_t.activity]
  | _ => simp [point_t.asleep, point_t.activity]

/-- What keeps the threads going: no wake-up is lost, and the lock is held by a
thread at work. -/
structure Live (s : state c) : Prop where
  wakeup : NoLostWakeup BUFFER_CAPACITY (activity s) s.item_count
  exclusive : Exclusive s.lock (activity s)

theorem live_start (c : config) : Live (start c) where
  wakeup o hasleep := by
    obtain ⟨t, ht⟩ := hasleep
    cases ht
  exclusive t := by simp [start, activity, point_t.activity, holds]

section Moves

variable {t : thread c}

/-- A thread goes on outside its operation. -/
theorem Live.goto_outside (h : Live s) {p : point_t} (ht : activity s t = none) (hp : p.activity t.op = none) :
    Live (s.goto t p) := by
  have hsame : activity (s.goto t p) = activity s := by
    rw [activity_goto, hp, ← ht, Function.update_eq_self]
  exact ⟨hsame ▸ h.wakeup, hsame ▸ h.exclusive⟩

/-- A thread goes on in its operation. -/
theorem Live.step (h : Live s) {p : point_t} {lock : Option (thread c)}
    (hstep : Step BUFFER_CAPACITY (activity s) s.item_count
      (Function.update (activity s) t (p.activity t.op)) s.item_count)
    (hexclusive : Exclusive lock (Function.update (activity s) t (p.activity t.op))) :
    Live { s.goto t p with lock := lock } := by
  have hactivity : activity { s.goto t p with lock := lock } = Function.update (activity s) t (p.activity t.op) :=
    activity_goto s t p
  constructor
  · rw [hactivity]
    exact h.wakeup.step hstep
  · rw [hactivity]
    exact hexclusive

theorem Live.wakes (h : Live s) (hwakes : Wakes s t s') : Live s' := by
  obtain ⟨k, item, ht, rfl⟩ := hwakes
  have hact := activity_inside ht
  exact h.step (.wake t t.op hact) (h.exclusive.move (by rw [hact]; rfl))

/-- A thread at the lock of its operation accesses the buffer. -/
theorem Live.act (h : Live s) {k : Nat} {item item' : Int} {s₁ : state c} (ht : s.point t = .inside k .locked item)
    (hpoint : s₁.point = s.point) (hlock : s₁.lock = s.lock) (hcount : s₁.item_count = t.op.apply s.item_count) :
    Live (s₁.goto t (.inside k .acted item')) := by
  have hact := activity_inside ht
  have hactivity : activity (s₁.goto t (.inside k .acted item')) =
      Function.update (activity s) t (some (t.op, .acted)) := by
    have hsame : activity s₁ = activity s := by
      unfold activity
      rw [hpoint]
    rw [activity_goto, hsame]
    rfl
  constructor
  · rw [hactivity]
    have hstep := h.wakeup.step (.act t t.op hact)
    rwa [← hcount] at hstep
  · rw [hactivity]
    have hmoved := h.exclusive.move (a := some (t.op, .acted)) (by rw [hact]; rfl)
    rwa [← hlock] at hmoved

/-- A thread signals one that sleeps. -/
theorem Live.signal (h : Live s) {u : thread c} {k k' : Nat} {item item' : Int}
    (ht : s.point t = .inside k .acted item) (hu : s.point u = .inside k' .asleep item') (hop : u.op = t.op.dual) :
    Live ((s.goto u (.inside k' .woken item')).goto t (.inside k .signalled item)) := by
  have hne : t ≠ u := by
    rintro rfl
    rw [ht] at hu
    cases hu
  have hact := activity_inside ht
  have hasleep := activity_inside hu
  have hactivity : activity ((s.goto u (.inside k' .woken item')).goto t (.inside k .signalled item)) =
      Function.update (Function.update (activity s) u (some (t.op.dual, .woken))) t (some (t.op, .signalled)) := by
    rw [activity_goto, activity_goto, point_t.activity, hop]
    rfl
  constructor
  · rw [hactivity]
    exact h.wakeup.step (.signal t u t.op hact (hop ▸ hasleep))
  · rw [hactivity]
    have hwoken := h.exclusive.move (t := u) (a := some (t.op.dual, .woken)) (by rw [hasleep]; rfl)
    exact hwoken.move (by rw [Function.update_of_ne hne, hact]; rfl)

end Moves

theorem Live.move (h : Live s) (hinv : Inv s) (hmove : Move s s') : Live s' := by
  cases hmove with
  | create_producer i hmain =>
    have habsent : s.point (.producer i) = .absent :=
      (hinv.ordered.absent_iff _).mpr (by rw [hmain]; exact Nat.lt_irrefl i.val)
    have hlive : Live (s.goto (.producer i) (.loop 0)) := h.goto_outside (by rw [activity, habsent]; rfl) rfl
    exact ⟨hlive.wakeup, hlive.exclusive⟩
  | create_consumer i hmain =>
    have habsent : s.point (.consumer i) = .absent :=
      (hinv.ordered.absent_iff _).mpr (by rw [hmain]; exact Nat.lt_irrefl i.val)
    have hlive : Live (s.goto (.consumer i) (.loop 0)) := h.goto_outside (by rw [activity, habsent]; rfl) rfl
    exact ⟨hlive.wakeup, hlive.exclusive⟩
  | join_producer i hmain hdone => exact ⟨h.wakeup, h.exclusive⟩
  | join_consumer i hmain hdone => exact ⟨h.wakeup, h.exclusive⟩
  | leave_loop main hleaves => exact ⟨h.wakeup, h.exclusive⟩
  | begin t k ht hk =>
    have hact : activity s t = none := by
      rw [activity, ht]
      rfl
    exact h.step (.enter t t.op hact) (h.exclusive.move (by rw [hact]; rfl))
  | finish t k ht hk => exact h.goto_outside (by rw [activity, ht]; rfl) rfl
  | acquire t k at_ item ht hat hfree =>
    have hact := activity_inside ht
    have hexclusive := h.exclusive
    rw [hfree] at hexclusive
    refine h.step (.acquire t t.op ?_) (hexclusive.acquire rfl)
    rw [hact]
    obtain rfl | rfl := hat
    · exact Or.inl rfl
    · exact Or.inr rfl
  | sleep t k item ht hnone =>
    have hact := activity_inside ht
    exact h.step (.sleep t t.op hact hnone) (h.exclusive.release (by rw [hact]; rfl) rfl)
  | push i k item ht hroom => exact h.act ht rfl rfl rfl
  | pop i k item taken ht hsome hget => exact h.act ht rfl rfl rfl
  | signal t u k k' item item' ht hu hop => exact h.signal ht hu hop
  | silent t k item ht hnone =>
    have hact := activity_inside ht
    refine h.step (.silent t t.op hact fun u hu => ?_) (h.exclusive.move (by rw [hact]; rfl))
    have hop : u.op = t.op.dual := by
      unfold activity at hu
      cases hpoint : s.point u <;> simp_all [point_t.activity]
    have hasleep := asleep_iff.mpr (hop ▸ hu)
    rw [hnone u hop] at hasleep
    cases hasleep
  | leave t k item ht =>
    have hact := activity_inside ht
    exact h.step (.leave t t.op hact) (h.exclusive.release (by rw [hact]; rfl) rfl)
  | print t k item ht =>
    have hlive : Live (s.goto t (.loop (k + 1))) := h.goto_outside (by rw [activity, ht]; rfl) rfl
    exact ⟨hlive.wakeup, hlive.exclusive⟩

theorem inv_live_step {a : action_t c} (h : Inv s ∧ Live s) (hstep : step s a = some s') : Inv s' ∧ Live s' := by
  obtain ⟨hinv, hlive⟩ := h
  refine ⟨inv_step hinv hstep, ?_⟩
  obtain hmove | ⟨t, -, hwakes⟩ := step_move hstep
  · exact hlive.move hinv hmove
  · exact hlive.wakes hwakes

theorem reachable_live (h : Reachable step (start c) s) : Inv s ∧ Live s :=
  h.invariant ⟨inv_start c, live_start c⟩ fun _ _ _ hinv hstep => inv_live_step hinv hstep

/-- `main` has not finished, and neither it nor a thread can go on; a thread that
sleeps may still wake up without a signal. -/
def Blocked (s : state c) : Prop :=
  s.main ≠ .finished ∧ step s .main = none ∧ ∀ t wake, step s (.run t wake) = none

theorem exists_cond_signal (s : state c) (o : op) : ∃ wake s₁, cond_signal s o wake = some s₁ := by
  by_cases hnone : ∀ t : thread c, t.op = o → (s.point t).asleep = false
  · exact ⟨none, s, if_pos hnone⟩
  · push Not at hnone
    obtain ⟨t, hop, hasleep⟩ := hnone
    have hasleep : (s.point t).asleep = true := by simpa using hasleep
    unfold point_t.asleep at hasleep
    split at hasleep
    · next k item hpoint =>
      refine ⟨some t, s.goto t (.inside k .woken item), ?_⟩
      rw [cond_signal, if_pos hop, state.wake_up, hpoint]
    · cases hasleep

section Blocked

variable (hblocked : Blocked s)
include hblocked

theorem Blocked.not_loop (t : thread c) (k : Nat) : s.point t ≠ .loop k := by
  intro hpoint
  have hnone := hblocked.2.2 t none
  cases t <;> simp [step, producer_thread, consumer_thread, hpoint] at hnone

theorem Blocked.not_returned (t : thread c) (k : Nat) (item : Int) : s.point t ≠ .returned k item := by
  intro hpoint
  have hnone := hblocked.2.2 t none
  cases t <;> simp [step, producer_thread, consumer_thread, hpoint] at hnone

theorem Blocked.not_acted (t : thread c) (k : Nat) (item : Int) : s.point t ≠ .inside k .acted item := by
  intro hpoint
  obtain ⟨wake, s₁, hsignal⟩ := exists_cond_signal s t.op.dual
  have hnone := hblocked.2.2 t wake
  cases t <;> simp only [thread.op, op.dual] at hsignal <;>
    simp [step, producer_thread, consumer_thread, hpoint, push_to_buffer, pop_from_buffer, hsignal] at hnone

theorem Blocked.not_signalled (t : thread c) (k : Nat) (item : Int) : s.point t ≠ .inside k .signalled item := by
  intro hpoint
  have hnone := hblocked.2.2 t none
  cases t <;> simp [step, producer_thread, consumer_thread, hpoint, push_to_buffer, pop_from_buffer] at hnone

theorem Blocked.not_locked (hqueued : Queued s) (t : thread c) (k : Nat) (item : Int) :
    s.point t ≠ .inside k .locked item := by
  intro hpoint
  have hnone := hblocked.2.2 t none
  cases t with
  | producer i =>
    by_cases hfull : s.item_count = BUFFER_CAPACITY <;>
      simp [step, producer_thread, hpoint, push_to_buffer, hfull] at hnone
  | consumer i =>
    by_cases hempty : s.item_count = 0
    · simp [step, consumer_thread, hpoint, pop_from_buffer, hempty] at hnone
    · -- the buffer is not empty, so there is an item at its head
      obtain ⟨contents, hring, hcount, -⟩ := hqueued
      cases contents with
      | nil => exact hempty hcount
      | cons first contents =>
        simp [step, consumer_thread, hpoint, pop_from_buffer, hempty, hring.pop.1] at hnone

theorem Blocked.lock_eq (hinv : Inv s) (hlive : Live s) : s.lock = none := by
  cases hlock : s.lock with
  | none => rfl
  | some t =>
    have hholds := (hlive.exclusive t).mp hlock
    unfold activity at hholds
    cases hpoint : s.point t with
    | inside k at_ item =>
      rw [hpoint] at hholds
      cases at_ with
      | locked => exact absurd hpoint (hblocked.not_locked hinv.queued t k item)
      | acted => exact absurd hpoint (hblocked.not_acted t k item)
      | signalled => exact absurd hpoint (hblocked.not_signalled t k item)
      | _ => cases hholds
    | _ =>
      rw [hpoint] at hholds
      cases hholds

/-- The lock is free, so a created thread that is left sleeps. -/
theorem Blocked.asleep (hinv : Inv s) (hlive : Live s) {t : thread c} (habsent : s.point t ≠ .absent)
    (hfinished : s.point t ≠ .finished) : activity s t = some (t.op, .asleep) := by
  have hfree := hblocked.lock_eq hinv hlive
  cases hpoint : s.point t with
  | absent => exact absurd hpoint habsent
  | finished => exact absurd hpoint hfinished
  | loop k => exact absurd hpoint (hblocked.not_loop t k)
  | returned k item => exact absurd hpoint (hblocked.not_returned t k item)
  | inside k at_ item =>
    cases at_ with
    | asleep => exact activity_inside hpoint
    | locked => exact absurd hpoint (hblocked.not_locked hinv.queued t k item)
    | acted => exact absurd hpoint (hblocked.not_acted t k item)
    | signalled => exact absurd hpoint (hblocked.not_signalled t k item)
    | lock | woken =>
      have hnone := hblocked.2.2 t none
      cases t <;>
        simp [step, producer_thread, consumer_thread, hpoint, push_to_buffer, pop_from_buffer, hfree] at hnone

/-- `main` has created all threads, and waits for one of them. -/
theorem Blocked.waits (hinv : Inv s) : (∀ t, s.point t ≠ .absent) ∧ ∃ t, s.point t ≠ .finished := by
  obtain ⟨hmain, hnone, -⟩ := hblocked
  have hcreated (hall : ∀ t : thread c, s.main.created t) (t : thread c) : s.point t ≠ .absent := fun habsent =>
    (hinv.ordered.absent_iff t).mp habsent (hall t)
  rw [step, main_step] at hnone
  cases hs : s.main with
  | finished => exact absurd hs hmain
  | create_producers i =>
    rw [hs] at hnone
    dsimp only at hnone
    split at hnone <;> cases hnone
  | create_consumers i =>
    rw [hs] at hnone
    dsimp only at hnone
    split at hnone <;> cases hnone
  | join_producers i =>
    rw [hs] at hnone
    dsimp only at hnone
    split at hnone
    · next hi =>
      split at hnone
      · cases hnone
      · next hne => exact ⟨hcreated fun t => by rw [hs]; cases t <;> trivial, .producer ⟨i, hi⟩, hne⟩
    · cases hnone
  | join_consumers i =>
    rw [hs] at hnone
    dsimp only at hnone
    split at hnone
    · next hi =>
      split at hnone
      · cases hnone
      · next hne => exact ⟨hcreated fun t => by rw [hs]; cases t <;> trivial, .consumer ⟨i, hi⟩, hne⟩
    · cases hnone

/-- A thread that is left sleeps for what is not possible. -/
theorem Blocked.available (hinv : Inv s) (hlive : Live s) {t : thread c} (ht : s.point t ≠ .finished) :
    t.op.available BUFFER_CAPACITY s.item_count ≤ 0 := by
  have hcreated := (hblocked.waits hinv).1
  refine hlive.wakeup.available_nonpos (fun u => ?_) ⟨t, hblocked.asleep hinv hlive (hcreated t) ht⟩
  by_cases hu : s.point u = .finished
  · rw [activity, hu]
    exact Or.inl rfl
  · exact Or.inr ⟨u.op, hblocked.asleep hinv hlive (hcreated u) hu⟩

end Blocked

/-- A sleeping thread has rounds left. -/
theorem Inv.done_lt (h : Inv s) {t : thread c} (hasleep : activity s t = some (t.op, .asleep)) :
    (s.point t).done t.rounds < t.rounds := by
  have hkept := h.threads t
  unfold activity at hasleep
  cases hpoint : s.point t with
  | inside k at_ item =>
    rw [hpoint] at hasleep hkept
    simp only [point_t.activity, Option.some.injEq, Prod.mk.injEq, true_and] at hasleep
    subst hasleep
    exact hkept.bounded
  | _ =>
    rw [hpoint] at hasleep
    cases hasleep

/-- A thread that has rounds left makes the total less than what is to be done. -/
theorem sum_done_lt {n rounds : Nat} {f : Fin n → point_t} (hbounded : ∀ i, (f i).Bounded rounds) {i : Fin n}
    (hi : (f i).done rounds < rounds) : ∑ j, (f j).done rounds < n * rounds := by
  have hlt : ∑ j, (f j).done rounds < ∑ _j : Fin n, rounds :=
    Finset.sum_lt_sum (fun j _ => (hbounded j).done_le) ⟨i, Finset.mem_univ i, hi⟩
  simpa using hlt

theorem sum_done_of_finished {n rounds : Nat} {f : Fin n → point_t} (hfinished : ∀ i, f i = .finished) :
    ∑ j, (f j).done rounds = n * rounds := by
  simp [hfinished, point_t.done]

/-- The program gets stuck only if more items are left over than the buffer holds. -/
theorem Blocked.capacity_lt (hblocked : Blocked s) (hinv : Inv s) (hlive : Live s) :
    BUFFER_CAPACITY < c.producers * c.items % c.consumers := by
  obtain ⟨hcreated, t, ht⟩ := hblocked.waits hinv
  have hasleep := hblocked.asleep hinv hlive (hcreated t) ht
  have hnone := hblocked.available hinv hlive ht
  have hcount := hinv.item_count_eq
  have hdiv := Nat.mod_add_div (c.producers * c.items) c.consumers
  have hpos : (0 : Int) < BUFFER_CAPACITY := by decide
  cases t with
  | producer i =>
    -- the buffer is full, so the consumers have taken all they are to take
    have hfull : (BUFFER_CAPACITY : Int) - s.item_count ≤ 0 := hnone
    have hconsumers (j : Fin c.consumers) : s.point (.consumer j) = .finished := by
      by_contra hne
      have hempty : s.item_count ≤ 0 := hblocked.available hinv hlive hne
      omega
    have hpushed : s.pushed.length < c.producers * c.items := by
      rw [hinv.pushed_length]
      exact sum_done_lt (fun j => (hinv.threads (.producer j)).bounded) (hinv.done_lt hasleep)
    have hpopped : s.popped.length = c.consumers * c.items_to_consume := by
      rw [hinv.popped_length]
      exact sum_done_of_finished hconsumers
    rw [config.items_to_consume] at hpopped
    omega
  | consumer i =>
    -- the buffer is empty, so the producers have put in all they are to put in
    have hempty : s.item_count ≤ 0 := hnone
    have hproducers (j : Fin c.producers) : s.point (.producer j) = .finished := by
      by_contra hne
      have hfull : (BUFFER_CAPACITY : Int) - s.item_count ≤ 0 := hblocked.available hinv hlive hne
      omega
    have hpopped : s.popped.length < c.consumers * c.items_to_consume := by
      rw [hinv.popped_length]
      exact sum_done_lt (fun j => (hinv.threads (.consumer j)).bounded) (hinv.done_lt hasleep)
    have hpushed : s.pushed.length = c.producers * c.items := by
      rw [hinv.pushed_length]
      exact sum_done_of_finished hproducers
    rw [config.items_to_consume] at hpopped
    omega

/-! How many steps are left. A signal costs its thread more than it gives to the one
it wakes, so only a wake-up without a signal adds to them. -/

def stage_weight : stage → Nat
  | .lock | .woken => 9
  | .locked => 8
  | .asleep => 7
  | .acted => 6
  | .signalled => 3

def point_t.weight (rounds : Nat) : point_t → Nat
  | .absent => rounds * 9 + 1
  | .loop k => (rounds - k) * 9 + 1
  | .inside k at_ _ => (rounds - (k + 1)) * 9 + stage_weight at_
  | .returned k _ => (rounds - (k + 1)) * 9 + 2
  | .finished => 0

def main_t.weight (c : config) : main_t → Nat
  | .create_producers i => (c.producers - i) + c.producers + 2 * c.consumers + 4
  | .create_consumers i => (c.consumers - i) + c.producers + c.consumers + 3
  | .join_producers i => (c.producers - i) + c.consumers + 2
  | .join_consumers i => (c.consumers - i) + 1
  | .finished => 0

def state.weight (s : state c) : Nat := s.main.weight c + ∑ t : thread c, (s.point t).weight t.rounds

theorem weight_goto (s : state c) (t : thread c) (p : point_t) :
    (s.goto t p).weight + (s.point t).weight t.rounds = s.weight + p.weight t.rounds := by
  have hpoint : (fun u => ((s.goto t p).point u).weight u.rounds) =
      Function.update (fun u => (s.point u).weight u.rounds) t (p.weight t.rounds) := by
    funext u
    exact Function.apply_update (fun u p => point_t.weight (thread.rounds u) p) s.point t p u
  have htotal := total_update (fun u => (s.point u).weight u.rounds) t (p.weight t.rounds)
  rw [← hpoint] at htotal
  beta_reduce at htotal
  have hmain : (s.goto t p).weight = s.main.weight c + ∑ u, ((s.goto t p).point u).weight u.rounds := rfl
  rw [hmain, state.weight]
  omega

theorem weight_set_main (s : state c) (main : main_t) :
    { s with main := main }.weight + s.main.weight c = s.weight + main.weight c := by
  simp only [state.weight]
  omega

/-- A thread goes on to a lighter point. -/
theorem weight_lt {t : thread c} {p : point_t} (h : p.weight t.rounds < (s.point t).weight t.rounds) :
    (s.goto t p).weight < s.weight := by
  have hgoto := weight_goto s t p
  omega

/-- `main` creates a thread. -/
theorem weight_create_lt {t : thread c} {main : main_t} (habsent : s.point t = .absent)
    (h : main.weight c < s.main.weight c) : { s.goto t (.loop 0) with main := main }.weight < s.weight := by
  have hgoto := weight_goto s t (.loop 0)
  have hmain : { s.goto t (.loop 0) with main := main }.weight + s.main.weight c =
      (s.goto t (.loop 0)).weight + main.weight c := weight_set_main (s.goto t (.loop 0)) main
  rw [habsent] at hgoto
  simp only [point_t.weight, Nat.sub_zero] at hgoto
  omega

theorem main_weight_lt {main : main_t} (h : main.weight c < s.main.weight c) :
    { s with main := main }.weight < s.weight := by
  have hmain := weight_set_main s main
  omega

theorem main_t.Leaves.weight_lt {main main' : main_t} (h : main.Leaves c main') : main'.weight c < main.weight c := by
  cases h <;> simp only [main_t.weight] <;> omega

theorem Move.weight_lt (hmove : Move s s') (hinv : Inv s) : s'.weight < s.weight := by
  cases hmove with
  | create_producer i hmain =>
    refine weight_create_lt ((hinv.ordered.absent_iff _).mpr (by rw [hmain]; exact Nat.lt_irrefl i.val)) ?_
    rw [hmain]
    simp only [main_t.weight]
    omega
  | create_consumer i hmain =>
    refine weight_create_lt ((hinv.ordered.absent_iff _).mpr (by rw [hmain]; exact Nat.lt_irrefl i.val)) ?_
    rw [hmain]
    simp only [main_t.weight]
    omega
  | join_producer i hmain hdone =>
    apply main_weight_lt
    rw [hmain]
    simp only [main_t.weight]
    omega
  | join_consumer i hmain hdone =>
    apply main_weight_lt
    rw [hmain]
    simp only [main_t.weight]
    omega
  | leave_loop main hleaves => exact main_weight_lt hleaves.weight_lt
  | begin t k ht hk =>
    apply producer_consumer.weight_lt
    rw [ht]
    simp only [point_t.weight, stage_weight]
    omega
  | finish t k ht hk =>
    apply producer_consumer.weight_lt
    rw [ht]
    simp only [point_t.weight]
    omega
  | acquire t k at_ item ht hat hfree =>
    refine producer_consumer.weight_lt (s := s) (p := .inside k .locked item) ?_
    rw [ht]
    obtain rfl | rfl := hat <;> simp only [point_t.weight, stage_weight] <;> omega
  | sleep t k item ht hnone =>
    refine producer_consumer.weight_lt (s := s) (p := .inside k .asleep item) ?_
    rw [ht]
    simp only [point_t.weight, stage_weight]
    omega
  | push i k item ht hroom =>
    refine producer_consumer.weight_lt (s := s) (p := .inside k .acted item) ?_
    rw [ht]
    simp only [point_t.weight, stage_weight]
    omega
  | pop i k item taken ht hsome hget =>
    refine producer_consumer.weight_lt (s := s) (p := .inside k .acted taken) ?_
    rw [ht]
    simp only [point_t.weight, stage_weight]
    omega
  | signal t u k k' item item' ht hu hop =>
    have hne : t ≠ u := by
      rintro rfl
      rw [ht] at hu
      cases hu
    have hwoken := weight_goto s u (.inside k' .woken item')
    have hsignalled := weight_goto (s.goto u (.inside k' .woken item')) t (.inside k .signalled item)
    have hpoint : (s.goto u (.inside k' .woken item')).point t = .inside k .acted item :=
      (Function.update_of_ne hne ..).trans ht
    rw [hu] at hwoken
    rw [hpoint] at hsignalled
    simp only [point_t.weight, stage_weight] at hwoken hsignalled
    omega
  | silent t k item ht hnone =>
    apply producer_consumer.weight_lt
    rw [ht]
    simp only [point_t.weight, stage_weight]
    omega
  | leave t k item ht =>
    refine producer_consumer.weight_lt (s := s) (p := .returned k item) ?_
    rw [ht]
    simp only [point_t.weight, stage_weight]
    omega
  | print t k item ht =>
    refine producer_consumer.weight_lt (s := s) (p := .loop (k + 1)) ?_
    rw [ht]
    simp only [point_t.weight]
    omega

/-- The action is a wake-up without a signal. -/
def action_t.is_spurious : action_t c → Bool
  | .spurious _ => true
  | _ => false

/-- What an action can add to the steps that are left. -/
def action_t.gain (a : action_t c) : Nat := if a.is_spurious then 3 else 0

theorem step_weight {a : action_t c} (hinv : Inv s) (hstep : step s a = some s') :
    s'.weight + 1 ≤ s.weight + a.gain := by
  obtain hmove | ⟨t, rfl, k, item, ht, rfl⟩ := step_move hstep
  · have hlt := hmove.weight_lt hinv
    omega
  · have hgoto := weight_goto s t (.inside k .woken item)
    rw [ht] at hgoto
    simp only [point_t.weight, stage_weight] at hgoto
    have hgain : (action_t.spurious t).gain = 3 := rfl
    omega

theorem weight_lt_of_run {a : action_t c} (hinv : Inv s) (hrun : a.is_spurious = false) (hstep : step s a = some s') :
    s'.weight < s.weight := by
  have hle := step_weight hinv hstep
  have hgain : a.gain = 0 := by simp [action_t.gain, hrun]
  omega

theorem start_weight (c : config) : (start c).weight =
    c.producers * (9 * c.items + 1) + c.consumers * (9 * c.items_to_consume + 1) +
      2 * (c.producers + c.consumers) + 4 := by
  have hpoint (t : thread c) : ((start c).point t).weight t.rounds = t.rounds * 9 + 1 := rfl
  have hproducer (i : Fin c.producers) : (thread.producer i : thread c).rounds = c.items := rfl
  have hconsumer (i : Fin c.consumers) : (thread.consumer i : thread c).rounds = c.items_to_consume := rfl
  have hmain : (start c).main.weight c = c.producers + c.producers + 2 * c.consumers + 4 := rfl
  simp only [state.weight, hpoint, sum_thread, hproducer, hconsumer, hmain, Finset.sum_const, Finset.card_univ,
    Fintype.card_fin, Nat.nsmul_eq_mul]
  rw [Nat.mul_comm c.items 9, Nat.mul_comm c.items_to_consume 9]
  omega

/-- The program ends: apart from three for each wake-up without a signal, a run has no
more steps than its constants allow. -/
theorem run_length_le {actions : List (action_t c)} (hsteps : steps step (start c) actions = some s) :
    actions.length ≤ c.producers * (9 * c.items + 1) + c.consumers * (9 * c.items_to_consume + 1) +
      2 * (c.producers + c.consumers) + 4 + 3 * actions.countP action_t.is_spurious := by
  have hle := steps_length_le_countP (fun _ _ _ => inv_step) (fun _ _ _ => step_weight) (inv_start c) hsteps
  rw [start_weight] at hle
  omega

theorem run_length_le_two : (two_of_each config.two 0 1 0 1).length ≤ 88 + 3 := by
  have hsteps : ∃ s : state config.two, steps step (start _) (two_of_each config.two 0 1 0 1) = some s := ⟨_, rfl⟩
  obtain ⟨s, hsteps⟩ := hsteps
  exact run_length_le hsteps

/-- In whatever order the threads run, the program never gets stuck, exactly if the
buffer has room for the items that no consumer is to take. -/
theorem never_blocked_iff (c : config) :
    (∀ s, Reachable step (start c) s → ¬ Blocked s) ↔ c.producers * c.items % c.consumers ≤ BUFFER_CAPACITY := by
  constructor
  · intro hnever
    by_contra hnot
    -- a run that goes on as long as it can ends, and cannot end with `main`
    obtain ⟨s, hreach, hfinal⟩ := exists_final (P := fun a : action_t c => a.is_spurious = false)
      (fun _ _ _ => inv_step) (fun _ _ _ => weight_lt_of_run) Reachable.start (inv_start c)
    refine hnever s hreach ⟨fun hmain => ?_, hfinal .main rfl, fun t wake => hfinal (.run t wake) rfl⟩
    have hinv := reachable_inv hreach
    have hcount := hinv.left_over hmain
    obtain ⟨contents, hring, hlength, -⟩ := hinv.queued
    have hle := hring.length_le
    omega
  · intro hle s hreach hblocked
    obtain ⟨hinv, hlive⟩ := reachable_live hreach
    exact Nat.not_lt_of_le hle (hblocked.capacity_lt hinv hlive)

/-- With the constants of the source no item is left over. -/
example : config.source.producers * config.source.items % config.source.consumers = 0 := rfl

end csystems.producer_consumer
