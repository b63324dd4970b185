import CSystems.TaskQueue.Program

open clib.run

namespace csystems.task_queue

variable {c : config} {s s' : state c}

/-- How many tasks `main` has put into the queue. -/
def main_t.filled (c : config) : main_t → Nat
  | .create _ | .lock => 0
  | .fill i => i
  | _ => c.tasks

/-- `main` has the lock. -/
def main_t.holds : main_t → Bool
  | .fill _ | .broadcast | .unlock => true
  | _ => false

def worker_t.holds : worker_t → Bool
  | .locked | .took _ => true
  | _ => false

/-- The worker will test the queue before it takes a task. -/
def worker_t.waits : worker_t → Bool
  | .absent | .lock | .locked | .asleep | .woken => true
  | _ => false

theorem filled_of_broadcast {m : main_t} (h : m.has_broadcast = true) : m.filled c = c.tasks := by
  cases m with
  | unlock | join i | finished => rfl
  | _ => cases h

structure Inv (s : state c) : Prop where
  filled_le : s.main.filled c ≤ c.tasks
  count_eq : s.count + s.taken.length = s.main.filled c
  lock_main : s.main.holds = true → s.lock = some .main
  lock_worker : ∀ i, (s.worker i).holds = true → s.lock = some (.worker i)
  untouched : s.main.has_broadcast = false → s.taken = []

theorem inv_start (c : config) : Inv (start c) :=
  ⟨Nat.zero_le _, rfl, by simp [start, main_t.holds], by simp [start, worker_t.holds], fun _ => rfl⟩

/-- A worker that moves on outside the lock. -/
theorem Inv.set_worker (h : Inv s) {i : Fin c.workers} {p : worker_t} (hp : p.holds = false) :
    Inv (s.set_worker i p) := by
  refine ⟨h.filled_le, h.count_eq, h.lock_main, ?_, h.untouched⟩
  exact forall_update (P := fun i (p : worker_t) => p.holds = true → s.lock = some (.worker i)) h.lock_worker
    (by simp [hp])

theorem Inv.main_free (h : Inv s) (hlock : s.lock ≠ some .main) : s.main.holds = false := by
  by_contra hmain
  exact hlock (h.lock_main (by simpa using hmain))

theorem Inv.worker_free (h : Inv s) {i : Fin c.workers} (hlock : s.lock ≠ some (.worker i)) :
    (s.worker i).holds = false := by
  by_contra hi
  exact hlock (h.lock_worker i (by simpa using hi))

/-- A worker that holds the lock is the only one, and `main` does not hold it. -/
theorem Inv.others (h : Inv s) {i : Fin c.workers} (hi : (s.worker i).holds = true) :
    s.main.holds = false ∧ ∀ j, j ≠ i → (s.worker j).holds = false := by
  have hlock := h.lock_worker i hi
  refine ⟨h.main_free (by simp [hlock]), fun j hji => h.worker_free ?_⟩
  simpa [hlock] using Ne.symm hji

theorem Inv.main_step (h : Inv s) (hstep : main_step s = some s') : Inv s' := by
  have hcount := h.count_eq
  have hfilled := h.filled_le
  unfold task_queue.main_step at hstep
  split at hstep
  · next i hmain =>
    rw [hmain] at hcount
    split at hstep
    · next hi =>
      obtain rfl := Option.some.inj hstep
      have hset := h.set_worker (i := ⟨i, hi⟩) (p := .lock) rfl
      exact ⟨Nat.zero_le _, hcount, by simp [main_t.holds], hset.lock_worker,
        fun _ => h.untouched (by rw [hmain]; rfl)⟩
    · obtain rfl := Option.some.inj hstep
      exact ⟨Nat.zero_le _, hcount, by simp [main_t.holds], h.lock_worker,
        fun _ => h.untouched (by rw [hmain]; rfl)⟩
  · next hmain =>
    rw [hmain] at hcount
    split at hstep
    · next hfree =>
      obtain rfl := Option.some.inj hstep
      refine ⟨Nat.zero_le _, hcount, fun _ => rfl, ?_, fun _ => h.untouched (by rw [hmain]; rfl)⟩
      intro i hi
      have hlock := h.lock_worker i hi
      rw [hfree] at hlock
      cases hlock
    · cases hstep
  · next i hmain =>
    have hlock := h.lock_main (by rw [hmain]; rfl)
    have huntouched := h.untouched (by rw [hmain]; rfl)
    rw [hmain] at hcount hfilled
    split at hstep
    · next hi =>
      obtain rfl := Option.some.inj hstep
      refine ⟨hi, ?_, fun _ => hlock, h.lock_worker, fun _ => huntouched⟩
      show s.count + 1 + s.taken.length = (i + 1 : Nat)
      have hcount : s.count + s.taken.length = (i : Nat) := hcount
      omega
    · next hi =>
      obtain rfl := Option.some.inj hstep
      have hle : i ≤ c.tasks := hfilled
      obtain rfl : i = c.tasks := by omega
      exact ⟨Nat.le_refl _, hcount, fun _ => hlock, h.lock_worker, fun _ => huntouched⟩
  · next hmain =>
    have hlock := h.lock_main (by rw [hmain]; rfl)
    rw [hmain] at hcount
    obtain rfl := Option.some.inj hstep
    refine ⟨Nat.le_refl _, hcount, fun _ => hlock, ?_, by simp [main_t.has_broadcast]⟩
    intro i hi
    refine h.lock_worker i ?_
    have hi : (if s.worker i = .asleep then worker_t.woken else s.worker i).holds = true := hi
    split at hi
    · cases hi
    · exact hi
  · next hmain =>
    rw [hmain] at hcount
    obtain rfl := Option.some.inj hstep
    refine ⟨Nat.le_refl _, hcount, by simp [main_t.holds], ?_, by simp [main_t.has_broadcast]⟩
    intro i hi
    have hmain' := (h.others hi).1
    rw [hmain] at hmain'
    cases hmain'
  · next i hmain =>
    rw [hmain] at hcount
    split at hstep
    · split at hstep
      · obtain rfl := Option.some.inj hstep
        exact ⟨Nat.le_refl _, hcount, by simp [main_t.holds], h.lock_worker, by simp [main_t.has_broadcast]⟩
      · cases hstep
    · obtain rfl := Option.some.inj hstep
      exact ⟨Nat.le_refl _, hcount, by simp [main_t.holds], h.lock_worker, by simp [main_t.has_broadcast]⟩
  · cases hstep

/-- A worker that takes the lock, or moves on with it. -/
theorem Inv.holding (h : Inv s) {i : Fin c.workers} (hmain : s.main.holds = false)
    (hothers : ∀ j, j ≠ i → (s.worker j).holds = false) (p : worker_t) :
    Inv { s.set_worker i p with lock := some (.worker i) } := by
  refine ⟨h.filled_le, h.count_eq, by simp [state.set_worker, hmain], ?_, h.untouched⟩
  intro j hj
  by_cases hji : j = i
  · rw [hji]
  · have hj : (Function.update s.worker i p j).holds = true := hj
    rw [Function.update_of_ne hji, hothers j hji] at hj
    cases hj

/-- A worker that waits for the lock, and gets it. -/
theorem Inv.acquire (h : Inv s) {i : Fin c.workers}
    (hstep : (if s.lock = none then some { s.set_worker i .locked with lock := some (.worker i) } else none) =
      some s') : Inv s' := by
  split at hstep
  · next hfree =>
    obtain rfl := Option.some.inj hstep
    exact h.holding (h.main_free (by simp [hfree])) (fun j _ => h.worker_free (by simp [hfree])) .locked
  · cases hstep

/-- A worker that gives the lock back. -/
theorem Inv.release (h : Inv s) {i : Fin c.workers} (hi : (s.worker i).holds = true) {p : worker_t}
    (hp : p.holds = false) : Inv { s.set_worker i p with lock := none } := by
  obtain ⟨hmain, hothers⟩ := h.others hi
  refine ⟨h.filled_le, h.count_eq, by simp [state.set_worker, hmain], ?_, h.untouched⟩
  intro j hj
  have hj : (Function.update s.worker i p j).holds = true := hj
  by_cases hji : j = i
  · rw [hji, Function.update_self, hp] at hj
    cases hj
  · rw [Function.update_of_ne hji, hothers j hji] at hj
    cases hj

theorem Inv.take (h : Inv s) {i : Fin c.workers} (hi : s.worker i = .locked) (hcount : s.count ≠ 0) (num : Int) :
    Inv (take s i num) := by
  obtain ⟨hmain, hothers⟩ := h.others (i := i) (by rw [hi]; rfl)
  have hset := h.holding hmain hothers (.took num)
  have hlock : s.lock = some (.worker i) := h.lock_worker i (by rw [hi]; rfl)
  have heq := h.count_eq
  refine ⟨h.filled_le, ?_, by simp [task_queue.take, state.set_worker, hmain], ?_, ?_⟩
  · show s.count - 1 + (s.taken ++ [(i, num)]).length = (s.main.filled c : Int)
    rw [List.length_append, List.length_singleton]
    push_cast
    omega
  · intro j hj
    exact hlock.trans (hset.lock_worker j hj)
  · -- tasks are in the queue only while `main` has the lock, or after the broadcast
    intro hnot
    have huntouched := h.untouched hnot
    rw [huntouched] at heq
    cases hm : s.main with
    | fill k => rw [hm] at hmain; cases hmain
    | broadcast => rw [hm] at hmain; cases hmain
    | create k =>
      rw [hm] at heq
      exact absurd (by simpa [main_t.filled] using heq) hcount
    | lock =>
      rw [hm] at heq
      exact absurd (by simpa [main_t.filled] using heq) hcount
    | _ =>
      have hnot : s.main.has_broadcast = false := hnot
      rw [hm] at hnot
      cases hnot

theorem Inv.worker_step (h : Inv s) {i : Fin c.workers} (hstep : worker_step s i = some s') : Inv s' := by
  unfold task_queue.worker_step at hstep
  split at hstep
  · cases hstep
  · exact h.acquire hstep
  · exact h.acquire hstep
  · next hi =>
    split at hstep
    · obtain rfl := Option.some.inj hstep
      exact h.release (by rw [hi]; rfl) rfl
    · next hcount =>
      obtain ⟨num, -, heq⟩ := Option.bind_eq_some_iff.mp hstep
      obtain rfl := Option.some.inj heq
      exact h.take hi hcount num
  · cases hstep
  · next num hi =>
    obtain rfl := Option.some.inj hstep
    exact h.release (by rw [hi]; rfl) rfl
  · obtain rfl := Option.some.inj hstep
    exact h.set_worker rfl
  · obtain rfl := Option.some.inj hstep
    exact h.set_worker (by split <;> rfl)
  · cases hstep

theorem Inv.step (h : Inv s) {a : action_t c} (hstep : step s a = some s') : Inv s' := by
  unfold task_queue.step at hstep
  split at hstep
  · exact h.main_step hstep
  · exact h.worker_step hstep
  · split at hstep
    · obtain rfl := Option.some.inj hstep
      exact h.set_worker rfl
    · cases hstep

theorem reachable_inv (h : Reachable step (start c) s) : Inv s :=
  h.invariant (inv_start c) fun _ _ _ hinv hstep => hinv.step hstep

/-- Once all tasks are taken, no worker goes back to the queue. -/
def Settled (s : state c) : Prop :=
  s.main.has_broadcast = true → s.taken.length = c.tasks → ∀ i, (s.worker i).waits = false

theorem Settled.not_hung (h : Settled s) : ¬ Hung s := by
  rintro ⟨hmain, htaken, i, hi⟩
  have hwaits := h hmain htaken i
  rw [hi] at hwaits
  cases hwaits

/-- A worker that moves on, where it stays away from the queue if it was. -/
theorem Settled.set_worker (h : Settled s) {i : Fin c.workers} {p : worker_t}
    (hp : s.main.has_broadcast = true → s.taken.length = c.tasks → (s.worker i).waits = false → p.waits = false) :
    Settled (s.set_worker i p) := by
  intro hmain htaken
  have hbefore := h hmain htaken
  exact forall_update (P := fun _ (p : worker_t) => p.waits = false) hbefore (hp hmain htaken (hbefore i))

/-- The last task is taken when the other workers are done with the queue. -/
theorem Settled.take (hinv : Inv s) {i : Fin c.workers}
    (hlast : s.count = 1 → ∀ j, j ≠ i → (s.worker j).waits = false) (num : Int) : Settled (take s i num) := by
  intro hmain htaken
  have hmain : s.main.has_broadcast = true := hmain
  have htaken : (s.taken ++ [(i, num)]).length = c.tasks := htaken
  have hcount := hinv.count_eq
  rw [filled_of_broadcast hmain] at hcount
  rw [List.length_append, List.length_singleton] at htaken
  have hothers := hlast (by omega)
  intro j
  show (Function.update s.worker i (.took num) j).waits = false
  by_cases hji : j = i
  · rw [hji, Function.update_self]
    rfl
  · rw [Function.update_of_ne hji]
    exact hothers j hji

theorem Settled.main_step (h : Settled s) (hinv : Inv s) (hpos : 0 < c.tasks) (hstep : main_step s = some s') :
    Settled s' := by
  unfold task_queue.main_step at hstep
  split at hstep
  · split at hstep
    · obtain rfl := Option.some.inj hstep
      exact fun hmain => nomatch hmain
    · obtain rfl := Option.some.inj hstep
      exact fun hmain => nomatch hmain
  · split at hstep
    · obtain rfl := Option.some.inj hstep
      exact fun hmain => nomatch hmain
    · cases hstep
  · split at hstep
    · obtain rfl := Option.some.inj hstep
      exact fun hmain => nomatch hmain
    · obtain rfl := Option.some.inj hstep
      exact fun hmain => nomatch hmain
  · next hmain =>
    obtain rfl := Option.some.inj hstep
    intro _ htaken
    have htaken : s.taken.length = c.tasks := htaken
    rw [hinv.untouched (by rw [hmain]; rfl), List.length_nil] at htaken
    omega
  · next hmain =>
    obtain rfl := Option.some.inj hstep
    exact fun _ => h (by rw [hmain]; rfl)
  · next i hmain =>
    split at hstep
    · split at hstep
      · obtain rfl := Option.some.inj hstep
        exact fun _ => h (by rw [hmain]; rfl)
      · cases hstep
    · obtain rfl := Option.some.inj hstep
      exact fun _ => h (by rw [hmain]; rfl)
  · cases hstep

theorem Settled.worker_step (h : Settled s) (hinv : Inv s) {i : Fin c.workers}
    (hlast : s.worker i = .locked → s.count = 1 → ∀ j, j ≠ i → (s.worker j).waits = false)
    (hstep : worker_step s i = some s') : Settled s' := by
  have hwaiting (p : worker_t) (hi : (s.worker i).waits = true) : Settled (s.set_worker i p) :=
    h.set_worker fun _ _ hnot => absurd hi (by simp [hnot])
  unfold task_queue.worker_step at hstep
  split at hstep
  · cases hstep
  · next hi =>
    split at hstep
    · obtain rfl := Option.some.inj hstep
      exact hwaiting .locked (by rw [hi]; rfl)
    · cases hstep
  · next hi =>
    split at hstep
    · obtain rfl := Option.some.inj hstep
      exact hwaiting .locked (by rw [hi]; rfl)
    · cases hstep
  · next hi =>
    split at hstep
    · obtain rfl := Option.some.inj hstep
      exact hwaiting .asleep (by rw [hi]; rfl)
    · obtain ⟨num, -, heq⟩ := Option.bind_eq_some_iff.mp hstep
      obtain rfl := Option.some.inj heq
      exact .take hinv (hlast hi) num
  · cases hstep
  · next num hi =>
    obtain rfl := Option.some.inj hstep
    exact h.set_worker (p := .processing num) fun _ _ _ => rfl
  · obtain rfl := Option.some.inj hstep
    exact h.set_worker fun _ _ _ => rfl
  · next hi =>
    obtain rfl := Option.some.inj hstep
    refine h.set_worker fun hmain htaken _ => ?_
    have hcount := hinv.count_eq
    rw [filled_of_broadcast hmain, htaken] at hcount
    rw [if_pos (by omega)]
    rfl
  · cases hstep

/-- A single worker takes all tasks, and never waits for more. -/
theorem not_hung_of_one (hworkers : c.workers = 1) (hpos : 0 < c.tasks) (h : Reachable step (start c) s) :
    ¬ Hung s := by
  have hone (i j : Fin c.workers) : j = i := by
    apply Fin.ext
    omega
  have hsettled : Settled s := by
    induction h with
    | start => exact fun hmain => nomatch hmain
    | step a hreach hstep ih =>
      have hinv := reachable_inv hreach
      unfold task_queue.step at hstep
      split at hstep
      · exact ih.main_step hinv hpos hstep
      · next i => exact ih.worker_step hinv (fun _ _ j hji => absurd (hone i j) hji) hstep
      · next i =>
        split at hstep
        · next hi =>
          obtain rfl := Option.some.inj hstep
          exact ih.set_worker fun _ _ hnot => absurd hnot (by rw [hi]; decide)
        · cases hstep
  exact hsettled.not_hung

/-! The other runs: one worker takes all tasks, and another one comes too late. -/

/-- No worker has run yet. -/
structure Untouched (s : state c) : Prop where
  length_eq : s.tasks.length = c.tasks
  front_eq : s.front = 0
  taken_eq : s.taken = []

theorem reachable_created (c : config) {n : Nat} (hn : n ≤ c.workers) :
    ∃ s, Reachable step (start c) s ∧ Untouched s ∧ s.main = .create n ∧ s.lock = none ∧
      ∀ i : Fin c.workers, i < n → s.worker i = .lock := by
  induction n with
  | zero => exact ⟨start c, .start, ⟨List.length_replicate .., rfl, rfl⟩, rfl, rfl, by simp⟩
  | succ n ih =>
    obtain ⟨s, hreach, huntouched, hmain, hlock, hworker⟩ := ih (by omega)
    have hstep : step s (.run .main) = some { s.set_worker ⟨n, hn⟩ .lock with main := .create (n + 1) } := by
      rw [step, main_step, hmain]
      exact dif_pos hn
    refine ⟨_, .step _ hreach hstep, ⟨huntouched.1, huntouched.2, huntouched.3⟩, rfl, hlock, ?_⟩
    exact forall_update_lt (Q := fun _ (p : worker_t) => p = .lock) (i := ⟨n, hn⟩) hworker rfl rfl

theorem reachable_filled (c : config) {n : Nat} (hn : n ≤ c.tasks) :
    ∃ s, Reachable step (start c) s ∧ Untouched s ∧ s.main = .fill n ∧ ∀ i, s.worker i = .lock := by
  induction n with
  | zero =>
    obtain ⟨s, hreach, huntouched, hmain, hlock, hworker⟩ := reachable_created c (Nat.le_refl c.workers)
    have hsteps : steps step s [.run .main, .run .main] = some { s with lock := some .main, main := .fill 0 } := by
      simp [steps, step, main_step, hmain, hlock]
    exact ⟨_, hreach.steps hsteps, ⟨huntouched.1, huntouched.2, huntouched.3⟩, rfl, fun i => hworker i i.isLt⟩
  | succ n ih =>
    obtain ⟨s, hreach, huntouched, hmain, hworker⟩ := ih (by omega)
    have hstep : step s (.run .main) = some { put s (n + 1) with main := .fill (n + 1) } := by
      rw [step, main_step, hmain]
      exact if_pos hn
    refine ⟨_, .step _ hreach hstep, ⟨?_, huntouched.2, huntouched.3⟩, rfl, hworker⟩
    exact (List.length_set ..).trans huntouched.length_eq

/-- All tasks are in the queue and `main` waits, before any worker has run. -/
theorem reachable_waiting (c : config) :
    ∃ s, Reachable step (start c) s ∧ Untouched s ∧ s.main = .join 0 ∧ s.lock = none ∧ ∀ i, s.worker i = .lock := by
  obtain ⟨s, hreach, huntouched, hmain, hworker⟩ := reachable_filled c (Nat.le_refl c.tasks)
  have hsteps : steps step s [.run .main, .run .main, .run .main] =
      some { broadcast s with lock := none, main := .join 0 } := by
    simp [steps, step, main_step, hmain, broadcast]
  refine ⟨_, hreach.steps hsteps, ⟨huntouched.1, huntouched.2, huntouched.3⟩, rfl, rfl, ?_⟩
  intro i
  show (if s.worker i = .asleep then worker_t.woken else s.worker i) = .lock
  rw [hworker, if_neg (by simp)]

/-- `main` waits, and nobody has the lock. -/
structure Waiting (s : state c) : Prop where
  main_eq : s.main = .join 0
  lock_eq : s.lock = none
  length_eq : s.tasks.length = c.tasks
  front_lt : 0 < c.tasks → s.front < c.tasks

/-- Worker `i` takes a task, and tests the queue afterwards. -/
theorem Waiting.round (h : Waiting s) {i : Fin c.workers} (hi : s.worker i = .lock) (hpos : 0 < c.tasks)
    (hcount : s.count ≠ 0) :
    ∃ s', Reachable step s s' ∧ Waiting s' ∧ s'.count = s.count - 1 ∧
      s'.worker = Function.update s.worker i (if s.count - 1 = 0 then .finished else .lock) := by
  have hget : ∃ num, s.tasks[s.front]? = some num :=
    ⟨_, List.getElem?_eq_getElem (by rw [h.length_eq]; exact h.front_lt hpos)⟩
  obtain ⟨num, hget⟩ := hget
  have hsteps : steps step s (List.replicate 5 (.run (.worker i))) =
      some { take s i num with
        worker := Function.update s.worker i (if s.count - 1 = 0 then .finished else .lock) } := by
    simp [List.replicate, steps, step, worker_step, hi, h.lock_eq, hcount, hget, take, state.set_worker]
  refine ⟨_, Reachable.start.steps hsteps, ⟨h.main_eq, h.lock_eq, h.length_eq, ?_⟩, rfl, rfl⟩
  exact fun _ => Nat.mod_lt _ hpos

/-- Worker `i` takes all tasks. -/
theorem Waiting.rounds (h : Waiting s) {i : Fin c.workers} {n : Nat} (hcount : s.count = n)
    (hi : 0 < n → s.worker i = .lock ∧ 0 < c.tasks) :
    ∃ s', Reachable step s s' ∧ Waiting s' ∧ s'.count = 0 ∧ ∀ j, j ≠ i → s'.worker j = s.worker j := by
  induction n generalizing s with
  | zero => exact ⟨s, .start, h, hcount, fun _ _ => rfl⟩
  | succ n ih =>
    obtain ⟨hi, hpos⟩ := hi (Nat.succ_pos n)
    obtain ⟨s₁, hreach, hwaiting, hcount₁, hworker⟩ := h.round hi hpos (by omega)
    have hnext : 0 < n → s₁.worker i = .lock ∧ 0 < c.tasks := by
      intro hn
      refine ⟨?_, hpos⟩
      rw [hworker, Function.update_self, if_neg (by omega)]
    obtain ⟨s₂, hreach₂, hwaiting₂, hcount₂, hothers⟩ := ih hwaiting (by omega) hnext
    refine ⟨s₂, hreach₂.trans hreach, hwaiting₂, hcount₂, ?_⟩
    intro j hji
    rw [hothers j hji, hworker, Function.update_of_ne hji]

/-- A worker that finds the queue empty sleeps, and nobody wakes it. -/
theorem Waiting.hangs (h : Waiting s) (hreach : Reachable step (start c) s) {j : Fin c.workers}
    (hj : s.worker j = .lock) (hcount : s.count = 0) : ∃ s, Reachable step (start c) s ∧ Hung s := by
  have hsteps : steps step s (List.replicate 2 (.run (.worker j))) = some (s.set_worker j .asleep) := by
    simp [List.replicate, steps, step, worker_step, hj, h.lock_eq, hcount, state.set_worker]
  have htaken := (reachable_inv hreach).count_eq
  rw [h.main_eq, hcount] at htaken
  refine ⟨_, hreach.steps hsteps, ?_, ?_, j, ?_⟩
  · show s.main.has_broadcast = true
    rw [h.main_eq]
    rfl
  · show s.taken.length = c.tasks
    have htaken : 0 + (s.taken.length : Int) = c.tasks := htaken
    omega
  · exact Function.update_self ..

/-- A worker that gets no task hangs. -/
theorem hangs_of_late (c : config) {i j : Fin c.workers} (hij : 0 < c.tasks → j ≠ i) :
    ∃ s : state c, Reachable step (start c) s ∧ Hung s := by
  obtain ⟨s, hreach, huntouched, hmain, hlock, hworker⟩ := reachable_waiting c
  have hcount : s.count = c.tasks := by
    have hinv := (reachable_inv hreach).count_eq
    rw [hmain, huntouched.taken_eq] at hinv
    simpa [main_t.filled] using hinv
  have hwaiting : Waiting s :=
    ⟨hmain, hlock, huntouched.length_eq, fun hpos => by rw [huntouched.front_eq]; exact hpos⟩
  by_cases hpos : 0 < c.tasks
  · obtain ⟨s₁, hreach₁, hwaiting₁, hcount₁, hothers⟩ := hwaiting.rounds hcount fun _ => ⟨hworker i, hpos⟩
    have hj : s₁.worker j = .lock := by rw [hothers j (hij hpos), hworker]
    exact hwaiting₁.hangs (hreach₁.trans hreach) hj hcount₁
  · exact hwaiting.hangs hreach (hworker j) (by omega)

/-- The workers never hang exactly if there is none, or one that gets a task. -/
theorem task_queue_never_hangs_iff (c : config) :
    (∀ s, Reachable step (start c) s → ¬ Hung s) ↔ c.workers = 0 ∨ (c.workers = 1 ∧ 0 < c.tasks) := by
  constructor
  · intro hnever
    by_contra hnot
    have hhangs : ∃ s : state c, Reachable step (start c) s ∧ Hung s := by
      by_cases htwo : 2 ≤ c.workers
      · exact hangs_of_late c (i := ⟨0, by omega⟩) (j := ⟨1, by omega⟩) (by simp)
      · exact hangs_of_late c (i := ⟨0, by omega⟩) (j := ⟨0, by omega⟩) (by omega)
    obtain ⟨s, hreach, hhung⟩ := hhangs
    exact hnever s hreach hhung
  · rintro (hnone | ⟨hone, hpos⟩) s hreach
    · rintro ⟨-, -, i, -⟩
      have hlt := i.isLt
      omega
    · exact not_hung_of_one hone hpos hreach

/-- With the constants of the program, the second worker comes too late. -/
theorem task_queue_hangs : ∃ s : state ⟨3, 10⟩, Reachable step (start ⟨3, 10⟩) s ∧ Hung s :=
  hangs_of_late ⟨3, 10⟩ (i := 0) (j := 1) (by decide)

end csystems.task_queue
