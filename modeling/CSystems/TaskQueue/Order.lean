import Mathlib.Data.List.Range
import CSystems.TaskQueue.Hang

open clib.run

namespace csystems.task_queue

variable {c : config} {s s' : state c}

/-- The workers that `main` has joined. -/
def main_t.joined (c : config) : main_t → Nat
  | .join i => i
  | .finished => c.workers
  | _ => 0

/-- The thread is in its critical section. -/
def holds (s : state c) : thread c → Bool
  | .main => s.main.holds
  | .worker i => (s.worker i).holds

/-- The array holds the numbers from 1 on, and they are taken in this order. -/
structure Queued (s : state c) : Prop where
  length_eq : s.tasks.length = c.tasks
  filled : ∀ j < s.main.filled c, s.tasks[j]? = some (j + 1 : Int)
  rear_eq : s.rear = s.main.filled c % c.tasks
  front_eq : s.front = s.taken.length % c.tasks
  taken_le : s.taken.length ≤ s.main.filled c
  taken_eq : s.taken.map Prod.snd = (List.range s.taken.length).map fun (j : Nat) => (j + 1 : Int)

/-- What a worker may be doing, given how far the others are. -/
structure Fits (s : state c) (i : Fin c.workers) (p : worker_t) : Prop where
  created : p = .absent ↔ ∃ k, s.main = .create k ∧ k ≤ i.val
  joined : i.val < s.main.joined c → p = .finished
  asleep : s.main.has_broadcast = true → p = .asleep → s.count = 0
  finished : p = .finished → s.main.has_broadcast = true ∧ s.count = 0
  took : p.waits = false → s.taken ≠ []

structure Placed (s : state c) : Prop where
  queued : Queued s
  locker : ∀ t, s.lock = some t → holds s t = true
  fits : ∀ i, Fits s i (s.worker i)

section Queue

theorem Queued.congr (h : Queued s) (htasks : s'.tasks = s.tasks) (hfilled : s'.main.filled c = s.main.filled c)
    (hrear : s'.rear = s.rear) (hfront : s'.front = s.front) (htaken : s'.taken = s.taken) : Queued s' := by
  refine ⟨?_, ?_, ?_, ?_, ?_, ?_⟩
  · rw [htasks, h.length_eq]
  · rw [htasks, hfilled]
    exact h.filled
  · rw [hrear, hfilled, h.rear_eq]
  · rw [hfront, htaken, h.front_eq]
  · rw [htaken, hfilled]
    exact h.taken_le
  · rw [htaken, h.taken_eq]

/-- `main` puts the next number behind the others. -/
theorem Queued.put (h : Queued s) {i : Nat} (hmain : s.main = .fill i) (hi : i < c.tasks) :
    Queued { put s (i + 1) with main := .fill (i + 1) } := by
  have hrear : s.rear = i := by
    rw [h.rear_eq, hmain]
    exact Nat.mod_eq_of_lt hi
  have htaken : s.taken.length ≤ i := by
    have hle := h.taken_le
    rw [hmain] at hle
    exact hle
  refine ⟨(List.length_set ..).trans h.length_eq, ?_, ?_, h.front_eq, Nat.le_succ_of_le htaken, h.taken_eq⟩
  · intro j hj
    show (s.tasks.set s.rear (i + 1 : Int))[j]? = some (j + 1 : Int)
    rw [hrear]
    obtain hlt | rfl := Nat.lt_succ_iff_lt_or_eq.mp hj
    · rw [List.getElem?_set_ne (by omega)]
      exact h.filled j (by rw [hmain]; exact hlt)
    · exact List.getElem?_set_self (by rw [h.length_eq]; exact hi)
  · show (s.rear + 1) % c.tasks = (i + 1) % c.tasks
    rw [hrear]

/-- The task in front is the next number. -/
theorem Queued.next (h : Queued s) (hinv : Inv s) (hcount : s.count ≠ 0) :
    s.taken.length < s.main.filled c ∧ s.tasks[s.front]? = some (s.taken.length + 1 : Int) := by
  have hcounted := hinv.count_eq
  have hfilled := hinv.filled_le
  have hle := h.taken_le
  have hlt : s.taken.length < s.main.filled c := by omega
  refine ⟨hlt, ?_⟩
  rw [h.front_eq, Nat.mod_eq_of_lt (by omega)]
  exact h.filled _ hlt

theorem Queued.take (h : Queued s) (hinv : Inv s) (hcount : s.count ≠ 0) (i : Fin c.workers) :
    Queued (take s i (s.taken.length + 1)) := by
  obtain ⟨hlt, -⟩ := h.next hinv hcount
  have hfront : (s.front + 1) % c.tasks = (s.taken.length + 1) % c.tasks := by rw [h.front_eq, Nat.mod_add_mod]
  refine ⟨h.length_eq, h.filled, h.rear_eq, ?_, ?_, ?_⟩
  · show (s.front + 1) % c.tasks = (s.taken ++ [(i, _)]).length % c.tasks
    rw [hfront, List.length_append, List.length_singleton]
  · show (s.taken ++ [(i, _)]).length ≤ s.main.filled c
    rw [List.length_append, List.length_singleton]
    exact hlt
  · show (s.taken ++ [(i, (s.taken.length + 1 : Int))]).map Prod.snd = _
    rw [List.map_append, h.taken_eq, task_queue.take, List.length_append, List.length_singleton, List.range_succ,
      List.map_append]
    rfl

end Queue

section Steps

/-- A worker that stays where it is. -/
theorem Fits.mono {i : Fin c.workers} {p : worker_t} (h : Fits s i p) (hmain : s'.main = s.main)
    (hcount : s.count = 0 → s'.count = 0) (htaken : s.taken ≠ [] → s'.taken ≠ []) : Fits s' i p := by
  refine ⟨?_, ?_, ?_, ?_, fun hp => htaken (h.took hp)⟩
  · rw [hmain]
    exact h.created
  · rw [hmain]
    exact h.joined
  · rw [hmain]
    exact fun hbroadcast hp => hcount (h.asleep hbroadcast hp)
  · rw [hmain]
    exact fun hp => ⟨(h.finished hp).1, hcount (h.finished hp).2⟩

/-- A worker that goes on. -/
theorem Fits.next {i : Fin c.workers} {p : worker_t} (h : Fits s i (s.worker i)) (hi : s.worker i ≠ .finished)
    (hcreated : s.worker i ≠ .absent) (hmain : s'.main = s.main) (hp : p ≠ .absent)
    (hasleep : p = .asleep → s'.count = 0)
    (hfinished : p = .finished → s.main.has_broadcast = true ∧ s'.count = 0) (htook : p.waits = false → s'.taken ≠ []) :
    Fits s' i p := by
  refine ⟨?_, ?_, fun _ => hasleep, ?_, htook⟩
  · rw [hmain]
    exact iff_of_false hp fun hk => hcreated (h.created.mpr hk)
  · rw [hmain]
    exact fun hjoined => absurd (h.joined hjoined) hi
  · rw [hmain]
    exact hfinished

/-- A worker goes on without the queue. -/
theorem Placed.set_worker (h : Placed s) {i : Fin c.workers} {p : worker_t} {lock : Option (thread c)}
    (hi : s.worker i ≠ .finished) (hcreated : s.worker i ≠ .absent)
    (hlock : ∀ t, lock = some t → holds { s.set_worker i p with lock := lock } t = true)
    (hp : p ≠ .absent) (hasleep : p = .asleep → s.count = 0)
    (hfinished : p = .finished → s.main.has_broadcast = true ∧ s.count = 0) (htook : p.waits = false → s.taken ≠ []) :
    Placed { s.set_worker i p with lock := lock } := by
  refine ⟨h.queued.congr rfl rfl rfl rfl rfl, hlock, ?_⟩
  exact forall_update (P := fun j p => Fits { s.set_worker i _ with lock := lock } j p)
    (fun j => (h.fits j).mono rfl id id) ((h.fits i).next hi hcreated rfl hp hasleep hfinished htook)

/-- The lock stays with whoever has it. -/
theorem Placed.locker_of_free (h : Placed s) {i : Fin c.workers} (hi : (s.worker i).holds = false) (p : worker_t) :
    ∀ t, s.lock = some t → holds (s.set_worker i p) t = true := by
  intro t ht
  have hholds := h.locker t ht
  cases t with
  | main => exact hholds
  | worker j =>
    have hji : j ≠ i := by
      rintro rfl
      rw [holds, hi] at hholds
      cases hholds
    show (Function.update s.worker i p j).holds = true
    rw [Function.update_of_ne hji]
    exact hholds

theorem Placed.take (h : Placed s) (hinv : Inv s) {i : Fin c.workers} (hi : s.worker i = .locked)
    (hcount : s.count ≠ 0) :
    Placed (take s i (s.taken.length + 1)) := by
  have hne : (task_queue.take s i (s.taken.length + 1)).taken ≠ [] := List.append_ne_nil_of_right_ne_nil _ (by simp)
  refine ⟨h.queued.take hinv hcount i, ?_, ?_⟩
  · intro t ht
    have hlock : s.lock = some (.worker i) := hinv.lock_worker i (by rw [hi]; rfl)
    obtain rfl : thread.worker i = t := Option.some.inj (hlock.symm.trans ht)
    show (Function.update s.worker i (.took _) i).holds = true
    rw [Function.update_self]
    rfl
  · exact forall_update (P := fun j p => Fits (task_queue.take s i _) j p)
      (fun j => (h.fits j).mono rfl (fun hzero => absurd hzero hcount) fun _ => hne)
      ((h.fits i).next (by rw [hi]; simp) (by rw [hi]; simp) rfl (by simp) (by simp) (by simp) fun _ => hne)

/-- Only a worker that has taken a task tests the queue without the lock. -/
theorem Placed.has_broadcast (h : Placed s) (hinv : Inv s) {i : Fin c.workers} (hi : (s.worker i).waits = false) :
    s.main.has_broadcast = true := by
  by_contra hnot
  exact (h.fits i).took hi (hinv.untouched (by simpa using hnot))

theorem Placed.worker_step (h : Placed s) (hinv : Inv s) {i : Fin c.workers} (hstep : worker_step s i = some s') :
    Placed s' := by
  have hnone (p : worker_t) : ∀ t, none = some t → holds { s.set_worker i p with lock := none } t = true :=
    fun t ht => absurd ht (by simp)
  have hacquire (hi : s.worker i ≠ .finished) (hcreated : s.worker i ≠ .absent) (hstep : (if s.lock = none then
      some { s.set_worker i .locked with lock := some (.worker i) } else none) = some s') : Placed s' := by
    split at hstep
    · obtain rfl := Option.some.inj hstep
      refine h.set_worker hi hcreated (fun t ht => ?_) (by simp) (by simp) (by simp) (by simp [worker_t.waits])
      obtain rfl := Option.some.inj ht
      show (Function.update s.worker i .locked i).holds = true
      rw [Function.update_self]
      rfl
    · cases hstep
  unfold task_queue.worker_step at hstep
  split at hstep
  · cases hstep
  · next hi => exact hacquire (by rw [hi]; simp) (by rw [hi]; simp) hstep
  · next hi => exact hacquire (by rw [hi]; simp) (by rw [hi]; simp) hstep
  · next hi =>
    split at hstep
    · next hcount =>
      obtain rfl := Option.some.inj hstep
      exact h.set_worker (by rw [hi]; simp) (by rw [hi]; simp) (hnone _) (by simp) (fun _ => hcount) (by simp)
        (by simp [worker_t.waits])
    · next hcount =>
      rw [(h.queued.next hinv hcount).2] at hstep
      obtain rfl := Option.some.inj hstep
      exact h.take hinv hi hcount
  · cases hstep
  · next num hi =>
    obtain rfl := Option.some.inj hstep
    have htook := (h.fits i).took (by rw [hi]; rfl)
    exact h.set_worker (by rw [hi]; simp) (by rw [hi]; simp) (hnone _) (by simp) (by simp) (by simp) fun _ => htook
  · next num hi =>
    obtain rfl := Option.some.inj hstep
    have htook := (h.fits i).took (by rw [hi]; rfl)
    exact h.set_worker (by rw [hi]; simp) (by rw [hi]; simp) (h.locker_of_free (by rw [hi]; rfl) _) (by simp) (by simp)
      (by simp) fun _ => htook
  · next hi =>
    obtain rfl := Option.some.inj hstep
    have htook := (h.fits i).took (by rw [hi]; rfl)
    have hbroadcast := h.has_broadcast hinv (i := i) (by rw [hi]; rfl)
    refine h.set_worker (by rw [hi]; simp) (by rw [hi]; simp) (h.locker_of_free (by rw [hi]; rfl) _) ?_ ?_ ?_
      fun _ => htook
    · split <;> simp
    · split <;> simp
    · split
      · next hcount => exact fun _ => ⟨hbroadcast, hcount⟩
      · simp
  · cases hstep

/-- `main` goes on before the broadcast. -/
theorem Fits.before {i : Fin c.workers} {p : worker_t} (h : Fits s i p) (hmain : s.main.has_broadcast = false)
    (hnot : s'.main.has_broadcast = false) (hcreated : p = .absent ↔ ∃ k, s'.main = .create k ∧ k ≤ i.val)
    (hjoined : s'.main.joined c = 0) (htaken : s'.taken = s.taken) : Fits s' i p := by
  refine ⟨hcreated, ?_, ?_, ?_, ?_⟩
  · rw [hjoined]
    exact fun hlt => absurd hlt (Nat.not_lt_zero _)
  · rw [hnot]
    exact fun hbroadcast => absurd hbroadcast (by simp)
  · intro hp
    have hbroadcast := (h.finished hp).1
    rw [hmain] at hbroadcast
    cases hbroadcast
  · rw [htaken]
    exact h.took

/-- `main` goes on after the broadcast. -/
theorem Fits.after {i : Fin c.workers} {p : worker_t} (h : Fits s i p) (hmain : s.main.has_broadcast = true)
    (hbroadcast : s'.main.has_broadcast = true) (hjoined : i.val < s'.main.joined c → p = .finished)
    (hcount : s'.count = s.count) (htaken : s'.taken = s.taken) : Fits s' i p := by
  refine ⟨?_, hjoined, ?_, ?_, ?_⟩
  · refine iff_of_false (fun hp => ?_) fun ⟨k, hk, _⟩ => ?_
    · obtain ⟨k, hk, -⟩ := h.created.mp hp
      rw [hk] at hmain
      cases hmain
    · rw [hk] at hbroadcast
      cases hbroadcast
  · rw [hcount]
    exact fun _ => h.asleep hmain
  · rw [hcount]
    exact fun hp => ⟨hbroadcast, (h.finished hp).2⟩
  · rw [htaken]
    exact h.took

/-- The other steps of `main` before the broadcast leave the workers alone. -/
theorem Placed.before (h : Placed s) (hmain : s.main.has_broadcast = false) (hqueued : Queued s')
    (hlocker : ∀ t, s'.lock = some t → holds s' t = true) (hworker : s'.worker = s.worker)
    (hnot : s'.main.has_broadcast = false) (hjoined : s'.main.joined c = 0) (htaken : s'.taken = s.taken)
    (hcreated : ∀ i : Fin c.workers, (∃ k, s.main = .create k ∧ k ≤ i.val) ↔ ∃ k, s'.main = .create k ∧ k ≤ i.val) :
    Placed s' := by
  refine ⟨hqueued, hlocker, fun i => ?_⟩
  rw [hworker]
  exact (h.fits i).before hmain hnot ((h.fits i).created.trans (hcreated i)) hjoined htaken

/-- The steps of `main` after the broadcast do as well. -/
theorem Placed.after (h : Placed s) (hmain : s.main.has_broadcast = true) (hqueued : Queued s')
    (hlocker : ∀ t, s'.lock = some t → holds s' t = true) (hworker : s'.worker = s.worker)
    (hbroadcast : s'.main.has_broadcast = true)
    (hjoined : ∀ i : Fin c.workers, i.val < s'.main.joined c → s.worker i = .finished)
    (hcount : s'.count = s.count) (htaken : s'.taken = s.taken) : Placed s' := by
  refine ⟨hqueued, hlocker, fun i => ?_⟩
  rw [hworker]
  exact (h.fits i).after hmain hbroadcast (hjoined i) hcount htaken

/-- Whoever has the lock while `main` does not is a worker. -/
theorem Placed.locker_worker (h : Placed s) (hnot : s.main.holds = false) {t : thread c} (ht : s.lock = some t) :
    ∃ i, t = .worker i ∧ (s.worker i).holds = true := by
  have hholds := h.locker t ht
  cases t with
  | main =>
    rw [holds, hnot] at hholds
    cases hholds
  | worker i => exact ⟨i, rfl, hholds⟩

/-- `main` starts a worker. -/
theorem Placed.create (h : Placed s) {k : Nat} (hmain : s.main = .create k) (hk : k < c.workers) :
    Placed { s.set_worker ⟨k, hk⟩ .lock with main := .create (k + 1) } := by
  have habsent : s.worker ⟨k, hk⟩ = .absent := (h.fits ⟨k, hk⟩).created.mpr ⟨k, hmain, Nat.le_refl k⟩
  refine ⟨h.queued.congr rfl (by rw [hmain]; rfl) rfl rfl rfl, ?_, ?_⟩
  · intro t ht
    obtain ⟨i, rfl, hi⟩ := h.locker_worker (by rw [hmain]; rfl) ht
    have hne : i ≠ ⟨k, hk⟩ := by
      rintro rfl
      rw [habsent] at hi
      cases hi
    show (Function.update s.worker ⟨k, hk⟩ .lock i).holds = true
    rw [Function.update_of_ne hne]
    exact hi
  · refine forall_update_of_ne (P := fun j p => Fits { s.set_worker ⟨k, hk⟩ .lock with main := .create (k + 1) } j p)
      ?_ fun j hj => ?_
    · refine ⟨by simp, by simp [main_t.joined], by simp, by simp, by simp [worker_t.waits]⟩
    · refine (h.fits j).before (by rw [hmain]; rfl) rfl ((h.fits j).created.trans ?_) rfl rfl
      have hval : j.val ≠ k := fun heq => hj (Fin.ext heq)
      rw [hmain]
      simp only [main_t.create.injEq, exists_eq_left']
      omega

/-- The broadcast wakes every worker that sleeps. -/
theorem Placed.broadcast (h : Placed s) (hmain : s.main = .broadcast) (hlock : s.lock = some .main) :
    Placed { broadcast s with main := .unlock } := by
  refine ⟨h.queued.congr rfl (by rw [hmain]; rfl) rfl rfl rfl, ?_, fun i => ?_⟩
  · intro t ht
    obtain rfl : thread.main = t := Option.some.inj (hlock.symm.trans ht)
    rfl
  · have hcreated : s.worker i ≠ .absent := by
      rw [Ne, (h.fits i).created, hmain]
      simp
    have hfinished : s.worker i ≠ .finished := by
      intro hi
      have hbroadcast := ((h.fits i).finished hi).1
      rw [hmain] at hbroadcast
      cases hbroadcast
    have htook := (h.fits i).took
    show Fits _ i (if s.worker i = .asleep then .woken else s.worker i)
    by_cases hi : s.worker i = .asleep
    · rw [if_pos hi]
      exact ⟨by simp, by simp [main_t.joined], by simp, by simp, by simp [worker_t.waits]⟩
    · rw [if_neg hi]
      exact ⟨by simp [hcreated], by simp [main_t.joined], fun _ hasleep => absurd hasleep hi,
        fun hi => absurd hi hfinished, htook⟩

theorem Placed.main_step (h : Placed s) (hinv : Inv s) (hstep : main_step s = some s') : Placed s' := by
  unfold task_queue.main_step at hstep
  split at hstep
  · next k hmain =>
    split at hstep
    · next hk =>
      obtain rfl := Option.some.inj hstep
      exact h.create hmain hk
    · next hk =>
      obtain rfl := Option.some.inj hstep
      refine h.before (by rw [hmain]; rfl) (h.queued.congr rfl (by rw [hmain]; rfl) rfl rfl rfl) ?_ rfl rfl rfl rfl ?_
      · intro t ht
        obtain ⟨i, rfl, hi⟩ := h.locker_worker (by rw [hmain]; rfl) ht
        exact hi
      · intro i
        have hi := i.isLt
        rw [hmain]
        simp only [main_t.create.injEq, exists_eq_left', reduceCtorEq, false_and, exists_false, iff_false]
        omega
  · next hmain =>
    split at hstep
    · obtain rfl := Option.some.inj hstep
      refine h.before (by rw [hmain]; rfl) (h.queued.congr rfl (by rw [hmain]; rfl) rfl rfl rfl) ?_ rfl rfl rfl rfl
        (by simp [hmain])
      intro t ht
      obtain rfl := Option.some.inj ht
      rfl
    · cases hstep
  · next i hmain =>
    have hlock := hinv.lock_main (by rw [hmain]; rfl)
    split at hstep
    · next hi =>
      obtain rfl := Option.some.inj hstep
      refine h.before (by rw [hmain]; rfl) (h.queued.put hmain hi) ?_ rfl rfl rfl rfl (by simp [hmain])
      intro t ht
      obtain rfl : thread.main = t := Option.some.inj (hlock.symm.trans ht)
      rfl
    · next hi =>
      obtain rfl := Option.some.inj hstep
      have hle := hinv.filled_le
      rw [hmain] at hle
      have hfilled : c.tasks = i := Nat.le_antisymm (Nat.le_of_not_lt hi) hle
      refine h.before (by rw [hmain]; rfl)
        (h.queued.congr rfl (by rw [hmain]; exact hfilled) rfl rfl rfl) ?_ rfl rfl rfl rfl
        (by simp [hmain])
      intro t ht
      obtain rfl : thread.main = t := Option.some.inj (hlock.symm.trans ht)
      rfl
  · next hmain =>
    obtain rfl := Option.some.inj hstep
    exact h.broadcast hmain (hinv.lock_main (by rw [hmain]; rfl))
  · next hmain =>
    obtain rfl := Option.some.inj hstep
    exact h.after (by rw [hmain]; rfl) (h.queued.congr rfl (by rw [hmain]; rfl) rfl rfl rfl)
      (fun t ht => absurd ht (by simp))
      rfl rfl (by simp [main_t.joined]) rfl rfl
  · next k hmain =>
    have hlocker (main' : main_t) : ∀ t, s.lock = some t → holds { s with main := main' } t = true := by
      intro t ht
      obtain ⟨i, rfl, hi⟩ := h.locker_worker (by rw [hmain]; rfl) ht
      exact hi
    have hjoined (i : Fin c.workers) (hi : i.val < k) : s.worker i = .finished :=
      (h.fits i).joined (by rw [hmain]; exact hi)
    split at hstep
    · next hk =>
      split at hstep
      · next hfinished =>
        obtain rfl := Option.some.inj hstep
        refine h.after (by rw [hmain]; rfl) (h.queued.congr rfl (by rw [hmain]; rfl) rfl rfl rfl)
          (hlocker _) rfl rfl ?_ rfl rfl
        intro i hi
        obtain hlt | heq := Nat.lt_succ_iff_lt_or_eq.mp hi
        · exact hjoined i hlt
        · obtain rfl : i = ⟨k, hk⟩ := Fin.ext heq
          exact hfinished
      · cases hstep
    · next hk =>
      obtain rfl := Option.some.inj hstep
      exact h.after (by rw [hmain]; rfl) (h.queued.congr rfl (by rw [hmain]; rfl) rfl rfl rfl) (hlocker _) rfl rfl
        (fun i hi => hjoined i (by have hlt := i.isLt; omega)) rfl rfl
  · cases hstep

theorem Placed.step (h : Placed s) (hinv : Inv s) {a : action_t c} (hstep : step s a = some s') : Placed s' := by
  unfold task_queue.step at hstep
  split at hstep
  · exact h.main_step hinv hstep
  · exact h.worker_step hinv hstep
  · next i =>
    split at hstep
    · next hi =>
      obtain rfl := Option.some.inj hstep
      exact h.set_worker (by rw [hi]; simp) (by rw [hi]; simp) (h.locker_of_free (by rw [hi]; rfl) _) (by simp)
        (by simp)
        (by simp) (by simp [worker_t.waits])
    · cases hstep

theorem placed_start (c : config) : Placed (start c) := by
  refine ⟨⟨List.length_replicate .., fun j hj => absurd hj (Nat.not_lt_zero j), ?_, ?_, Nat.le_refl 0, rfl⟩, ?_,
    fun i => ?_⟩
  · exact (Nat.zero_mod c.tasks).symm
  · exact (Nat.zero_mod c.tasks).symm
  · exact fun t ht => absurd ht (by simp [start])
  · exact ⟨by simp [start], by simp [start, main_t.joined], by simp [start, main_t.has_broadcast], by simp [start],
      by simp [start, worker_t.waits]⟩

end Steps

section Blocked

/-- What keeps a worker from running. -/
theorem Placed.worker_blocked (h : Placed s) (hinv : Inv s) {i : Fin c.workers}
    (hnone : task_queue.worker_step s i = none) :
    (s.worker i = .absent ∨ s.worker i = .asleep ∨ s.worker i = .finished) ∨
      s.lock ≠ none ∧ (s.worker i).holds = false := by
  cases hi : s.worker i with
  | absent => exact Or.inl (Or.inl rfl)
  | asleep => exact Or.inl (Or.inr (Or.inl rfl))
  | finished => exact Or.inl (Or.inr (Or.inr rfl))
  | lock | woken =>
    refine Or.inr ⟨fun hlock => ?_, rfl⟩
    simp [task_queue.worker_step, hi, hlock] at hnone
  | locked =>
    by_cases hcount : s.count = 0
    · simp [task_queue.worker_step, hi, hcount] at hnone
    · simp [task_queue.worker_step, hi, hcount, (h.queued.next hinv hcount).2] at hnone
  | took num | processing num | testing => simp [task_queue.worker_step, hi] at hnone

/-- What keeps `main` from running. -/
theorem main_blocked (hnone : main_step s = none) :
    (s.main = .lock ∧ s.lock ≠ none) ∨ s.main = .finished ∨
      ∃ k, ∃ hk : k < c.workers, s.main = .join k ∧ s.worker ⟨k, hk⟩ ≠ .finished := by
  cases hmain : s.main with
  | lock =>
    refine Or.inl ⟨rfl, fun hlock => ?_⟩
    simp [main_step, hmain, hlock] at hnone
  | finished => exact Or.inr (Or.inl rfl)
  | join k =>
    by_cases hk : k < c.workers
    · refine Or.inr (Or.inr ⟨k, hk, rfl, fun hfinished => ?_⟩)
      simp [main_step, hmain, hk, hfinished] at hnone
    · simp [main_step, hmain, hk] at hnone
  | create k => by_cases hk : k < c.workers <;> simp [main_step, hmain, hk] at hnone
  | fill k => by_cases hk : k < c.tasks <;> simp [main_step, hmain, hk] at hnone
  | broadcast | unlock => simp [main_step, hmain] at hnone

/-- The thread that has the lock can run. -/
theorem Placed.lock_free (h : Placed s) (hinv : Inv s) (hstuck : ∀ t, task_queue.step s (.run t) = none) :
    s.lock = none := by
  by_contra hlock
  obtain ⟨t, ht⟩ := Option.ne_none_iff_exists'.mp hlock
  have hholds := h.locker t ht
  cases t with
  | main =>
    obtain ⟨hmain, -⟩ | hmain | ⟨k, hk, hmain, -⟩ := main_blocked (hstuck .main)
    all_goals
      rw [holds, hmain] at hholds
      cases hholds
  | worker i =>
    obtain (hi | hi | hi) | ⟨-, hi⟩ := h.worker_blocked hinv (hstuck (.worker i))
    all_goals
      rw [holds, hi] at hholds
      cases hholds

end Blocked

/-- In every run the workers take the numbers 1, 2, 3, ... in this order, each once.
Where no thread can run any more, the workers, if there are any, have taken all of
them: each has finished or sleeps for good, and `main` has finished if none sleeps. -/
theorem tasks_taken_in_order (h : Reachable step (start c) s) :
    s.taken.map Prod.snd = ((List.range s.taken.length).map fun (j : Nat) => (j + 1 : Int)) ∧ s.taken.length ≤ c.tasks ∧
      ((∀ t, step s (.run t) = none) → (∀ i, s.worker i = .finished ∨ s.worker i = .asleep) ∧
        (0 < c.workers → s.taken.length = c.tasks) ∧ (s.main = .finished ↔ ∀ i, s.worker i = .finished)) := by
  have hinv : Inv s := reachable_inv h
  have hplaced : Placed s := by
    have hboth : Inv s ∧ Placed s :=
      h.invariant (P := fun s => Inv s ∧ Placed s) ⟨inv_start c, placed_start c⟩
        fun _ _ _ hs hstep => ⟨hs.1.step hstep, hs.2.step hs.1 hstep⟩
    exact hboth.2
  refine ⟨hplaced.queued.taken_eq, hplaced.queued.taken_le.trans hinv.filled_le, fun hstuck => ?_⟩
  have hfree := hplaced.lock_free hinv hstuck
  have hmain : s.main = .finished ∨ ∃ k, ∃ hk : k < c.workers, s.main = .join k ∧ s.worker ⟨k, hk⟩ ≠ .finished :=
    (main_blocked (hstuck .main)).resolve_left fun hlock => hlock.2 hfree
  have hbroadcast : s.main.has_broadcast = true := by
    obtain hmain | ⟨k, hk, hmain, -⟩ := hmain <;> rw [hmain] <;> rfl
  have hworker (i : Fin c.workers) : s.worker i = .finished ∨ s.worker i = .asleep := by
    obtain (hi | hi | hi) | ⟨hlock, -⟩ := hplaced.worker_blocked hinv (hstuck (.worker i))
    · obtain ⟨k, hk, -⟩ := (hplaced.fits i).created.mp hi
      rw [hk] at hbroadcast
      cases hbroadcast
    · exact Or.inr hi
    · exact Or.inl hi
    · exact absurd hfree hlock
  refine ⟨hworker, fun hpos => ?_, fun hfinished i => ?_, fun hall => ?_⟩
  · have hcount : s.count = 0 := by
      obtain hi | hi := hworker ⟨0, hpos⟩
      · exact ((hplaced.fits _).finished hi).2
      · exact (hplaced.fits _).asleep hbroadcast hi
    have hcounted := hinv.count_eq
    rw [filled_of_broadcast hbroadcast, hcount] at hcounted
    omega
  · exact (hplaced.fits i).joined (by rw [hfinished]; exact i.isLt)
  · obtain hmain | ⟨k, hk, -, hnot⟩ := hmain
    · exact hmain
    · exact absurd (hall ⟨k, hk⟩) hnot

/-- Each worker takes a task. The first finds one left when it tests `queue.count`, comes
back when there is none, and sleeps for good. -/
def two_workers (c : config) (i j : Fin c.workers) : List (action_t c) :=
  List.replicate 9 (.run .main) ++ List.replicate 5 (.run (.worker i)) ++ List.replicate 5 (.run (.worker j)) ++
    List.replicate 2 (.run (.worker i))

theorem tasks_taken_in_order_two : ∃ s, steps step (start ⟨2, 2⟩) (two_workers ⟨2, 2⟩ 0 1) = some s ∧
    (∀ t, step s (.run t) = none) ∧ s.taken.map Prod.snd = [1, 2] ∧ s.taken.length = 2 ∧ s.main ≠ .finished := by
  obtain ⟨s, hsteps, hmain, hfirst, hsecond⟩ : ∃ s, steps step (start ⟨2, 2⟩) (two_workers ⟨2, 2⟩ 0 1) = some s ∧
      s.main = .join 0 ∧ s.worker 0 = .asleep ∧ s.worker 1 = .finished := ⟨_, rfl, rfl, rfl, rfl⟩
  have hstuck (t : thread ⟨2, 2⟩) : step s (.run t) = none := by
    cases t with
    | main => simp [step, main_step, hmain, hfirst]
    | worker i =>
      obtain rfl | rfl : i = 0 ∨ i = 1 := by
        revert i
        decide
      · simp [step, worker_step, hfirst]
      · simp [step, worker_step, hsecond]
  obtain ⟨horder, -, hend⟩ := tasks_taken_in_order (Reachable.start.steps hsteps)
  obtain ⟨-, hall, hfinished⟩ := hend hstuck
  have hlength : s.taken.length = 2 := hall (by decide)
  refine ⟨s, hsteps, hstuck, ?_, hlength, fun h => ?_⟩
  · rw [horder, hlength]
    rfl
  · have hfirst' := hfinished.mp h 0
    rw [hfirst] at hfirst'
    cases hfirst'

end csystems.task_queue
