import CSystems.RequestQueue.Shutdown

open clib.bounded_buffer clib.run clib.ring

namespace csystems.request_queue

variable {c : config} {s s' : state c}

instance instFintypeThread : Fintype (thread c) :=
  Fintype.ofEquiv (Unit ⊕ Fin c.clients ⊕ Fin c.workers)
    { toFun := fun
        | .inl _ => .main
        | .inr (.inl i) => .client i
        | .inr (.inr i) => .worker i
      invFun := fun
        | .main => .inl ()
        | .client i => .inr (.inl i)
        | .worker i => .inr (.inr i)
      left_inv := fun
        | .inl _ => rfl
        | .inr (.inl _) => rfl
        | .inr (.inr _) => rfl
      right_inv := fun
        | .main => rfl
        | .client _ => rfl
        | .worker _ => rfl }

/-! How far each thread is in `enqueue` or `dequeue`. -/

def main_t.activity : main_t → Option (op × stage)
  | .sending _ at_ => some (.put, at_)
  | _ => none

def client_t.activity : client_t → Option (op × stage)
  | .enqueuing _ _ at_ => some (.put, at_)
  | _ => none

def worker_t.activity : worker_t → Option (op × stage)
  | .lock => some (.get, .lock)
  | .locked => some (.get, .locked)
  | .asleep => some (.get, .asleep)
  | .woken => some (.get, .woken)
  | .took _ => some (.get, .acted)
  | .signalled _ => some (.get, .signalled)
  | _ => none

def activity (s : state c) : thread c → Option (op × stage)
  | .main => s.main.activity
  | .client i => (s.client i).activity
  | .worker i => (s.worker i).activity

/-- The operation a thread performs on the queue. -/
def thread.op : thread c → op
  | .worker _ => .get
  | _ => .put

section Activities

variable (s : state c)

theorem activity_set_main (m : main_t) :
    activity { s with main := m } = Function.update (activity s) .main m.activity := by
  funext u
  cases u with
  | main => rw [Function.update_self]; rfl
  | _ => rw [Function.update_of_ne (by simp)]; rfl

theorem activity_set_client (i : Fin c.clients) (p : client_t) :
    activity (s.set_client i p) = Function.update (activity s) (.client i) p.activity := by
  funext u
  by_cases hu : u = .client i
  · subst hu
    simp [activity, state.set_client]
  · rw [Function.update_of_ne hu]
    cases u with
    | client j =>
      have hji : j ≠ i := fun heq => hu (by rw [heq])
      simp [activity, state.set_client, Function.update_of_ne hji]
    | _ => rfl

theorem activity_set_worker (i : Fin c.workers) (p : worker_t) :
    activity (s.set_worker i p) = Function.update (activity s) (.worker i) p.activity := by
  funext u
  by_cases hu : u = .worker i
  · subst hu
    simp [activity, state.set_worker]
  · rw [Function.update_of_ne hu]
    cases u with
    | worker j =>
      have hji : j ≠ i := fun heq => hu (by rw [heq])
      simp [activity, state.set_worker, Function.update_of_ne hji]
    | _ => rfl

end Activities

/-- A step on the queue, or one that does not concern it. -/
def Moves (s s' : state c) : Prop :=
  Step QUEUE_SIZE (activity s) s.q_count (activity s') s'.q_count ∨
    (activity s' = activity s ∧ s'.q_count = s.q_count)

theorem wake_up_activity {t : thread c} (h : s.wake_up t = some s') :
    activity s t = some (t.op, .asleep) ∧ activity s' = Function.update (activity s) t (some (t.op, .woken)) ∧
      s'.q_count = s.q_count := by
  cases t with
  | main =>
    simp only [state.wake_up] at h
    split at h
    · next i hmain =>
      obtain rfl := Option.some.inj h
      exact ⟨by rw [activity, hmain]; rfl, activity_set_main s _, rfl⟩
    · cases h
  | client i =>
    simp only [state.wake_up] at h
    split at h
    · next k id hclient =>
      obtain rfl := Option.some.inj h
      exact ⟨by rw [activity, hclient]; rfl, activity_set_client s i _, rfl⟩
    · cases h
  | worker i =>
    simp only [state.wake_up] at h
    split at h
    · next hworker =>
      obtain rfl := Option.some.inj h
      exact ⟨by rw [activity, hworker]; rfl, activity_set_worker s i _, rfl⟩
    · cases h

section Signals

variable {t : thread c} {wake : Option (thread c)}

/-- The signal of a thread that has put a request into the queue. -/
theorem signal_not_empty_step (ht : activity s t = some (.put, .acted)) {s₁ : state c}
    (h : signal_not_empty s wake = some s₁) :
    Step QUEUE_SIZE (activity s) s.q_count (Function.update (activity s₁) t (some (.put, .signalled))) s₁.q_count := by
  obtain ⟨i, hwake⟩ | ⟨hnone, rfl⟩ := signal_not_empty_cases h
  · obtain ⟨hasleep, hactivity, hcount⟩ := wake_up_activity hwake
    rw [hactivity, hcount]
    exact .signal t (.worker i) .put ht hasleep
  · refine .silent t .put ht fun u hu => ?_
    cases u with
    | main =>
      cases hmain : s₁.main <;> simp [activity, hmain, main_t.activity, op.dual] at hu
    | client i =>
      cases hclient : s₁.client i <;> simp [activity, hclient, client_t.activity, op.dual] at hu
    | worker i =>
      have hne := hnone i
      cases hworker : s₁.worker i <;> simp [activity, hworker, worker_t.activity, op.dual] at hu hne

/-- The signal of a worker that has taken a request. -/
theorem signal_not_full_step (ht : activity s t = some (.get, .acted)) {s₁ : state c}
    (h : signal_not_full s wake = some s₁) :
    Step QUEUE_SIZE (activity s) s.q_count (Function.update (activity s₁) t (some (.get, .signalled))) s₁.q_count := by
  obtain ⟨u, hu, hwake⟩ | ⟨hmain, hclient, rfl⟩ := signal_not_full_cases h
  · obtain ⟨hasleep, hactivity, hcount⟩ := wake_up_activity hwake
    have hop : u.op = .put := by
      cases u with
      | worker i => exact absurd rfl (hu i)
      | _ => rfl
    rw [hop] at hasleep hactivity
    rw [hactivity, hcount]
    exact .signal t u .get ht hasleep
  · refine .silent t .get ht fun u hu => ?_
    cases u with
    | main =>
      cases hm : s₁.main with
      | sending i at_ =>
        cases at_ <;> simp [activity, hm, main_t.activity, op.dual, main_t.asleep] at hu hmain
      | _ => simp [activity, hm, main_t.activity] at hu
    | client i =>
      have hne := hclient i
      cases hc : s₁.client i with
      | enqueuing k id at_ =>
        cases at_ <;> simp [activity, hc, client_t.activity, op.dual, client_t.asleep] at hu hne
      | _ => simp [activity, hc, client_t.activity] at hu
    | worker i =>
      cases hworker : s₁.worker i <;> simp [activity, hworker, worker_t.activity, op.dual] at hu

/-- A step of a thread in `enqueue` is a step on the queue. -/
theorem enqueue_step {request : request_t} {at_ : stage} {next : Option stage} {s₁ : state c}
    (ht : activity s t = some (.put, at_)) (h : enqueue s t request wake at_ = some (s₁, next)) :
    Step QUEUE_SIZE (activity s) s.q_count (Function.update (activity s₁) t (next.map (Prod.mk .put))) s₁.q_count := by
  cases at_ with
  | lock =>
    simp only [enqueue] at h
    split at h
    · obtain ⟨rfl, rfl⟩ := Prod.mk.inj (Option.some.inj h)
      exact .acquire t .put (Or.inl ht)
    · cases h
  | woken =>
    simp only [enqueue] at h
    split at h
    · obtain ⟨rfl, rfl⟩ := Prod.mk.inj (Option.some.inj h)
      exact .acquire t .put (Or.inr ht)
    · cases h
  | locked =>
    simp only [enqueue] at h
    split at h
    · next hfull =>
      obtain ⟨rfl, rfl⟩ := Prod.mk.inj (Option.some.inj h)
      exact .sleep t .put ht (by rw [op.available, hfull]; omega)
    · obtain ⟨rfl, rfl⟩ := Prod.mk.inj (Option.some.inj h)
      exact .act t .put ht
  | asleep => cases h
  | acted =>
    obtain ⟨s₂, hsignal, heq⟩ := Option.map_eq_some_iff.mp h
    obtain ⟨rfl, rfl⟩ := Prod.mk.inj heq
    exact signal_not_empty_step ht hsignal
  | signalled =>
    obtain ⟨rfl, rfl⟩ := Prod.mk.inj (Option.some.inj h)
    exact .leave t .put ht

end Signals

section Steps

variable {wake : Option (thread c)}

theorem activity_eq_of_main {m : main_t} (h : m.activity = s.main.activity) :
    activity { s with main := m } = activity s := by
  rw [activity_set_main, h]
  exact Function.update_eq_self thread.main (activity s)

theorem activity_eq_of_client {i : Fin c.clients} {p : client_t} (h : p.activity = (s.client i).activity) :
    activity (s.set_client i p) = activity s := by
  rw [activity_set_client, h]
  exact Function.update_eq_self (thread.client i) (activity s)

theorem activity_eq_of_worker {i : Fin c.workers} {p : worker_t} (h : p.activity = (s.worker i).activity) :
    activity (s.set_worker i p) = activity s := by
  rw [activity_set_worker, h]
  exact Function.update_eq_self (thread.worker i) (activity s)

theorem moves_client {i : Fin c.clients} {p : client_t} (hs' : activity s' = activity (s.set_client i p))
    (h : Step QUEUE_SIZE (activity s) s.q_count (Function.update (activity s) (.client i) p.activity) s'.q_count) :
    Moves s s' := by
  refine Or.inl ?_
  rw [hs', activity_set_client]
  exact h

theorem moves_worker {i : Fin c.workers} {p : worker_t} (hs' : activity s' = activity (s.set_worker i p))
    (h : Step QUEUE_SIZE (activity s) s.q_count (Function.update (activity s) (.worker i) p.activity) s'.q_count) :
    Moves s s' := by
  refine Or.inl ?_
  rw [hs', activity_set_worker]
  exact h

theorem view_status_absent {p : worker_t} (h : p.view.status = .absent) : p.activity = none := by
  cases p with
  | took req | signalled req | received req =>
    rw [worker_t.view, holding_status] at h
    cases h
  | absent => rfl
  | _ => cases h

theorem client_status_absent {p : client_t} (h : (p.view c).status = .absent) : p.activity = none := by
  cases p with
  | enqueuing k id at_ =>
    rw [client_t.view] at h
    split at h <;> cases h
  | _ => rfl

theorem main_step_moves (hordered : Ordered s.view) (h : main_step s wake = some s') : Moves s s' := by
  unfold main_step at h
  split at h
  · next i hmain =>
    split at h
    · next hi =>
      obtain rfl := Option.some.inj h
      have habsent : s.view.worker ⟨i, hi⟩ = ⟨.absent, 0, []⟩ :=
        hordered.worker_absent ⟨i, hi⟩ (by rw [view_main hmain]; exact Nat.le_refl i)
      have hnone : activity s (.worker ⟨i, hi⟩) = none := view_status_absent (by rw [← view_worker rfl, habsent])
      refine Or.inl ?_
      rw [activity_eq_of_main (s := s.set_worker ⟨i, hi⟩ .lock) (by rw [state.set_worker, hmain]; rfl),
        activity_set_worker]
      exact .enter _ .get hnone
    · obtain rfl := Option.some.inj h
      exact Or.inr ⟨activity_eq_of_main (by rw [hmain]; rfl), rfl⟩
  · next i hmain =>
    split at h
    · next hi =>
      obtain rfl := Option.some.inj h
      have habsent : s.view.client ⟨i, hi⟩ = ⟨.absent, 0, 0, none⟩ :=
        hordered.client_absent ⟨i, hi⟩ (by rw [view_main hmain]; exact Nat.le_refl i)
      have hnone : (s.client ⟨i, hi⟩).activity = none := client_status_absent (by rw [← view_client rfl, habsent])
      refine Or.inr ⟨?_, rfl⟩
      rw [activity_eq_of_main (s := s.set_client ⟨i, hi⟩ (.loop 0)) (by rw [state.set_client, hmain]; rfl)]
      exact activity_eq_of_client (by rw [hnone]; rfl)
    · obtain rfl := Option.some.inj h
      exact Or.inr ⟨activity_eq_of_main (by rw [hmain]; rfl), rfl⟩
  · next i hmain =>
    split at h
    · split at h
      · obtain rfl := Option.some.inj h
        exact Or.inr ⟨activity_eq_of_main (by rw [hmain]; rfl), rfl⟩
      · cases h
    · obtain rfl := Option.some.inj h
      exact Or.inr ⟨activity_eq_of_main (by rw [hmain]; rfl), rfl⟩
  · next i hmain =>
    obtain rfl := Option.some.inj h
    split
    · have hnone : activity s .main = none := congrArg main_t.activity hmain
      refine Or.inl ?_
      rw [activity_set_main s (.sending i .lock)]
      exact .enter _ .put hnone
    · exact Or.inr ⟨activity_eq_of_main (by rw [hmain]; rfl), rfl⟩
  · next i at_ hmain =>
    obtain ⟨⟨s₁, next⟩, henqueue, rfl⟩ := Option.map_eq_some_iff.mp h
    have hstep := enqueue_step (by rw [activity, hmain]; rfl) henqueue
    refine Or.inl ?_
    dsimp only
    rw [activity_set_main s₁]
    cases next with
    | none => exact hstep
    | some at_ => exact hstep
  · next i hmain =>
    split at h
    · split at h
      · obtain rfl := Option.some.inj h
        exact Or.inr ⟨activity_eq_of_main (by rw [hmain]; rfl), rfl⟩
      · cases h
    · obtain rfl := Option.some.inj h
      exact Or.inr ⟨activity_eq_of_main (by rw [hmain]; rfl), rfl⟩
  · cases h

theorem client_step_moves {i : Fin c.clients} (h : client_step s i wake = some s') : Moves s s' := by
  unfold client_step at h
  split at h
  · cases h
  · next k hclient =>
    split at h
    · split at h
      · obtain rfl := Option.some.inj h
        have hsame : activity (s.set_client i (.taking_id k)) = activity s :=
          activity_eq_of_client (by rw [hclient]; rfl)
        exact Or.inr ⟨hsame, rfl⟩
      · cases h
    · obtain rfl := Option.some.inj h
      exact Or.inr ⟨activity_eq_of_client (by rw [hclient]; rfl), rfl⟩
  · next k hclient =>
    obtain rfl := Option.some.inj h
    have hsame : activity (s.set_client i (.took_id k s.next_request_id)) = activity s :=
      activity_eq_of_client (by rw [hclient]; rfl)
    exact Or.inr ⟨hsame, rfl⟩
  · next k id hclient =>
    obtain rfl := Option.some.inj h
    have hnone : activity s (.client i) = none := congrArg client_t.activity hclient
    exact moves_client (i := i) (p := .enqueuing k id .lock) rfl (.enter _ .put hnone)
  · next k id at_ hclient =>
    obtain ⟨⟨s₁, next⟩, henqueue, rfl⟩ := Option.map_eq_some_iff.mp h
    have hstep := enqueue_step (by rw [activity, hclient]; rfl) henqueue
    refine Or.inl ?_
    rw [activity_set_client]
    cases next with
    | none => exact hstep
    | some at_ => exact hstep
  · cases h

theorem worker_step_moves {i : Fin c.workers} (h : worker_step s i wake = some s') : Moves s s' := by
  unfold worker_step at h
  split at h
  · cases h
  · next hworker =>
    have hact : activity s (.worker i) = some (.get, .lock) := congrArg worker_t.activity hworker
    split at h
    · obtain rfl := Option.some.inj h
      exact moves_worker (i := i) (p := .locked) rfl (.acquire _ .get (Or.inl hact))
    · cases h
  · next hworker =>
    have hact : activity s (.worker i) = some (.get, .woken) := congrArg worker_t.activity hworker
    split at h
    · obtain rfl := Option.some.inj h
      exact moves_worker (i := i) (p := .locked) rfl (.acquire _ .get (Or.inr hact))
    · cases h
  · next hworker =>
    have hact : activity s (.worker i) = some (.get, .locked) := congrArg worker_t.activity hworker
    split at h
    · next hempty =>
      obtain rfl := Option.some.inj h
      exact moves_worker (i := i) (p := .asleep) rfl (.sleep _ .get hact hempty)
    · obtain ⟨req, hget, heq⟩ := Option.bind_eq_some_iff.mp h
      obtain rfl := Option.some.inj heq
      exact moves_worker (i := i) (p := .took req) rfl (.act _ .get hact)
  · cases h
  · next req hworker =>
    obtain ⟨s₁, hsignal, rfl⟩ := Option.map_eq_some_iff.mp h
    have hact : activity s (.worker i) = some (.get, .acted) := congrArg worker_t.activity hworker
    refine Or.inl ?_
    rw [activity_set_worker]
    exact signal_not_full_step hact hsignal
  · next req hworker =>
    have hact : activity s (.worker i) = some (.get, .signalled) := congrArg worker_t.activity hworker
    obtain rfl := Option.some.inj h
    exact moves_worker (i := i) (p := .received req) rfl (.leave _ .get hact)
  · next req hworker =>
    have hact : activity s (.worker i) = none := congrArg worker_t.activity hworker
    split at h
    · obtain rfl := Option.some.inj h
      exact Or.inr ⟨activity_eq_of_worker (by rw [hworker]; rfl), rfl⟩
    · obtain rfl := Option.some.inj h
      exact moves_worker (i := i) (p := .lock) rfl (.enter _ .get hact)
  · cases h

theorem step_moves {a : action_t c} (hordered : Ordered s.view) (h : step s a = some s') : Moves s s' := by
  unfold step at h
  split at h
  · exact main_step_moves hordered h
  · exact client_step_moves h
  · exact worker_step_moves h
  · next t =>
    obtain ⟨hasleep, hactivity, hcount⟩ := wake_up_activity h
    refine Or.inl ?_
    rw [hactivity, hcount]
    exact .wake t t.op hasleep

end Steps

theorem no_lost_wakeup_start (c : config) : NoLostWakeup QUEUE_SIZE (activity (start c)) (start c).q_count := by
  intro o hasleep
  obtain ⟨t, ht⟩ := hasleep
  cases t <;> cases ht

theorem no_lost_wakeup_step {a : action_t c} (h : NoLostWakeup QUEUE_SIZE (activity s) s.q_count)
    (hordered : Ordered s.view) (hstep : step s a = some s') : NoLostWakeup QUEUE_SIZE (activity s') s'.q_count := by
  obtain hmoves | ⟨hsame, hcount⟩ := step_moves hordered hstep
  · exact h.step hmoves
  · rw [hsame, hcount]
    exact h

theorem reachable_no_lost_wakeup (hfits : c.clients * c.requests < INT_MAX) (h : Reachable step (start c) s) :
    NoLostWakeup QUEUE_SIZE (activity s) s.q_count := by
  induction h with
  | start => exact no_lost_wakeup_start c
  | step a hreach hstep ih => exact no_lost_wakeup_step ih (reachable_inv hfits hreach).ordered hstep

/-- The thread is created and has not finished. -/
def state.unfinished (s : state c) : thread c → Prop
  | .main => s.main ≠ .finished
  | .client i => s.client i ≠ .absent ∧ s.client i ≠ .finished
  | .worker i => s.worker i ≠ .absent ∧ s.worker i ≠ .finished

/-- The thread sleeps on a condition variable. -/
def state.asleep (s : state c) : thread c → Prop
  | .main => s.main.asleep = true
  | .client i => (s.client i).asleep = true
  | .worker i => s.worker i = .asleep

/-- The thread is in `pthread_join` and the other one has not finished. -/
def state.joining (s : state c) : thread c → Prop
  | .main =>
    match s.main with
    | .join_clients i => ∃ hi : i < c.clients, s.client ⟨i, hi⟩ ≠ .finished
    | .join_workers i => ∃ hi : i < c.workers, s.worker ⟨i, hi⟩ ≠ .finished
    | _ => False
  | _ => False

/-- There are threads left, and none of them can go on. -/
def Stuck (s : state c) : Prop :=
  (∃ t, s.unfinished t) ∧ ∀ t, s.unfinished t → s.asleep t ∨ s.joining t

theorem asleep_activity {t : thread c} (h : s.asleep t) : activity s t = some (t.op, .asleep) := by
  cases t with
  | main =>
    have hasleep : s.main.asleep = true := h
    unfold main_t.asleep at hasleep
    split at hasleep
    · next i hmain => exact congrArg main_t.activity hmain
    · cases hasleep
  | client i =>
    have hasleep : (s.client i).asleep = true := h
    unfold client_t.asleep at hasleep
    split at hasleep
    · next k id hclient => exact congrArg client_t.activity hclient
    · cases hasleep
  | worker i => exact congrArg worker_t.activity h

/-- A thread in `enqueue` or `dequeue` has not finished. -/
theorem unfinished_of_activity {t : thread c} (h : activity s t ≠ none) : s.unfinished t ∧ ¬ s.joining t := by
  cases t with
  | main =>
    cases hmain : s.main <;> simp_all [activity, state.unfinished, state.joining, main_t.activity]
  | client i =>
    cases hclient : s.client i <;> simp_all [activity, state.unfinished, state.joining, client_t.activity]
  | worker i =>
    cases hworker : s.worker i <;> simp_all [activity, state.unfinished, state.joining, worker_t.activity]

section Stuck

variable (hstuck : Stuck s) (hwakeup : NoLostWakeup QUEUE_SIZE (activity s) s.q_count)
include hstuck hwakeup

/-- In a stuck state nobody sleeps for what is possible. -/
theorem Stuck.available {t : thread c} (ht : s.asleep t) : t.op.available QUEUE_SIZE s.q_count ≤ 0 := by
  refine hwakeup.available_nonpos ?_ ⟨t, asleep_activity ht⟩
  intro u
  cases hu : activity s u with
  | none => exact Or.inl rfl
  | some a =>
    obtain ⟨hunfinished, hnot⟩ := unfinished_of_activity (by rw [hu]; simp)
    have hasleep := (hstuck.2 u hunfinished).resolve_right hnot
    exact Or.inr ⟨u.op, hu ▸ asleep_activity hasleep⟩

/-- Where a thread waits to put a request into the queue, the workers have finished. -/
theorem Stuck.workers_finished (hordered : Ordered s.view) (hcreated : s.view.main.created_workers = c.workers)
    {t : thread c} (ht : s.asleep t) (hop : t.op = .put) (i : Fin c.workers) :
    (s.view.worker i).status = .finished := by
  have hfull := hstuck.available hwakeup ht
  have hpresent := hordered.worker_created i (by rw [hcreated]; exact i.isLt)
  have hnot : ¬ s.asleep (.worker i) := by
    intro hasleep
    have hempty := hstuck.available hwakeup hasleep
    rw [hop, op.available] at hfull
    have hempty : s.q_count ≤ 0 := hempty
    have hpos : (0 : Int) < QUEUE_SIZE := by decide
    omega
  by_contra hrunning
  have hunfinished : s.unfinished (.worker i) := by
    constructor
    · intro heq
      rw [view_worker heq] at hpresent
      exact hpresent rfl
    · intro heq
      rw [view_worker heq] at hrunning
      exact hrunning rfl
  obtain hasleep | hjoining := hstuck.2 _ hunfinished
  · exact hnot hasleep
  · exact hjoining

end Stuck

/-- The workers finish only after their signals were sent. -/
theorem Inv.workers_le_sent (h : Inv s) (hfinished : ∀ i, (s.view.worker i).status = .finished) :
    c.workers ≤ s.view.main.sent := by
  have hall : (s.view.dequeued.map Prod.snd).count signal = c.workers := h.count_of_finished hfinished
  obtain ⟨contents, -, -, henqueued⟩ := h.queued
  have hsignals := h.sent.signals
  rw [henqueued, List.count_append] at hsignals
  omega

/-- When all signals are sent and the queue is empty, every worker has got one. -/
theorem Inv.consumed_eq_one (h : Inv s) (hsent : s.view.main.sent = c.workers) (hempty : s.q_count = 0)
    (i : Fin c.workers) : (s.view.worker i).consumed = 1 := by
  have hall : ∑ i, (s.view.worker i).consumed = c.workers := by
    rw [h.sum_consumed, h.dequeued_eq hempty, ← hsent]
    exact h.sent.signals
  have hle : ∀ j ∈ Finset.univ, (s.view.worker j).consumed ≤ 1 := fun j _ => h.processed.consumed_le j
  have hones : ∑ _j : Fin c.workers, 1 = c.workers := by simp
  exact (Finset.sum_eq_sum_iff_of_le hle).mp (hall.trans hones.symm) i (Finset.mem_univ i)

theorem client_finished {p : client_t} (h : (p.view c).status = .finished) : p = .finished := by
  cases p with
  | finished => rfl
  | enqueuing k id at_ =>
    rw [client_t.view] at h
    split at h <;> cases h
  | _ => cases h

theorem worker_finished {p : worker_t} (h : p.view.status = .finished) : p = .finished := by
  cases p with
  | finished => rfl
  | took req | signalled req | received req =>
    rw [worker_t.view, holding_status] at h
    cases h
  | _ => cases h

/-- `main` is the last thread to finish. -/
theorem Inv.finished_of_main (h : Inv s) (hmain : s.main = .finished) (t : thread c) : ¬ s.unfinished t := by
  have hview := view_main hmain
  intro hunfinished
  cases t with
  | main => exact hunfinished hmain
  | client i =>
    have hstatus := h.ordered.client_joined i (by rw [hview]; exact i.isLt)
    exact hunfinished.2 (client_finished hstatus)
  | worker i =>
    have hstatus := h.ordered.worker_joined i (by rw [hview]; exact i.isLt)
    exact hunfinished.2 (worker_finished hstatus)

section Join

variable (h : Inv s) (hstuck : Stuck s)
include h hstuck

/-- A client that `main` waits for is asleep. -/
theorem Inv.client_asleep {i : Fin c.clients} (hcreated : s.view.main.created_clients = c.clients)
    (hne : s.client i ≠ .finished) : s.asleep (.client i) := by
  have hpresent := h.ordered.client_created i (by rw [hcreated]; exact i.isLt)
  have hunfinished : s.unfinished (.client i) := by
    refine ⟨fun heq => ?_, hne⟩
    rw [view_client heq] at hpresent
    exact hpresent rfl
  exact (hstuck.2 _ hunfinished).resolve_right id

theorem Inv.worker_asleep {i : Fin c.workers} (hcreated : s.view.main.created_workers = c.workers)
    (hne : s.worker i ≠ .finished) : s.asleep (.worker i) := by
  have hpresent := h.ordered.worker_created i (by rw [hcreated]; exact i.isLt)
  have hunfinished : s.unfinished (.worker i) := by
    refine ⟨fun heq => ?_, hne⟩
    rw [view_worker heq] at hpresent
    exact hpresent rfl
  exact (hstuck.2 _ hunfinished).resolve_right id

end Join

/-- In whatever order the threads run, they do not get stuck, if the ids do not
overflow. -/
theorem request_queue_never_stuck (hworkers : 1 ≤ c.workers) (hfits : c.clients * c.requests < INT_MAX)
    (h : Reachable step (start c) s) : ¬ Stuck s := by
  intro hstuck
  have hinv := reachable_inv hfits h
  have hwakeup := reachable_no_lost_wakeup hfits h
  have hbounds := hinv.bounds.main
  have hunfinished : s.unfinished .main := by
    intro hmain
    obtain ⟨t, ht⟩ := hstuck.1
    exact hinv.finished_of_main hmain t ht
  obtain hasleep | hjoining := hstuck.2 .main hunfinished
  · -- `main` waits to send a signal, so there are workers that have not got one
    have hmain : ∃ i, s.main = .sending i .asleep := by
      have hasleep' : s.main.asleep = true := hasleep
      unfold main_t.asleep at hasleep'
      split at hasleep'
      · next i hmain => exact ⟨i, hmain⟩
      · cases hasleep'
    obtain ⟨i, hmain⟩ := hmain
    have hview := view_main hmain
    have hle := hinv.workers_le_sent fun j =>
      hstuck.workers_finished hwakeup hinv.ordered (by rw [hview]; rfl) hasleep rfl j
    rw [hview] at hle
    rw [hmain] at hbounds
    exact Nat.not_le_of_lt hbounds hle
  · simp only [state.joining] at hjoining
    split at hjoining
    · next i hmain =>
      obtain ⟨hi, hne⟩ := hjoining
      have hview := view_main hmain
      have hclient := hinv.client_asleep hstuck (by rw [hview]; rfl) hne
      have hle := hinv.workers_le_sent fun j =>
        hstuck.workers_finished hwakeup hinv.ordered (by rw [hview]; rfl) hclient rfl j
      rw [hview] at hle
      exact Nat.not_le_of_lt hworkers hle
    · next i hmain =>
      obtain ⟨hi, hne⟩ := hjoining
      have hview := view_main hmain
      have hworker : s.worker ⟨i, hi⟩ = .asleep := hinv.worker_asleep hstuck (by rw [hview]; rfl) hne
      have hempty : s.q_count ≤ 0 := hstuck.available hwakeup (t := .worker ⟨i, hi⟩) hworker
      obtain ⟨contents, -, hcount, -⟩ := hinv.queued
      have hcount : s.q_count = contents.length := hcount
      have hconsumed := hinv.consumed_eq_one (by rw [hview]; rfl) (by omega) ⟨i, hi⟩
      rw [view_worker hworker] at hconsumed
      cases hconsumed
    · exact hjoining

theorem request_queue_never_stuck_short : ∃ s : state ⟨2, 2, 2⟩, Reachable step (start _) s ∧
    s.asleep (.worker 0) ∧ s.asleep (.worker 1) ∧ s.joining .main ∧ ¬ Stuck s := by
  have hsteps : ∃ s : state ⟨2, 2, 2⟩, steps step (start _)
      (List.replicate 6 (.run .main none) ++ List.replicate 2 (.run (.worker 0) none) ++
        List.replicate 2 (.run (.worker 1) none)) = some s ∧
      s.worker 0 = .asleep ∧ s.worker 1 = .asleep ∧ s.joining .main :=
    ⟨_, rfl, rfl, rfl, by decide, by decide⟩
  obtain ⟨s, hsteps, hasleep₀, hasleep₁, hjoining⟩ := hsteps
  have hreach := Reachable.start.steps hsteps
  exact ⟨s, hreach, hasleep₀, hasleep₁, hjoining, request_queue_never_stuck (by decide) (by decide) hreach⟩

theorem request_queue_gets_stuck : ∃ s : state wide, Reachable step (start wide) s ∧ Stuck s := by
  obtain ⟨s, hreach, hmain, hclient₀, hclient₁, hclient₂, hworker⟩ := wide_blocks
  refine ⟨s, hreach, ⟨.main, by simp [state.unfinished, hmain]⟩, ?_⟩
  intro t ht
  cases t with
  | main =>
    have hne : s.client 2 ≠ .finished := by
      intro heq
      rw [heq] at hclient₂
      cases hclient₂
    refine Or.inr ?_
    rw [state.joining, hmain]
    exact ⟨by decide, hne⟩
  | client i =>
    have hi : ∀ i : Fin wide.clients, i = 0 ∨ i = 1 ∨ i = 2 := by decide
    obtain rfl | rfl | rfl := hi i
    · exact absurd hclient₀ ht.2
    · exact absurd hclient₁ ht.2
    · exact Or.inl hclient₂
  | worker i =>
    have hi : ∀ i : Fin wide.workers, i = 0 := by decide
    rw [hi i] at ht
    exact absurd hworker ht.2

end csystems.request_queue
