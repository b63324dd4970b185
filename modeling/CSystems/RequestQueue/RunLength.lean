import CSystems.RequestQueue.Shutdown

open clib.bounded_buffer clib.run

namespace csystems.request_queue

variable {c : config} {s s' : state c}

/-! How many steps are left. A request in the queue is worth a round of the worker that
takes it, and a signal costs its thread more than it gives to the one it wakes. -/

def enqueue_weight : stage → Nat
  | .lock | .woken => 13
  | .locked => 12
  | .asleep => 11
  | .acted => 4
  | .signalled => 1

def main_t.weight (c : config) : main_t → Nat
  | .create_workers i => (c.workers - i) + 2 * c.clients + 15 * c.workers + 5
  | .create_clients i => (c.clients - i) + c.clients + 15 * c.workers + 4
  | .join_clients i => (c.clients - i) + 15 * c.workers + 3
  | .send i => (c.workers - i) * 14 + c.workers + 2
  | .sending i at_ => (c.workers - (i + 1)) * 14 + c.workers + 2 + enqueue_weight at_
  | .join_workers i => (c.workers - i) + 1
  | .finished => 0

def client_t.weight (c : config) : client_t → Nat
  | .absent => c.requests * 16 + 1
  | .loop k => (c.requests - k) * 16 + 1
  | .taking_id k => (c.requests - (k + 1)) * 16 + 16
  | .took_id k _ => (c.requests - (k + 1)) * 16 + 15
  | .enqueuing k _ at_ => (c.requests - (k + 1)) * 16 + 1 + enqueue_weight at_
  | .finished => 0

def worker_t.weight : worker_t → Nat
  | .absent | .lock | .woken => 3
  | .locked => 2
  | .asleep => 1
  | .took _ => 8
  | .signalled _ => 5
  | .received _ => 4
  | .finished => 0

def state.weight (s : state c) : Nat :=
  s.main.weight c + ∑ i, (s.client i).weight c + ∑ i, (s.worker i).weight + 7 * s.q_count.toNat

theorem weight_set_main (s : state c) (m : main_t) :
    { s with main := m }.weight + s.main.weight c = s.weight + m.weight c := by
  simp only [state.weight]
  omega

theorem weight_set_client (s : state c) (i : Fin c.clients) (p : client_t) :
    (s.set_client i p).weight + (s.client i).weight c = s.weight + p.weight c := by
  have hclient : (fun j => ((s.set_client i p).client j).weight c) =
      Function.update (fun j => (s.client j).weight c) i (p.weight c) := by
    funext j
    exact Function.apply_update (fun _ p => client_t.weight c p) s.client i p j
  have htotal := total_update (fun j => (s.client j).weight c) i (p.weight c)
  rw [← hclient] at htotal
  simp only [state.weight, state.set_client] at htotal ⊢
  omega

theorem weight_set_worker (s : state c) (i : Fin c.workers) (p : worker_t) :
    (s.set_worker i p).weight + (s.worker i).weight = s.weight + p.weight := by
  have hworker : (fun j => ((s.set_worker i p).worker j).weight) =
      Function.update (fun j => (s.worker j).weight) i p.weight := by
    funext j
    exact Function.apply_update (fun _ p => worker_t.weight p) s.worker i p j
  have htotal := total_update (fun j => (s.worker j).weight) i p.weight
  rw [← hworker] at htotal
  simp only [state.weight, state.set_worker] at htotal ⊢
  omega

section Weights

variable {wake : Option (thread c)}

theorem wake_up_weight {t : thread c} (h : s.wake_up t = some s') : s'.weight = s.weight + 2 := by
  cases t with
  | main =>
    simp only [state.wake_up] at h
    split at h
    · next i hmain =>
      obtain rfl := Option.some.inj h
      have hset := weight_set_main s (.sending i .woken)
      rw [hmain] at hset
      simp only [main_t.weight, enqueue_weight] at hset
      omega
    · cases h
  | client i =>
    simp only [state.wake_up] at h
    split at h
    · next k id hclient =>
      obtain rfl := Option.some.inj h
      have hset := weight_set_client s i (.enqueuing k id .woken)
      rw [hclient] at hset
      simp only [client_t.weight, enqueue_weight] at hset
      omega
    · cases h
  | worker i =>
    simp only [state.wake_up] at h
    split at h
    · next hworker =>
      obtain rfl := Option.some.inj h
      have hset := weight_set_worker s i .woken
      rw [hworker] at hset
      simp only [worker_t.weight] at hset
      omega
    · cases h

/-- A thread other than a worker is where it was. -/
theorem signal_not_empty_weight (h : signal_not_empty s wake = some s') :
    s'.weight ≤ s.weight + 2 ∧ s'.main = s.main ∧ s'.client = s.client := by
  obtain ⟨i, hwake⟩ | ⟨-, rfl⟩ := signal_not_empty_cases h
  · have hweight := wake_up_weight hwake
    simp only [state.wake_up] at hwake
    split at hwake
    · obtain rfl := Option.some.inj hwake
      exact ⟨by omega, rfl, rfl⟩
    · cases hwake
  · exact ⟨by omega, rfl, rfl⟩

/-- A worker is where it was. -/
theorem signal_not_full_weight (h : signal_not_full s wake = some s') :
    s'.weight ≤ s.weight + 2 ∧ s'.worker = s.worker := by
  obtain ⟨t, ht, hwake⟩ | ⟨-, -, rfl⟩ := signal_not_full_cases h
  · refine ⟨Nat.le_of_eq (wake_up_weight hwake), ?_⟩
    cases t with
    | main =>
      simp only [state.wake_up] at hwake
      split at hwake
      · obtain rfl := Option.some.inj hwake
        rfl
      · cases hwake
    | client i =>
      simp only [state.wake_up] at hwake
      split at hwake
      · obtain rfl := Option.some.inj hwake
        rfl
      · cases hwake
    | worker i => exact absurd rfl (ht i)
  · exact ⟨by omega, rfl⟩

/-- A step in `enqueue` uses up more than it adds elsewhere. -/
theorem enqueue_weight_lt {t : thread c} {request : request_t} {at_ : stage} {next : Option stage} {s₁ : state c}
    (hcount : 0 ≤ s.q_count) (h : enqueue s t request wake at_ = some (s₁, next)) :
    s₁.weight + (next.elim 0 enqueue_weight) + 1 ≤ s.weight + enqueue_weight at_ ∧ s₁.main = s.main ∧
      s₁.client = s.client := by
  cases at_ with
  | lock | woken =>
    simp only [enqueue] at h
    split at h
    · obtain ⟨rfl, rfl⟩ := Prod.mk.inj (Option.some.inj h)
      exact ⟨Nat.le_refl _, rfl, rfl⟩
    · cases h
  | locked =>
    simp only [enqueue] at h
    split at h
    · obtain ⟨rfl, rfl⟩ := Prod.mk.inj (Option.some.inj h)
      exact ⟨Nat.le_refl _, rfl, rfl⟩
    · obtain ⟨rfl, rfl⟩ := Prod.mk.inj (Option.some.inj h)
      refine ⟨?_, rfl, rfl⟩
      simp only [state.weight, store, Option.elim_some, enqueue_weight]
      omega
  | asleep => cases h
  | acted =>
    obtain ⟨s₂, hsignal, heq⟩ := Option.map_eq_some_iff.mp h
    obtain ⟨rfl, rfl⟩ := Prod.mk.inj heq
    obtain ⟨hweight, hmain, hclient⟩ := signal_not_empty_weight hsignal
    refine ⟨?_, hmain, hclient⟩
    simp only [Option.elim_some, enqueue_weight]
    omega
  | signalled =>
    obtain ⟨rfl, rfl⟩ := Prod.mk.inj (Option.some.inj h)
    exact ⟨Nat.le_refl _, rfl, rfl⟩

theorem client_absent {p : client_t} (h : (p.view c).status = .absent) : p = .absent := by
  cases p with
  | absent => rfl
  | enqueuing k id at_ =>
    rw [client_t.view] at h
    split at h <;> cases h
  | _ => cases h

theorem worker_absent {p : worker_t} (h : p.view.status = .absent) : p = .absent := by
  cases p with
  | absent => rfl
  | took req | signalled req | received req =>
    rw [worker_t.view, holding_status] at h
    cases h
  | _ => cases h

theorem weight_main_lt {m m' : main_t} (hmain : s.main = m) (h : m'.weight c < m.weight c) :
    { s with main := m' }.weight < s.weight := by
  have hset := weight_set_main s m'
  rw [hmain] at hset
  omega

theorem weight_client_lt {i : Fin c.clients} {p : client_t} (h : p.weight c < (s.client i).weight c) :
    (s.set_client i p).weight < s.weight := by
  have hset := weight_set_client s i p
  omega

theorem weight_worker_lt {i : Fin c.workers} {p : worker_t} (h : p.weight < (s.worker i).weight) :
    (s.set_worker i p).weight < s.weight := by
  have hset := weight_set_worker s i p
  omega

/-- `main` creates a thread, which is worth as much before as after. -/
theorem weight_create_lt {s₁ : state c} {m m' : main_t} (hmain : s₁.main = m) (hsame : s₁.weight = s.weight)
    (h : m'.weight c < m.weight c) : { s₁ with main := m' }.weight < s.weight := by
  have hlt : { s₁ with main := m' }.weight < s₁.weight := weight_main_lt hmain h
  rwa [hsame] at hlt

theorem main_step_weight (hordered : Ordered s.view) (hcount : 0 ≤ s.q_count) (h : main_step s wake = some s') :
    s'.weight < s.weight := by
  unfold main_step at h
  split at h
  · next i hmain =>
    split at h
    · next hi =>
      obtain rfl := Option.some.inj h
      have hview : s.view.worker ⟨i, hi⟩ = ⟨.absent, 0, []⟩ :=
        hordered.worker_absent ⟨i, hi⟩ (by rw [view_main hmain]; exact Nat.le_refl i)
      have habsent : s.worker ⟨i, hi⟩ = .absent := worker_absent (by rw [← view_worker rfl, hview])
      have hset := weight_set_worker s ⟨i, hi⟩ .lock
      rw [habsent] at hset
      refine weight_create_lt hmain (Nat.add_right_cancel hset) ?_
      simp only [main_t.weight]
      omega
    · obtain rfl := Option.some.inj h
      apply weight_main_lt hmain
      simp only [main_t.weight]
      omega
  · next i hmain =>
    split at h
    · next hi =>
      obtain rfl := Option.some.inj h
      have hview : s.view.client ⟨i, hi⟩ = ⟨.absent, 0, 0, none⟩ :=
        hordered.client_absent ⟨i, hi⟩ (by rw [view_main hmain]; exact Nat.le_refl i)
      have habsent : s.client ⟨i, hi⟩ = .absent := client_absent (by rw [← view_client rfl, hview])
      have hset := weight_set_client s ⟨i, hi⟩ (.loop 0)
      rw [habsent] at hset
      refine weight_create_lt hmain (Nat.add_right_cancel hset) ?_
      simp only [main_t.weight]
      omega
    · obtain rfl := Option.some.inj h
      apply weight_main_lt hmain
      simp only [main_t.weight]
      omega
  · next i hmain =>
    split at h
    · split at h
      · obtain rfl := Option.some.inj h
        apply weight_main_lt hmain
        simp only [main_t.weight]
        omega
      · cases h
    · obtain rfl := Option.some.inj h
      apply weight_main_lt hmain
      simp only [main_t.weight]
      omega
  · next i hmain =>
    obtain rfl := Option.some.inj h
    apply weight_main_lt hmain
    split <;> simp only [main_t.weight, enqueue_weight] <;> omega
  · next i at_ hmain =>
    obtain ⟨⟨s₁, next⟩, henqueue, rfl⟩ := Option.map_eq_some_iff.mp h
    obtain ⟨hweight, hsame, -⟩ := enqueue_weight_lt hcount henqueue
    cases next with
    | none =>
      have hset := weight_set_main s₁ (.send (i + 1))
      rw [hsame, hmain] at hset
      simp only [main_t.weight, Option.elim_none] at hweight hset ⊢
      omega
    | some at_ =>
      have hset := weight_set_main s₁ (.sending i at_)
      rw [hsame, hmain] at hset
      simp only [main_t.weight, Option.elim_some] at hweight hset ⊢
      omega
  · next i hmain =>
    split at h
    · split at h
      · obtain rfl := Option.some.inj h
        apply weight_main_lt hmain
        simp only [main_t.weight]
        omega
      · cases h
    · obtain rfl := Option.some.inj h
      apply weight_main_lt hmain
      simp only [main_t.weight]
      omega
  · cases h

theorem client_step_weight (hcount : 0 ≤ s.q_count) {i : Fin c.clients} (h : client_step s i wake = some s') :
    s'.weight < s.weight := by
  unfold client_step at h
  split at h
  · cases h
  · next k hclient =>
    split at h
    · split at h
      · obtain rfl := Option.some.inj h
        have hlt : (s.set_client i (.taking_id k)).weight < s.weight := by
          apply weight_client_lt
          rw [hclient]
          simp only [client_t.weight]
          omega
        exact hlt
      · cases h
    · obtain rfl := Option.some.inj h
      apply weight_client_lt
      rw [hclient]
      simp only [client_t.weight]
      omega
  · next k hclient =>
    obtain rfl := Option.some.inj h
    have hlt : (s.set_client i (.took_id k s.next_request_id)).weight < s.weight := by
      apply weight_client_lt
      rw [hclient]
      simp only [client_t.weight]
      omega
    exact hlt
  · next k id hclient =>
    obtain rfl := Option.some.inj h
    have hlt : (s.set_client i (.enqueuing k id .lock)).weight < s.weight := by
      apply weight_client_lt
      rw [hclient]
      simp only [client_t.weight, enqueue_weight]
      omega
    exact hlt
  · next k id at_ hclient =>
    obtain ⟨⟨s₁, next⟩, henqueue, rfl⟩ := Option.map_eq_some_iff.mp h
    obtain ⟨hweight, -, hsame⟩ := enqueue_weight_lt hcount henqueue
    cases next with
    | none =>
      have hset := weight_set_client s₁ i (.loop (k + 1))
      rw [hsame, hclient] at hset
      simp only [client_t.weight, Option.elim_none] at hweight hset ⊢
      omega
    | some at_ =>
      have hset := weight_set_client s₁ i (.enqueuing k id at_)
      rw [hsame, hclient] at hset
      simp only [client_t.weight, Option.elim_some] at hweight hset ⊢
      omega
  · cases h

theorem worker_step_weight (hcount : 0 ≤ s.q_count) {i : Fin c.workers} (h : worker_step s i wake = some s') :
    s'.weight < s.weight := by
  unfold worker_step at h
  split at h
  · cases h
  · next hworker =>
    split at h
    · obtain rfl := Option.some.inj h
      have hlt : (s.set_worker i .locked).weight < s.weight := weight_worker_lt (by rw [hworker]; decide)
      exact hlt
    · cases h
  · next hworker =>
    split at h
    · obtain rfl := Option.some.inj h
      have hlt : (s.set_worker i .locked).weight < s.weight := weight_worker_lt (by rw [hworker]; decide)
      exact hlt
    · cases h
  · next hworker =>
    split at h
    · obtain rfl := Option.some.inj h
      have hlt : (s.set_worker i .asleep).weight < s.weight := weight_worker_lt (by rw [hworker]; decide)
      exact hlt
    · next hne =>
      obtain ⟨req, hget, heq⟩ := Option.bind_eq_some_iff.mp h
      obtain rfl := Option.some.inj heq
      -- the request that leaves the queue pays for the round
      have hset := weight_set_worker s i (.took req)
      rw [hworker] at hset
      simp only [worker_t.weight, state.weight, state.set_worker, take] at hset ⊢
      omega
  · cases h
  · next req hworker =>
    obtain ⟨s₁, hsignal, rfl⟩ := Option.map_eq_some_iff.mp h
    obtain ⟨hweight, hsame⟩ := signal_not_full_weight hsignal
    have hset := weight_set_worker s₁ i (.signalled req)
    rw [hsame, hworker] at hset
    simp only [worker_t.weight] at hset
    omega
  · next req hworker =>
    obtain rfl := Option.some.inj h
    have hlt : (s.set_worker i (.received req)).weight < s.weight :=
      weight_worker_lt (by rw [hworker]; exact Nat.lt_add_one 4)
    exact hlt
  · next req hworker =>
    split at h
    · obtain rfl := Option.some.inj h
      exact weight_worker_lt (by rw [hworker]; exact Nat.zero_lt_succ 3)
    · obtain rfl := Option.some.inj h
      have hlt : (s.set_worker i .lock).weight < s.weight :=
        weight_worker_lt (by rw [hworker]; exact Nat.lt_add_one 3)
      exact hlt
  · cases h

end Weights

/-- What holds also after an id has overflowed. -/
structure Counted (s : state c) : Prop where
  bounds : Bounds s
  ordered : Ordered s.view
  queued : Queued s.view

theorem counted_start (c : config) : Counted (start c) :=
  have hinv := inv_start c
  ⟨hinv.bounds, hinv.ordered, hinv.queued⟩

theorem Counted.step {a : action_t c} (h : Counted s) (hstep : step s a = some s') : Counted s' := by
  cases step_refines h.bounds hstep with
  | silent hsilent =>
    have hview := hsilent.view
    exact ⟨hsilent.bounds h.bounds, hview ▸ h.ordered, hview ▸ h.queued⟩
  | effect heffect hbounds => exact ⟨hbounds, h.ordered.step heffect, h.queued.step heffect⟩

theorem Counted.q_count_nonneg (h : Counted s) : 0 ≤ s.q_count := by
  obtain ⟨contents, -, hcount, -⟩ := h.queued
  have hcount : s.q_count = contents.length := hcount
  omega

/-- The action is a wake-up without a signal. -/
def action_t.is_spurious : action_t c → Bool
  | .spurious _ => true
  | _ => false

theorem step_weight {a : action_t c} (hcounted : Counted s) (hstep : step s a = some s') :
    s'.weight + 1 ≤ s.weight + if a.is_spurious then 3 else 0 := by
  have hcount := hcounted.q_count_nonneg
  unfold step at hstep
  split at hstep
  · exact main_step_weight hcounted.ordered hcount hstep
  · exact client_step_weight hcount hstep
  · exact worker_step_weight hcount hstep
  · next t => exact Nat.le_of_eq (congrArg (· + 1) (wake_up_weight hstep))

theorem start_weight (c : config) :
    (start c).weight = 16 * (c.clients * c.requests) + 3 * c.clients + 19 * c.workers + 5 := by
  have hclient (i : Fin c.clients) : ((start c).client i).weight c = c.requests * 16 + 1 := rfl
  have hworker (i : Fin c.workers) : ((start c).worker i).weight = 3 := rfl
  have hmain : (start c).main.weight c = c.workers + 2 * c.clients + 15 * c.workers + 5 := rfl
  have hcount : (start c).q_count.toNat = 0 := rfl
  have hdistrib : c.clients * (c.requests * 16 + 1) = 16 * (c.clients * c.requests) + c.clients := by
    rw [Nat.mul_succ, ← Nat.mul_assoc, Nat.mul_comm _ 16]
  simp only [state.weight, hclient, hworker, hmain, hcount, Finset.sum_const, Finset.card_univ, Fintype.card_fin,
    Nat.nsmul_eq_mul, hdistrib]
  omega

/-- The program ends: apart from three for each wake-up without a signal, a run has no
more steps than its constants allow, also if an id overflows. -/
theorem request_queue_run_length_le {actions : List (action_t c)} (hsteps : steps step (start c) actions = some s) :
    actions.length ≤ 16 * (c.clients * c.requests) + 3 * c.clients + 19 * c.workers + 5 +
      3 * actions.countP action_t.is_spurious := by
  have hle := steps_length_le_countP (fun _ _ _ => Counted.step) (fun _ _ _ => step_weight) (counted_start c) hsteps
  rw [start_weight] at hle
  omega

theorem request_queue_run_length_le_short : (short_run ⟨2, 2, 2⟩ 0 1 0 1).length ≤ 113 + 3 := by
  have hsteps : ∃ s : state ⟨2, 2, 2⟩, steps step (start _) (short_run ⟨2, 2, 2⟩ 0 1 0 1) = some s := ⟨_, rfl⟩
  obtain ⟨s, hsteps⟩ := hsteps
  exact request_queue_run_length_le hsteps

end csystems.request_queue
