import CSystems.RequestQueue.Program

open clib.bounded_buffer clib.run

namespace csystems.request_queue

variable {c : config} {s : state c}

/-- No thread holds a mutex or is asleep. -/
structure Calm (s : state c) : Prop where
  q_mutex : s.q_mutex = none
  id_mutex : s.id_mutex = none
  main : s.main.asleep = false
  client : ∀ i, (s.client i).asleep = false
  worker : ∀ i, s.worker i ≠ .asleep

/-- Client `i` has taken an id and put request `k` into the queue. -/
def after_send (s : state c) (i : Fin c.clients) (k : Nat) : state c :=
  { store s (client_request i k s.next_request_id) with
    client := Function.update s.client i (.loop (k + 1))
    next_request_id := s.next_request_id + 1
    overflow := s.overflow || s.next_request_id == Int32.maxValue
    issued := s.issued ++ [client_request i k s.next_request_id] }

theorem Calm.send (h : Calm s) {i : Fin c.clients} {k : Nat} (hi : s.client i = .loop k) (hk : k < c.requests)
    (hroom : s.q_count ≠ QUEUE_SIZE) :
    steps step s (List.replicate 7 (.run (.client i) none)) = some (after_send s i k) := by
  simp [List.replicate, steps, step, client_step, hi, hk, h.id_mutex, h.q_mutex, take_id, enqueue, state.set_client,
    hroom, signal_not_empty, h.worker, store, after_send]

theorem Calm.sent (h : Calm s) (i : Fin c.clients) (k : Nat) : Calm (after_send s i k) := by
  refine ⟨h.q_mutex, h.id_mutex, h.main, fun j => ?_, h.worker⟩
  simp only [after_send]
  by_cases hji : j = i
  · subst hji
    rw [Function.update_self]
    rfl
  · rw [Function.update_of_ne hji]
    exact h.client j

/-- Worker `w` has taken request `r` out of the queue, and is at `p`. -/
def after_fetch (s : state c) (w : Fin c.workers) (r : request_t) (p : worker_t) : state c :=
  { take s w r with worker := Function.update s.worker w p }

theorem Calm.fetch (h : Calm s) {w : Fin c.workers} {r : request_t} (hw : s.worker w = .lock) (hcount : s.q_count ≠ 0)
    (hget : s.queue[s.q_head]? = some r) :
    steps step s (List.replicate 4 (.run (.worker w) none)) = some (after_fetch s w r (.received r)) := by
  simp [List.replicate, steps, step, worker_step, hw, h.q_mutex, hcount, hget, take, state.set_worker,
    signal_not_full, h.main, h.client, after_fetch]

theorem Calm.fetched (h : Calm s) (w : Fin c.workers) (r : request_t) {p : worker_t} (hp : p ≠ .asleep) :
    Calm (after_fetch s w r p) := by
  refine ⟨h.q_mutex, h.id_mutex, h.main, h.client, fun j => ?_⟩
  simp only [after_fetch]
  by_cases hji : j = w
  · subst hji
    rw [Function.update_self]
    exact hp
  · rw [Function.update_of_ne hji]
    exact h.worker j

/-- Worker `w` waits for requests, and the queue is empty. -/
structure Idle (s : state c) (w : Fin c.workers) : Prop extends Calm s where
  worker_lock : s.worker w = .lock
  empty : s.q_count = 0
  ends : s.q_head = s.q_tail
  tail_lt : s.q_tail < QUEUE_SIZE
  length_eq : s.queue.length = QUEUE_SIZE

theorem Idle.room {w : Fin c.workers} (h : Idle s w) : s.q_count ≠ QUEUE_SIZE := by
  rw [h.empty]
  decide

/-- The request that was put into the empty queue can be taken out of it. -/
theorem Idle.fetch {w : Fin c.workers} (h : Idle s w) (i : Fin c.clients) (k : Nat) :
    steps step (after_send s i k) (List.replicate 4 (.run (.worker w) none)) =
      some (after_fetch (after_send s i k) w (client_request i k s.next_request_id)
        (.received (client_request i k s.next_request_id))) := by
  refine (h.toCalm.sent i k).fetch h.worker_lock ?_ ?_
  · show s.q_count + 1 ≠ 0
    rw [h.empty]
    decide
  · show (s.queue.set s.q_tail _)[s.q_head]? = _
    rw [h.ends, List.getElem?_set_self (by rw [h.length_eq]; exact h.tail_lt)]

theorem step_received (s : state c) (w : Fin c.workers) {r : request_t} (hid : r.id ≠ -1) :
    step (after_fetch s w r (.received r)) (.run (.worker w) none) =
      some { after_fetch s w r .lock with processed := s.processed ++ [(w, r)] } := by
  simp [step, worker_step, after_fetch, take, process, state.set_worker, hid]

theorem step_received_signal (s : state c) (w : Fin c.workers) {r : request_t} (hid : r.id = -1) :
    step (after_fetch s w r (.received r)) (.run (.worker w) none) = some (after_fetch s w r .finished) := by
  simp [step, worker_step, after_fetch, take, state.set_worker, hid]

/-- Client `i` sends request `k`, and the worker processes it. -/
theorem Idle.round {w : Fin c.workers} (h : Idle s w) {i : Fin c.clients} {k : Nat} (hi : s.client i = .loop k)
    (hk : k < c.requests) (hid : s.next_request_id ≠ -1) :
    ∃ s', Reachable step s s' ∧ Idle s' w ∧ s'.main = s.main ∧ s'.client = Function.update s.client i (.loop (k + 1)) ∧
      s'.next_request_id = s.next_request_id + 1 := by
  have hsend := Reachable.start.steps (h.toCalm.send hi hk h.room)
  have hprocess := (hsend.steps (h.fetch i k)).step _ (step_received (after_send s i k) w hid)
  have hcalm := (h.toCalm.sent i k).fetched w (client_request i k s.next_request_id) (p := .lock) (by simp)
  refine ⟨_, hprocess, ?_, rfl, rfl, rfl⟩
  refine ⟨⟨hcalm.1, hcalm.2, hcalm.3, hcalm.4, hcalm.5⟩, Function.update_self .., ?_, ?_, ?_, ?_⟩
  · show s.q_count + 1 - 1 = 0
    rw [h.empty]
    rfl
  · show (s.q_head + 1) % QUEUE_SIZE = (s.q_tail + 1) % QUEUE_SIZE
    rw [h.ends]
  · exact Nat.mod_lt _ (by decide)
  · show (s.queue.set _ _).length = QUEUE_SIZE
    rw [List.length_set, h.length_eq]

/-- The ids before the counter has gone once around. -/
theorem ofNat_ne_neg_one {n : Nat} (hn : n < 4294967295) : Int32.ofNat n ≠ -1 := by
  intro heq
  have hnat := congrArg (fun x : Int32 => x.toBitVec.toNat) heq
  have hleft : (Int32.ofNat n).toBitVec.toNat = n := Nat.mod_eq_of_lt (by omega)
  have hright : (-1 : Int32).toBitVec.toNat = 4294967295 := rfl
  simp only [hleft, hright] at hnat
  omega

/-- Client `i` sends `n` requests, one after the other. -/
theorem Idle.rounds {w : Fin c.workers} (h : Idle s w) {i : Fin c.clients} (hi : s.client i = .loop 0) {n m : Nat}
    (hn : n ≤ c.requests) (hnext : s.next_request_id = Int32.ofNat m) (hfits : m + n ≤ 4294967295) :
    ∃ s', Reachable step s s' ∧ Idle s' w ∧ s'.main = s.main ∧ s'.client = Function.update s.client i (.loop n) ∧
      s'.next_request_id = Int32.ofNat (m + n) := by
  induction n with
  | zero => exact ⟨s, .start, h, rfl, by rw [← hi, Function.update_eq_self], hnext⟩
  | succ n ih =>
    obtain ⟨s₁, hreach, hidle, hmain, hclient, hnext₁⟩ := ih (by omega) (by omega)
    have hi₁ : s₁.client i = .loop n := by rw [hclient, Function.update_self]
    have hid : s₁.next_request_id ≠ -1 := hnext₁ ▸ ofNat_ne_neg_one (by omega)
    obtain ⟨s₂, hround, hidle₂, hmain₂, hclient₂, hnext₂⟩ := hidle.round hi₁ (by omega) hid
    refine ⟨s₂, hround.trans hreach, hidle₂, hmain₂.trans hmain, ?_, ?_⟩
    · rw [hclient₂, hclient, Function.update_idem]
    · rw [hnext₂, hnext₁, ← Nat.add_assoc, Int32.ofNat_add (m + n) 1]
      rfl

/-- Three clients with so many requests that the ids reach the one of the shutdown
signal. -/
abbrev wide : config := ⟨3, INT_MAX, 1⟩

/-- `main` has created the threads. -/
theorem wide_created : ∃ s : state wide, Reachable step (start wide) s ∧ Idle s 0 ∧ s.main = .join_clients 0 ∧
    (∀ i, s.client i = .loop 0) ∧ s.next_request_id = Int32.ofNat 1 := by
  have hsteps : ∃ s, steps step (start wide) (List.replicate 6 (.run .main none)) = some s ∧
      s.main = .join_clients 0 ∧ (∀ i, s.client i = .loop 0) ∧ (∀ i, s.worker i = .lock) ∧
      (s.q_mutex = none ∧ s.id_mutex = none ∧ s.q_count = 0 ∧ s.q_head = s.q_tail ∧ s.q_tail < QUEUE_SIZE ∧
        s.queue.length = QUEUE_SIZE ∧ s.next_request_id = Int32.ofNat 1) := by
    refine ⟨_, rfl, by decide, by decide, by decide, by decide⟩
  obtain ⟨s, hsteps, hmain, hclient, hworker, hq, hid, hcount, hends, htail, hlength, hnext⟩ := hsteps
  refine ⟨s, Reachable.start.steps hsteps, ⟨⟨hq, hid, ?_, ?_, ?_⟩, hworker 0, hcount, hends, htail, hlength⟩, hmain,
    hclient, hnext⟩
  · rw [hmain]
    rfl
  · intro i
    rw [hclient]
    rfl
  · intro i
    rw [hworker]
    decide

/-- The first two clients have sent all their requests, and the next id is `-1`. -/
theorem wide_wraps : ∃ s : state wide, Reachable step (start wide) s ∧ Idle s 0 ∧ s.main = .join_clients 0 ∧
    s.client 0 = .loop INT_MAX ∧ s.client 1 = .loop INT_MAX ∧ s.client 2 = .loop 0 ∧ s.next_request_id = -1 := by
  have hmax : INT_MAX = 2147483647 := rfl
  obtain ⟨s₁, hreach₁, hidle₁, hmain₁, hclient₁, hnext₁⟩ := wide_created
  obtain ⟨s₂, hreach₂, hidle₂, hmain₂, hclient₂, hnext₂⟩ :=
    hidle₁.rounds (hclient₁ 0) (Nat.le_refl INT_MAX) hnext₁ (by omega)
  have hstart : s₂.client 1 = .loop 0 := by rw [hclient₂, Function.update_of_ne (by decide), hclient₁]
  obtain ⟨s₃, hreach₃, hidle₃, hmain₃, hclient₃, hnext₃⟩ :=
    hidle₂.rounds hstart (Nat.le_refl INT_MAX) hnext₂ (by omega)
  refine ⟨s₃, hreach₃.trans (hreach₂.trans hreach₁), hidle₃, ?_, ?_, ?_, ?_, ?_⟩
  · rw [hmain₃, hmain₂, hmain₁]
  · rw [hclient₃, Function.update_of_ne (by decide), hclient₂, Function.update_self]
  · rw [hclient₃, Function.update_self]
  · rw [hclient₃, Function.update_of_ne (by decide), hclient₂, Function.update_of_ne (by decide), hclient₁]
  · rw [hnext₃, hmax]
    rfl

/-- A client request has the id of the shutdown signal. -/
theorem wide_issues_signal : ∃ s : state wide, Reachable step (start wide) s ∧ ∃ r ∈ s.issued, r.id = -1 := by
  obtain ⟨s, hreach, hidle, -, -, -, hclient, hnext⟩ := wide_wraps
  have hsend := hidle.toCalm.send hclient (by decide) hidle.room
  refine ⟨_, hreach.steps hsend, client_request (c := wide) 2 0 s.next_request_id, ?_, hnext⟩
  exact List.mem_append_right _ (List.mem_singleton_self _)

/-- Client `i` sends `n` requests that nobody takes. -/
theorem Calm.sends (h : Calm s) {i : Fin c.clients} {k : Nat} (hi : s.client i = .loop k) {n : Nat}
    (hk : k + n ≤ c.requests) (hroom : s.q_count + n ≤ QUEUE_SIZE) :
    ∃ s', Reachable step s s' ∧ Calm s' ∧ s'.main = s.main ∧ s'.worker = s.worker ∧
      s'.client = Function.update s.client i (.loop (k + n)) ∧ s'.q_count = s.q_count + n := by
  induction n with
  | zero =>
    refine ⟨s, .start, h, rfl, rfl, ?_, by simp⟩
    rw [Nat.add_zero, ← hi, Function.update_eq_self]
  | succ n ih =>
    obtain ⟨s₁, hreach, hcalm, hmain, hworker, hclient, hcount⟩ := ih (by omega) (by omega)
    have hi₁ : s₁.client i = .loop (k + n) := by rw [hclient, Function.update_self]
    have hsend := hcalm.send hi₁ (by omega) (by omega)
    refine ⟨_, hreach.steps hsend, hcalm.sent i (k + n), hmain, hworker, ?_, ?_⟩
    · show Function.update s₁.client i (.loop (k + n + 1)) = _
      rw [hclient, Function.update_idem]
      rfl
    · show s₁.q_count + 1 = _
      rw [hcount]
      omega

/-- Client `i` finds the queue full, and sleeps. -/
theorem Calm.sleep (h : Calm s) {i : Fin c.clients} {k : Nat} (hi : s.client i = .loop k) (hk : k < c.requests)
    (hfull : s.q_count = QUEUE_SIZE) :
    ∃ s', Reachable step s s' ∧ s'.main = s.main ∧ s'.worker = s.worker ∧
      s'.client = Function.update s.client i (.enqueuing k s.next_request_id .asleep) := by
  have hsteps : ∃ s', steps step s (List.replicate 5 (.run (.client i) none)) = some s' ∧ s'.main = s.main ∧
      s'.worker = s.worker ∧ s'.client = Function.update s.client i (.enqueuing k s.next_request_id .asleep) := by
    simp [List.replicate, steps, step, client_step, hi, hk, h.id_mutex, h.q_mutex, take_id, enqueue, state.set_client,
      hfull]
  obtain ⟨s', hsteps, hrest⟩ := hsteps
  exact ⟨s', Reachable.start.steps hsteps, hrest⟩

/-- The worker takes the request with id `-1` for the shutdown signal, and finishes. -/
theorem wide_finishes_worker : ∃ s : state wide, Reachable step (start wide) s ∧ Calm s ∧ s.main = .join_clients 0 ∧
    s.client 0 = .loop INT_MAX ∧ s.client 1 = .loop INT_MAX ∧ s.client 2 = .loop 1 ∧ s.worker 0 = .finished ∧
    s.q_count = 0 := by
  obtain ⟨s, hreach, hidle, hmain, hclient₀, hclient₁, hclient₂, hnext⟩ := wide_wraps
  have hsend := hreach.steps (hidle.toCalm.send hclient₂ (by decide) hidle.room)
  have hfinish := (hsend.steps (hidle.fetch 2 0)).step _ (step_received_signal (after_send s 2 0) 0 hnext)
  have hcalm := (hidle.toCalm.sent 2 0).fetched 0 (client_request (c := wide) 2 0 s.next_request_id)
    (p := .finished) (by simp)
  have hclient (i : Fin wide.clients) (hi : i ≠ 2) : Function.update s.client 2 (.loop 1) i = s.client i :=
    Function.update_of_ne hi ..
  refine ⟨_, hfinish, hcalm, hmain, ?_, ?_, ?_, ?_, ?_⟩
  · exact (hclient 0 (by decide)).trans hclient₀
  · exact (hclient 1 (by decide)).trans hclient₁
  · show Function.update s.client 2 (.loop 1) 2 = .loop 1
    rw [Function.update_self]
  · show Function.update s.worker 0 .finished 0 = .finished
    rw [Function.update_self]
  · show s.q_count + 1 - 1 = 0
    rw [hidle.empty]
    rfl

/-- The queue fills up, the last client sleeps, and `main` waits for it. -/
theorem wide_blocks : ∃ s : state wide, Reachable step (start wide) s ∧ s.main = .join_clients 2 ∧
    s.client 0 = .finished ∧ s.client 1 = .finished ∧ (s.client 2).asleep = true ∧ s.worker 0 = .finished := by
  obtain ⟨s₁, hreach₁, hcalm₁, hmain₁, hclient₀, hclient₁, hclient₂, hworker₁, hcount₁⟩ := wide_finishes_worker
  obtain ⟨s₂, hreach₂, hcalm₂, hmain₂, hworker₂, hsent, hcount₂⟩ :=
    hcalm₁.sends hclient₂ (n := QUEUE_SIZE) (by decide) (by rw [hcount₁]; decide)
  have hlast : s₂.client 2 = .loop (1 + QUEUE_SIZE) := by rw [hsent, Function.update_self]
  have hfull : s₂.q_count = QUEUE_SIZE := by rw [hcount₂, hcount₁, Int.zero_add]
  obtain ⟨s₃, hreach₃, hmain₃, hworker₃, hasleep⟩ := hcalm₂.sleep hlast (by decide) hfull
  rw [hsent, Function.update_idem] at hasleep
  have hsteps : ∃ s', steps step s₃ [.run (.client 0) none, .run (.client 1) none, .run .main none, .run .main none] =
      some s' ∧ s'.main = .join_clients 2 ∧ s'.client 0 = .finished ∧ s'.client 1 = .finished ∧
      (s'.client 2).asleep = true ∧ s'.worker 0 = .finished := by
    simp [steps, step, client_step, main_step, state.set_client, hasleep, hclient₀, hclient₁, hmain₃, hmain₂, hmain₁,
      hworker₃, hworker₂, hworker₁, client_t.asleep]
  obtain ⟨s₄, hsteps, hrest⟩ := hsteps
  exact ⟨s₄, (hreach₃.trans (hreach₂.trans hreach₁)).steps hsteps, hrest⟩

end csystems.request_queue
