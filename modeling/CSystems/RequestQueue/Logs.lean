import CSystems.RequestQueue.Steps

open clib.bounded_buffer clib.run clib.ring

namespace csystems.request_queue

variable {c : config} {v v' : view_t c}

/-- Threads are created and joined in order, and the shutdown signals come after the
clients are joined. -/
structure Ordered (v : view_t c) : Prop where
  client_absent : ∀ i : Fin c.clients, v.main.created_clients ≤ i → v.client i = ⟨.absent, 0, 0, none⟩
  worker_absent : ∀ i : Fin c.workers, v.main.created_workers ≤ i → v.worker i = ⟨.absent, 0, []⟩
  client_created : ∀ i : Fin c.clients, i < v.main.created_clients → (v.client i).status ≠ .absent
  worker_created : ∀ i : Fin c.workers, i < v.main.created_workers → (v.worker i).status ≠ .absent
  client_joined : ∀ i : Fin c.clients, i < v.main.joined_clients → (v.client i).status = .finished
  worker_joined : ∀ i : Fin c.workers, i < v.main.joined_workers → (v.worker i).status = .finished
  sent_after : 0 < v.main.sent → v.main.joined_clients = c.clients
  joined_after : 0 < v.main.joined_workers → v.main.sent = c.workers

/-- A client that runs is created, and `main` still waits for it. -/
theorem Ordered.set_client (h : Ordered v) {i : Fin c.clients} {p : client_view}
    (hstatus : (v.client i).status = .running) (hp : p.status ≠ .absent) : Ordered (v.set_client i p) := by
  have hcreated : i < v.main.created_clients := by
    by_contra hnot
    rw [h.client_absent i (by omega)] at hstatus
    cases hstatus
  have hjoined : ¬ i < v.main.joined_clients := by
    intro hlt
    rw [h.client_joined i hlt] at hstatus
    cases hstatus
  refine ⟨?_, h.worker_absent, ?_, h.worker_created, ?_, h.worker_joined, h.sent_after, h.joined_after⟩
  · exact forall_update
      (P := fun (j : Fin c.clients) (p : client_view) => v.main.created_clients ≤ j → p = ⟨.absent, 0, 0, none⟩)
      h.client_absent (fun hle => absurd hcreated (by omega))
  · exact forall_update
      (P := fun (j : Fin c.clients) (p : client_view) => j < v.main.created_clients → p.status ≠ .absent)
      h.client_created (fun _ => hp)
  · exact forall_update
      (P := fun (j : Fin c.clients) (p : client_view) => j < v.main.joined_clients → p.status = .finished)
      h.client_joined (fun hlt => absurd hlt hjoined)

theorem Ordered.set_worker (h : Ordered v) {i : Fin c.workers} {p : worker_view}
    (hstatus : (v.worker i).status = .running) (hp : p.status ≠ .absent) : Ordered (v.set_worker i p) := by
  have hcreated : i < v.main.created_workers := by
    by_contra hnot
    rw [h.worker_absent i (by omega)] at hstatus
    cases hstatus
  have hjoined : ¬ i < v.main.joined_workers := by
    intro hlt
    rw [h.worker_joined i hlt] at hstatus
    cases hstatus
  refine ⟨h.client_absent, ?_, h.client_created, ?_, h.client_joined, ?_, h.sent_after, h.joined_after⟩
  · exact forall_update
      (P := fun (j : Fin c.workers) (p : worker_view) => v.main.created_workers ≤ j → p = ⟨.absent, 0, []⟩)
      h.worker_absent (fun hle => absurd hcreated (by omega))
  · exact forall_update
      (P := fun (j : Fin c.workers) (p : worker_view) => j < v.main.created_workers → p.status ≠ .absent)
      h.worker_created (fun _ => hp)
  · exact forall_update
      (P := fun (j : Fin c.workers) (p : worker_view) => j < v.main.joined_workers → p.status = .finished)
      h.worker_joined (fun hlt => absurd hlt hjoined)

theorem holding_status (req : request_t) : (holding req).status = .running := by
  unfold holding
  split <;> rfl

theorem Ordered.step (h : Ordered v) (heffect : Effect v v') : Ordered v' := by
  cases heffect with
  | create_worker i hi =>
    refine ⟨h.client_absent, ?_, h.client_created, ?_, h.client_joined, ?_, h.sent_after, h.joined_after⟩
    · exact forall_update_ge (Q := fun _ (p : worker_view) => p = ⟨.absent, 0, []⟩) h.worker_absent hi _
    · exact forall_update_lt (Q := fun _ (p : worker_view) => p.status ≠ .absent) h.worker_created hi (by simp)
    · intro j hj
      have hfinished := h.worker_joined j hj
      have hji : j ≠ i := by
        rintro rfl
        rw [h.worker_absent j (by omega)] at hfinished
        cases hfinished
      simp only [view_t.set_worker, Function.update_of_ne hji]
      exact hfinished
  | create_client i hi =>
    refine ⟨?_, h.worker_absent, ?_, h.worker_created, ?_, h.worker_joined, h.sent_after, h.joined_after⟩
    · exact forall_update_ge (Q := fun _ (p : client_view) => p = ⟨.absent, 0, 0, none⟩) h.client_absent hi _
    · exact forall_update_lt (Q := fun _ (p : client_view) => p.status ≠ .absent) h.client_created hi (by simp)
    · intro j hj
      have hfinished := h.client_joined j hj
      have hji : j ≠ i := by
        rintro rfl
        rw [h.client_absent j (by omega)] at hfinished
        cases hfinished
      simp only [view_t.set_client, Function.update_of_ne hji]
      exact hfinished
  | join_client i hi hfinished =>
    refine ⟨h.client_absent, h.worker_absent, h.client_created, h.worker_created, ?_, h.worker_joined, ?_,
      h.joined_after⟩
    · exact forall_lt_succ (Q := fun _ (p : client_view) => p.status = .finished) h.client_joined hi hfinished
    · intro hsent
      have hall := h.sent_after hsent
      have hlt := i.isLt
      omega
  | join_worker i hi hsent hfinished =>
    refine ⟨h.client_absent, h.worker_absent, h.client_created, h.worker_created, h.client_joined, ?_, h.sent_after,
      fun _ => hsent⟩
    exact forall_lt_succ (Q := fun _ (p : worker_view) => p.status = .finished) h.worker_joined hi hfinished
  | take_id i k hi hk =>
    have hset := h.set_client (i := i) (p := ⟨.running, k, k + 1, some (k, v.next_request_id)⟩) (by rw [hi]) (by simp)
    exact ⟨hset.1, hset.2, hset.3, hset.4, hset.5, hset.6, hset.7, hset.8⟩
  | client_store i k id hi hroom =>
    have hset := h.set_client (i := i) (p := ⟨.running, k + 1, k + 1, none⟩) (by rw [hi]) (by simp)
    exact ⟨hset.1, hset.2, hset.3, hset.4, hset.5, hset.6, hset.7, hset.8⟩
  | main_store hlt hclients hroom =>
    refine ⟨h.1, h.2, h.3, h.4, h.5, h.6, fun _ => hclients, ?_⟩
    intro hjoined
    have hsent := h.joined_after hjoined
    omega
  | take i req hi hcount hget =>
    have hset := h.set_worker (i := i) (p := holding req) (by rw [hi]) (by rw [holding_status]; simp)
    exact ⟨hset.1, hset.2, hset.3, hset.4, hset.5, hset.6, hset.7, hset.8⟩
  | process i req hi hid =>
    have hset := h.set_worker (i := i) (p := ⟨.running, 0, []⟩) (by rw [hi]) (by simp)
    exact ⟨hset.1, hset.2, hset.3, hset.4, hset.5, hset.6, hset.7, hset.8⟩
  | finish_client i hi => exact h.set_client (by rw [hi]) (by simp)
  | finish_worker i hi => exact h.set_worker (by rw [hi]) (by simp)

/-- The queue holds what was put into it and not taken, in this order. -/
def Queued (v : view_t c) : Prop :=
  ∃ contents, Ring QUEUE_SIZE v.queue v.q_head v.q_tail contents ∧ v.q_count = contents.length ∧
    v.enqueued = v.dequeued.map Prod.snd ++ contents

theorem Queued.store (h : Queued v) (hroom : v.q_count ≠ QUEUE_SIZE) (request : request_t) :
    Queued (v.store request) := by
  obtain ⟨contents, hring, hcount, henqueued⟩ := h
  have hlt : contents.length < QUEUE_SIZE := by
    have hle := hring.length_le
    have hne : contents.length ≠ QUEUE_SIZE := fun heq => hroom (by rw [hcount, heq])
    omega
  refine ⟨contents ++ [request], hring.push hlt request, ?_, ?_⟩
  · show v.q_count + 1 = _
    rw [hcount, List.length_append, List.length_singleton]
    rfl
  · show v.enqueued ++ [request] = _
    rw [henqueued, List.append_assoc]
    rfl

theorem Queued.step (h : Queued v) (heffect : Effect v v') : Queued v' := by
  cases heffect with
  | client_store i k id hi hroom => exact h.store hroom _
  | main_store hlt hclients hroom => exact h.store hroom _
  | take i req hi hcount hget =>
    obtain ⟨contents, hring, hlength, henqueued⟩ := h
    cases contents with
    | nil => exact absurd hlength hcount
    | cons x rest =>
      obtain ⟨hhead, hring'⟩ := hring.pop
      obtain rfl : x = req := Option.some.inj (hhead.symm.trans hget)
      refine ⟨rest, hring', ?_, ?_⟩
      · show v.q_count - 1 = _
        rw [hlength, List.length_cons]
        omega
      · show v.enqueued = (v.dequeued ++ [(i, x)]).map Prod.snd ++ rest
        rw [henqueued]
        simp
  | _ => exact h

end csystems.request_queue
