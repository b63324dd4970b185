import Mathlib.Data.List.Range
import CSystems.Lib.Bytes
import CSystems.RequestQueue.Logs

open clib.bounded_buffer clib.cint clib.run clib.ring

namespace csystems.request_queue

variable {c : config} {v v' : view_t c}

/-- The ids of the client requests, and where the requests in the queue come from. -/
structure Numbered (v : view_t c) : Prop where
  next_eq : v.next_request_id.toInt = v.issued.length + 1
  length_eq : (v.issued.length : Int) = ∑ i, ((v.client i).taken : Int)
  taken_le : ∀ i, (v.client i).taken ≤ c.requests
  defined : v.overflow = false
  positive : ∀ r ∈ v.issued, 0 < r.id.toInt ∧ r.id.toInt < v.next_request_id.toInt
  distinct : (v.issued.map request_t.id).Nodup
  current_issued : ∀ i k id, (v.client i).current = some (k, id) → client_request i k id ∈ v.issued
  enqueued_issued : ∀ r ∈ v.enqueued, r ∈ v.issued ∨ r = signal

theorem sum_taken_le {f : Fin c.clients → client_view} (h : ∀ i, (f i).taken ≤ c.requests) :
    ∑ i, ((f i).taken : Int) ≤ (c.clients * c.requests : Nat) := by
  have hsum : ∑ i, ((f i).taken : Int) ≤ ∑ _i : Fin c.clients, (c.requests : Int) :=
    Finset.sum_le_sum fun i _ => by exact_mod_cast h i
  rw [Finset.sum_const, Finset.card_univ, Fintype.card_fin, nsmul_eq_mul] at hsum
  exact_mod_cast hsum

/-- A client that moves on without taking an id. -/
theorem Numbered.set_client (h : Numbered v) {i : Fin c.clients} {p : client_view}
    (htaken : p.taken = (v.client i).taken) (hcurrent : p.current = none) : Numbered (v.set_client i p) := by
  refine ⟨h.next_eq, ?_, ?_, h.defined, h.positive, h.distinct, ?_, h.enqueued_issued⟩
  · have hsum := sum_update (fun p : client_view => (p.taken : Int)) v.client i p
    have hlength := h.length_eq
    simp only [view_t.set_client]
    rw [hsum, htaken]
    omega
  · exact forall_update (P := fun _ (p : client_view) => p.taken ≤ c.requests) h.taken_le
      (by rw [htaken]; exact h.taken_le i)
  · exact forall_update (P := fun i (p : client_view) => ∀ k id, p.current = some (k, id) →
      client_request i k id ∈ v.issued) h.current_issued (by simp [hcurrent])

/-- A request of a client, or a shutdown signal, is put into the queue. -/
theorem Numbered.store (h : Numbered v) {request : request_t} (hrequest : request ∈ v.issued ∨ request = signal) :
    Numbered (v.store request) := by
  refine ⟨h.next_eq, h.length_eq, h.taken_le, h.defined, h.positive, h.distinct, h.current_issued, ?_⟩
  intro r hr
  obtain hr | hr := List.mem_append.mp hr
  · exact h.enqueued_issued r hr
  · rw [List.mem_singleton.mp hr]
    exact hrequest

theorem Numbered.take_id (h : Numbered v) {i : Fin c.clients} {k : Nat} (hi : v.client i = ⟨.running, k, k, none⟩)
    (hk : k < c.requests) (hfits : c.clients * c.requests < INT_MAX) :
    Numbered { v.set_client i ⟨.running, k, k + 1, some (k, v.next_request_id)⟩ with
      next_request_id := v.next_request_id + 1
      overflow := v.overflow || v.next_request_id == Int32.maxValue
      issued := v.issued ++ [client_request i k v.next_request_id] } := by
  have hsum := sum_update (fun p : client_view => (p.taken : Int)) v.client i
    ⟨.running, k, k + 1, some (k, v.next_request_id)⟩
  rw [hi, ← h.length_eq] at hsum
  have htaken : ∀ j, (Function.update v.client i ⟨.running, k, k + 1, some (k, v.next_request_id)⟩ j).taken ≤
      c.requests :=
    forall_update (P := fun _ (p : client_view) => p.taken ≤ c.requests) h.taken_le hk
  -- the ids taken so far, this one included, are at most one for each request
  have hlt : v.issued.length + 1 < INT_MAX := by
    have hle := sum_taken_le htaken
    rw [hsum] at hle
    push_cast at hle
    omega
  have hmax : INT_MAX = 2147483647 := rfl
  have hnext := h.next_eq
  have hadd : (v.next_request_id + 1).toInt = v.next_request_id.toInt + 1 := toInt_succ (by omega)
  refine ⟨?_, ?_, htaken, ?_, ?_, ?_, ?_, ?_⟩
  · rw [hadd, hnext, List.length_append, List.length_singleton]
    rfl
  · rw [List.length_append, List.length_singleton]
    refine Eq.trans ?_ hsum.symm
    push_cast
    omega
  · have hne : v.next_request_id ≠ Int32.maxValue := by
      intro heq
      rw [heq, show Int32.maxValue.toInt = 2147483647 from rfl] at hnext
      omega
    simp [h.defined, hne]
  · intro r hr
    rw [hadd]
    obtain hr | hr := List.mem_append.mp hr
    · have hbounds := h.positive r hr
      omega
    · rw [List.mem_singleton.mp hr]
      simp only [client_request]
      omega
  · rw [List.map_append]
    refine List.Nodup.append h.distinct (List.nodup_singleton _) ?_
    intro id hid hnew
    obtain ⟨r, hr, rfl⟩ := List.mem_map.mp hid
    have heq : r.id = v.next_request_id := List.mem_singleton.mp hnew
    have hbounds := h.positive r hr
    rw [heq] at hbounds
    omega
  · refine forall_update (P := fun i (p : client_view) => ∀ k' id, p.current = some (k', id) →
      client_request i k' id ∈ v.issued ++ [client_request _ k v.next_request_id]) ?_ ?_
    · exact fun j k' id hj => List.mem_append_left _ (h.current_issued j k' id hj)
    · intro k' id heq
      obtain ⟨rfl, rfl⟩ := Prod.mk.inj (Option.some.inj heq)
      simp
  · intro r hr
    obtain hissued | hsignal := h.enqueued_issued r hr
    · exact Or.inl (List.mem_append_left _ hissued)
    · exact Or.inr hsignal

theorem Numbered.step (h : Numbered v) (hordered : Ordered v) (hfits : c.clients * c.requests < INT_MAX)
    (heffect : Effect v v') : Numbered v' := by
  cases heffect with
  | create_client i hi =>
    have hset := h.set_client (i := i) (p := ⟨.running, 0, 0, none⟩)
      (by rw [hordered.client_absent i (by omega)]) rfl
    exact ⟨hset.1, hset.2, hset.3, hset.4, hset.5, hset.6, hset.7, hset.8⟩
  | take_id i k hi hk => exact h.take_id hi hk hfits
  | client_store i k id hi hroom =>
    have hissued := h.current_issued i k id (by rw [hi])
    exact (h.store (Or.inl hissued)).set_client (by simp only [view_t.store]; rw [hi]) rfl
  | main_store hlt hclients hroom =>
    have hstored := h.store (Or.inr rfl)
    exact ⟨hstored.1, hstored.2, hstored.3, hstored.4, hstored.5, hstored.6, hstored.7, hstored.8⟩
  | finish_client i hi => exact h.set_client (by rw [hi]) rfl
  | _ => exact ⟨h.1, h.2, h.3, h.4, h.5, h.6, h.7, h.8⟩

/-- A request is a shutdown signal exactly if its id says so. -/
theorem Numbered.id_eq_iff (h : Numbered v) {r : request_t} (hr : r ∈ v.enqueued) : r.id = -1 ↔ r = signal := by
  refine ⟨fun hid => ?_, fun heq => by rw [heq]; rfl⟩
  obtain hissued | hsignal := h.enqueued_issued r hr
  · have hpositive := (h.positive r hissued).1
    rw [hid, show (-1 : Int32).toInt = -1 from rfl] at hpositive
    omega
  · exact hsignal

/-- The number of a request among those of client `i`. -/
def index (i : Fin c.clients) (r : request_t) : Option Nat :=
  match r.text with
  | .client client_id (number + 1) => if client_id = i + 1 then some number else none
  | _ => none

theorem index_client_request (i j : Fin c.clients) (k : Nat) (id : Int32) :
    index j (client_request i k id) = if i = j then some k else none := by
  simp only [index, client_request, Nat.add_right_cancel_iff, Fin.ext_iff]

theorem index_eq_some {i : Fin c.clients} {r : request_t} {k : Nat} :
    index i r = some k ↔ r.text = .client (i + 1) (k + 1) := by
  unfold index
  split
  · next client_id number htext => rw [htext]; simp
  · next hnot =>
    refine iff_of_false (by simp) fun htext => ?_
    exact hnot _ _ htext

/-- What the clients and `main` have put into the queue. -/
structure Sent (v : view_t c) : Prop where
  by_client : ∀ i, v.enqueued.filterMap (index i) = List.range (v.client i).sent
  finished : ∀ i, (v.client i).status = .finished → (v.client i).sent = c.requests
  signals : v.enqueued.count signal = v.main.sent
  last : 0 < v.main.sent → v.enqueued.getLast? = some signal

/-- A client that moves on without sending. -/
theorem Sent.set_client (h : Sent v) {i : Fin c.clients} {p : client_view} (hsent : p.sent = (v.client i).sent)
    (hfinished : p.status = .finished → p.sent = c.requests) : Sent (v.set_client i p) := by
  refine ⟨?_, ?_, h.signals, h.last⟩
  · exact forall_update (P := fun i (p : client_view) => v.enqueued.filterMap (index i) = List.range p.sent)
      h.by_client (by rw [hsent, h.by_client])
  · exact forall_update (P := fun _ (p : client_view) => p.status = .finished → p.sent = c.requests) h.finished
      hfinished

theorem Sent.client_store (h : Sent v) (hordered : Ordered v) {i : Fin c.clients} {k : Nat} {id : Int32}
    (hi : v.client i = ⟨.running, k, k + 1, some (k, id)⟩) :
    Sent ((v.store (client_request i k id)).set_client i ⟨.running, k + 1, k + 1, none⟩) := by
  refine ⟨?_, ?_, ?_, ?_⟩
  · intro j
    have hj := h.by_client j
    simp only [view_t.store, view_t.set_client, List.filterMap_append, List.filterMap_cons, List.filterMap_nil,
      index_client_request]
    by_cases hij : i = j
    · subst hij
      rw [hj, hi, if_pos rfl, Function.update_self, List.range_succ]
    · rw [hj, if_neg hij, Function.update_of_ne (Ne.symm hij), List.append_nil]
  · exact forall_update (P := fun _ (p : client_view) => p.status = .finished → p.sent = c.requests) h.finished
      (by simp)
  · have hne : client_request i k id ≠ signal := fun heq => by cases congrArg request_t.text heq
    show (v.enqueued ++ [client_request i k id]).count signal = v.main.sent
    rw [List.count_append, h.signals, List.count_singleton, beq_false_of_ne hne]
    rfl
  · intro hpos
    -- the clients are joined before the first signal is sent
    have hjoined := hordered.client_joined i (by rw [hordered.sent_after hpos]; exact i.isLt)
    rw [hi] at hjoined
    cases hjoined

theorem Sent.step (h : Sent v) (hordered : Ordered v) (heffect : Effect v v') : Sent v' := by
  cases heffect with
  | create_client i hi =>
    have hset := h.set_client (i := i) (p := ⟨.running, 0, 0, none⟩)
      (by rw [hordered.client_absent i (by omega)]) (by simp)
    exact ⟨hset.1, hset.2, hset.3, hset.4⟩
  | take_id i k hi hk =>
    have hset := h.set_client (i := i) (p := ⟨.running, k, k + 1, some (k, v.next_request_id)⟩) (by rw [hi]) (by simp)
    exact ⟨hset.1, hset.2, hset.3, hset.4⟩
  | client_store i k id hi hroom => exact h.client_store hordered hi
  | main_store hlt hclients hroom =>
    refine ⟨?_, h.finished, ?_, fun _ => List.getLast?_concat⟩
    · intro i
      show (v.enqueued ++ [signal]).filterMap (index i) = _
      rw [List.filterMap_append, h.by_client]
      exact List.append_nil _
    · show (v.enqueued ++ [signal]).count signal = v.main.sent + 1
      rw [List.count_append, h.signals, List.count_singleton_self]
  | finish_client i hi => exact h.set_client (by rw [hi]) (fun _ => rfl)
  | _ => exact ⟨h.1, h.2, h.3, h.4⟩

/-- What the workers have done with the requests they took. -/
structure Processed (v : view_t c) : Prop where
  accounted : ∀ i r, r.id ≠ -1 →
    v.dequeued.count (i, r) = v.processed.count (i, r) + (v.worker i).unprocessed.count r
  not_signal : ∀ e ∈ v.processed, e.2.id ≠ -1
  consumed : ∀ i, v.dequeued.countP (fun e => e.1 = i ∧ e.2.id = -1) = (v.worker i).consumed
  consumed_le : ∀ i, (v.worker i).consumed ≤ 1
  finished : ∀ i, (v.worker i).status = .finished → (v.worker i).consumed = 1 ∧ (v.worker i).unprocessed = []

theorem Processed.set_worker (h : Processed v) {i : Fin c.workers} {p : worker_view}
    (hconsumed : p.consumed = (v.worker i).consumed) (hunprocessed : p.unprocessed = (v.worker i).unprocessed)
    (hfinished : p.status = .finished → p.consumed = 1 ∧ p.unprocessed = []) : Processed (v.set_worker i p) := by
  refine ⟨?_, h.not_signal, ?_, ?_, ?_⟩
  · exact forall_update (P := fun i (p : worker_view) => ∀ r, r.id ≠ -1 →
      v.dequeued.count (i, r) = v.processed.count (i, r) + p.unprocessed.count r) h.accounted
      (by rw [hunprocessed]; exact h.accounted i)
  · exact forall_update (P := fun i (p : worker_view) =>
      v.dequeued.countP (fun e => e.1 = i ∧ e.2.id = -1) = p.consumed) h.consumed
      (by rw [hconsumed]; exact h.consumed i)
  · exact forall_update (P := fun _ (p : worker_view) => p.consumed ≤ 1) h.consumed_le
      (by rw [hconsumed]; exact h.consumed_le i)
  · exact forall_update (P := fun _ (p : worker_view) => p.status = .finished → p.consumed = 1 ∧ p.unprocessed = [])
      h.finished hfinished

theorem holding_unprocessed (req : request_t) : (holding req).unprocessed = if req.id = -1 then [] else [req] := by
  unfold holding
  split <;> rfl

theorem holding_consumed (req : request_t) : (holding req).consumed = if req.id = -1 then 1 else 0 := by
  unfold holding
  split <;> rfl

theorem Processed.take (h : Processed v) {i : Fin c.workers} (hi : v.worker i = ⟨.running, 0, []⟩) (req : request_t) :
    Processed { v.set_worker i (holding req) with
      q_head := (v.q_head + 1) % QUEUE_SIZE
      q_count := v.q_count - 1
      dequeued := v.dequeued ++ [(i, req)] } := by
  refine ⟨?_, h.not_signal, ?_, ?_, ?_⟩
  · intro j r hr
    have haccounted := h.accounted j r hr
    simp only [view_t.set_worker, List.count_append, List.count_singleton]
    by_cases hji : j = i
    · subst hji
      rw [hi] at haccounted
      rw [haccounted, Function.update_self, holding_unprocessed]
      by_cases hreq : req = r
      · subst hreq
        simp [hr]
      · have hnone : (if req.id = -1 then [] else [req]).count r = 0 := by split <;> simp [hreq]
        rw [hnone]
        simp [hreq]
    · rw [haccounted, Function.update_of_ne hji]
      simp [Ne.symm hji]
  · intro j
    have hconsumed := h.consumed j
    simp only [view_t.set_worker, List.countP_append, List.countP_singleton]
    by_cases hji : j = i
    · subst hji
      rw [hi] at hconsumed
      rw [hconsumed, Function.update_self, holding_consumed]
      simp
    · rw [hconsumed, Function.update_of_ne hji]
      simp [Ne.symm hji]
  · refine forall_update (P := fun _ (p : worker_view) => p.consumed ≤ 1) h.consumed_le ?_
    rw [holding_consumed]
    split <;> omega
  · refine forall_update (P := fun _ (p : worker_view) => p.status = .finished → p.consumed = 1 ∧ p.unprocessed = [])
      h.finished fun hfinished => ?_
    rw [holding_status] at hfinished
    cases hfinished

theorem Processed.process (h : Processed v) {i : Fin c.workers} {req : request_t}
    (hi : v.worker i = ⟨.running, 0, [req]⟩) (hid : req.id ≠ -1) :
    Processed { v.set_worker i ⟨.running, 0, []⟩ with processed := v.processed ++ [(i, req)] } := by
  refine ⟨?_, ?_, ?_, ?_, ?_⟩
  · intro j r hr
    have haccounted := h.accounted j r hr
    simp only [view_t.set_worker, List.count_append, List.count_singleton]
    by_cases hji : j = i
    · subst hji
      rw [hi] at haccounted
      rw [haccounted, Function.update_self, List.count_singleton]
      simp
    · rw [haccounted, Function.update_of_ne hji]
      simp [Ne.symm hji]
  · intro e he
    obtain he | he := List.mem_append.mp he
    · exact h.not_signal e he
    · rw [List.mem_singleton.mp he]
      exact hid
  · refine forall_update (P := fun i (p : worker_view) =>
      v.dequeued.countP (fun e => e.1 = i ∧ e.2.id = -1) = p.consumed) h.consumed ?_
    rw [h.consumed i, hi]
  · exact forall_update (P := fun _ (p : worker_view) => p.consumed ≤ 1) h.consumed_le (Nat.zero_le 1)
  · exact forall_update (P := fun _ (p : worker_view) => p.status = .finished → p.consumed = 1 ∧ p.unprocessed = [])
      h.finished (by simp)

theorem Processed.step (h : Processed v) (hordered : Ordered v) (heffect : Effect v v') : Processed v' := by
  cases heffect with
  | create_worker i hi =>
    have habsent := hordered.worker_absent i (by omega)
    have hset := h.set_worker (i := i) (p := ⟨.running, 0, []⟩) (by rw [habsent]) (by rw [habsent]) (by simp)
    exact ⟨hset.1, hset.2, hset.3, hset.4, hset.5⟩
  | take i req hi hcount hget => exact h.take hi req
  | process i req hi hid => exact h.process hi hid
  | finish_worker i hi => exact h.set_worker (by rw [hi]) (by rw [hi]) (by simp)
  | _ => exact ⟨h.1, h.2, h.3, h.4, h.5⟩

end csystems.request_queue
