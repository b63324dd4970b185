import Mathlib.Algebra.BigOperators.Group.Finset.Piecewise
import CSystems.RequestQueue.Requests
import CSystems.RequestQueue.Wraparound

open clib.bounded_buffer clib.run clib.ring

namespace csystems.request_queue

variable {c : config} {s s' : state c}

/-- What holds in every state the program reaches before an id overflows. -/
structure Inv (s : state c) : Prop where
  bounds : Bounds s
  ordered : Ordered s.view
  queued : Queued s.view
  numbered : Numbered s.view
  sent : Sent s.view
  processed : Processed s.view

theorem inv_start (c : config) : Inv (start c) where
  bounds := ⟨Nat.zero_le _, fun _ => trivial⟩
  ordered := by
    refine ⟨fun _ _ => rfl, fun _ _ => rfl, ?_, ?_, ?_, ?_, ?_, ?_⟩
    all_goals
      intros
      simp_all [start, state.view, main_t.view]
  queued := ⟨[], ring_nil (List.length_replicate ..) (by decide), rfl, rfl⟩
  numbered := by
    refine ⟨rfl, ?_, fun _ => Nat.zero_le _, rfl, ?_, List.nodup_nil, ?_, ?_⟩
    all_goals simp [start, state.view, client_t.view]
  sent := by
    refine ⟨fun _ => rfl, ?_, rfl, ?_⟩
    all_goals simp [start, state.view, client_t.view, main_t.view]
  processed := by
    refine ⟨fun _ _ _ => rfl, ?_, fun _ => rfl, fun _ => Nat.zero_le _, ?_⟩
    all_goals simp [start, state.view, worker_t.view]

theorem Inv.step {a : action_t c} (h : Inv s) (hfits : c.clients * c.requests < INT_MAX) (hstep : step s a = some s') :
    Inv s' := by
  cases step_refines h.bounds hstep with
  | silent hsilent =>
    have hview := hsilent.view
    exact ⟨hsilent.bounds h.bounds, hview ▸ h.ordered, hview ▸ h.queued, hview ▸ h.numbered, hview ▸ h.sent,
      hview ▸ h.processed⟩
  | effect heffect hbounds =>
    exact ⟨hbounds, h.ordered.step heffect, h.queued.step heffect, h.numbered.step h.ordered hfits heffect,
      h.sent.step h.ordered heffect, h.processed.step h.ordered heffect⟩

theorem reachable_inv (hfits : c.clients * c.requests < INT_MAX) (h : Reachable step (start c) s) : Inv s :=
  h.invariant (inv_start c) fun _ _ _ hinv hstep => hinv.step hfits hstep

/-- A count over a log is the sum of the counts for each thread. -/
theorem sum_countP {n : Nat} {β : Type} (p : β → Bool) (log : List (Fin n × β)) :
    ∑ i, log.countP (fun e => e.1 = i ∧ p e.2) = (log.map Prod.snd).countP p := by
  induction log with
  | nil => simp
  | cons e log ih =>
    simp only [List.countP_cons, Finset.sum_add_distrib, ih, List.map_cons]
    congr 1
    cases p e.2 <;> simp

section Signals

variable (h : Inv s)
include h

theorem Inv.dequeued_issued {r : request_t} (hr : r ∈ s.dequeued.map Prod.snd) : r ∈ s.enqueued := by
  obtain ⟨contents, -, -, henqueued⟩ := h.queued
  have henqueued : s.enqueued = s.dequeued.map Prod.snd ++ contents := henqueued
  rw [henqueued]
  exact List.mem_append_left _ hr

/-- The signals taken out of the queue are those the workers have consumed. -/
theorem Inv.sum_consumed : ∑ i, (s.view.worker i).consumed = (s.dequeued.map Prod.snd).count signal := by
  have hsum := sum_countP (fun r : request_t => r.id = -1) s.dequeued
  have hconsumed : ∑ i, (s.view.worker i).consumed =
      ∑ i, s.dequeued.countP (fun e => e.1 = i ∧ decide (e.2.id = -1)) := by
    refine Finset.sum_congr rfl fun i _ => ?_
    rw [← h.processed.consumed i]
    simp [state.view]
  rw [hconsumed, hsum, List.count]
  refine List.countP_congr fun r hr => ?_
  have hid := h.numbered.id_eq_iff (h.dequeued_issued hr)
  simp [hid]

/-- The signal of a worker that consumed one. -/
theorem Inv.count_signal (i : Fin c.workers) : s.dequeued.count (i, signal) = (s.view.worker i).consumed := by
  have hconsumed : s.dequeued.countP (fun e => e.1 = i ∧ e.2.id = -1) = (s.view.worker i).consumed :=
    h.processed.consumed i
  rw [← hconsumed, List.count]
  refine List.countP_congr fun e he => ?_
  have hid := h.numbered.id_eq_iff (h.dequeued_issued (List.mem_map_of_mem he))
  simp [hid, Prod.ext_iff]

/-- Finished workers have taken one signal each. -/
theorem Inv.count_of_finished (hfinished : ∀ i, (s.view.worker i).status = .finished) :
    (s.dequeued.map Prod.snd).count signal = c.workers := by
  rw [← h.sum_consumed, Finset.sum_congr rfl fun i _ => (h.processed.finished i (hfinished i)).1]
  simp

/-- A signal is the last request in the queue, once `main` has sent one: when all of
them are taken, the queue is empty. -/
theorem Inv.q_count_eq_zero (hpos : 0 < s.view.main.sent)
    (hall : (s.dequeued.map Prod.snd).count signal = s.view.main.sent) : s.q_count = 0 := by
  obtain ⟨contents, -, hcount, henqueued⟩ := h.queued
  have hcount : s.q_count = contents.length := hcount
  have henqueued : s.enqueued = s.dequeued.map Prod.snd ++ contents := henqueued
  have hsignals : s.enqueued.count signal = s.view.main.sent := h.sent.signals
  have hlast : s.enqueued.getLast? = some signal := h.sent.last hpos
  rw [henqueued, List.count_append, hall] at hsignals
  have hnone : signal ∉ contents := List.count_eq_zero.mp (by omega)
  cases contents with
  | nil => exact hcount
  | cons r contents =>
    rw [henqueued, List.getLast?_append_of_ne_nil _ (by simp)] at hlast
    exact absurd (List.mem_of_getLast? hlast) hnone

/-- When the workers are finished, they have processed what they took and is not a
signal. -/
theorem Inv.processed_perm (hfinished : ∀ i, (s.view.worker i).status = .finished) :
    s.processed.Perm (s.dequeued.filter fun e => e.2.id ≠ -1) := by
  refine List.perm_iff_count.mpr fun e => ?_
  by_cases hid : e.2.id = -1
  · have hprocessed : e ∉ s.processed := fun he => h.processed.not_signal e he hid
    have hfiltered : e ∉ s.dequeued.filter fun e => e.2.id ≠ -1 := by simp [hid]
    rw [List.count_eq_zero.mpr hprocessed, List.count_eq_zero.mpr hfiltered]
  · have haccounted : s.dequeued.count e = s.processed.count e + (s.view.worker e.1).unprocessed.count e.2 :=
      h.processed.accounted e.1 e.2 hid
    rw [(h.processed.finished e.1 (hfinished e.1)).2] at haccounted
    rw [List.count_filter (by simp [hid]), haccounted]
    rfl

/-- A request that every client has sent stands in the queue's history once. -/
theorem Inv.enqueued_once (i : Fin c.clients) {k : Nat} (hfinished : (s.view.client i).status = .finished)
    (hk : k < c.requests) : s.enqueued.countP (fun r => r.text = .client (i + 1) (k + 1)) = 1 := by
  have hindexed : s.enqueued.filterMap (index i) = List.range c.requests := by
    rw [← h.sent.finished i hfinished]
    exact h.sent.by_client i
  have hone : (s.enqueued.filterMap (index i)).count k = 1 := by
    rw [hindexed]
    exact List.count_eq_one_of_mem List.nodup_range (List.mem_range.mpr hk)
  rw [List.count_filterMap] at hone
  refine (List.countP_congr fun r _ => ?_).trans hone
  rw [beq_iff_eq, index_eq_some, decide_eq_true_eq]

/-- A request with the text of a client is that client's, and not a signal. -/
theorem Inv.eq_client_request {r : request_t} (hr : r ∈ s.enqueued) {i : Fin c.clients} {k : Nat}
    (htext : r.text = .client (i + 1) (k + 1)) : r = client_request i k r.id ∧ r ∈ s.issued ∧ r.id ≠ -1 := by
  have heq : r = client_request i k r.id := by
    rw [client_request, ← htext]
  have hsignal : r ≠ signal := by
    intro hsignal
    rw [hsignal] at htext
    cases htext
  refine ⟨heq, ?_, fun hid => hsignal ((h.numbered.id_eq_iff hr).mp hid)⟩
  exact (h.numbered.enqueued_issued r hr).resolve_right hsignal

/-- The requests taken from an empty queue are all that were put into it. -/
theorem Inv.dequeued_eq (hempty : s.q_count = 0) : s.dequeued.map Prod.snd = s.enqueued := by
  obtain ⟨contents, -, hcount, henqueued⟩ := h.queued
  have hcount : s.q_count = contents.length := hcount
  have hnil : contents = [] := List.eq_nil_of_length_eq_zero (by omega)
  rw [hnil, List.append_nil] at henqueued
  exact henqueued.symm

theorem Inv.processed_once (hfinished : ∀ i, (s.view.worker i).status = .finished) (hempty : s.q_count = 0)
    {i : Fin c.clients} (hclient : (s.view.client i).status = .finished) {k : Nat} (hk : k < c.requests) :
    ∃ w id, client_request i k id ∈ s.issued ∧
      s.processed.filter (fun e => e.2.text = .client (i + 1) (k + 1)) = [(w, client_request i k id)] := by
  have hperm := h.processed_perm hfinished
  have hdequeued := h.dequeued_eq hempty
  have hone : (s.processed.filter fun e => e.2.text = .client (i + 1) (k + 1)).length = 1 := by
    have hcount := h.enqueued_once i hclient hk
    rw [← hdequeued, List.countP_map] at hcount
    rw [(hperm.filter _).length_eq, ← List.countP_eq_length_filter, List.countP_filter]
    refine (List.countP_congr fun e he => ?_).trans hcount
    have henqueued : e.2 ∈ s.enqueued := hdequeued ▸ List.mem_map_of_mem he
    have hid (htext : e.2.text = .client (i + 1) (k + 1)) := (h.eq_client_request henqueued htext).2.2
    simpa using hid
  obtain ⟨⟨w, r⟩, hfilter⟩ := List.length_eq_one_iff.mp hone
  have hmem : (w, r) ∈ s.processed.filter fun e => e.2.text = .client (i + 1) (k + 1) := by
    rw [hfilter]
    exact List.mem_singleton_self _
  obtain ⟨hprocessed, htext⟩ := List.mem_filter.mp hmem
  have htaken : (w, r) ∈ s.dequeued := List.mem_of_mem_filter (hperm.mem_iff.mp hprocessed)
  have henqueued : r ∈ s.enqueued := hdequeued ▸ List.mem_map_of_mem (f := Prod.snd) htaken
  obtain ⟨heq, hissued, -⟩ := h.eq_client_request henqueued (of_decide_eq_true htext)
  exact ⟨w, r.id, heq ▸ hissued, by rw [hfilter, ← heq]⟩

end Signals

/-- `main` has joined all workers. -/
def main_t.joined (c : config) : main_t → Prop
  | .join_workers i => i = c.workers
  | .finished => True
  | _ => False

/-- The state in which the program should end. -/
structure CleanShutdown (s : state c) : Prop where
  empty : s.q_count = 0
  processed_once : ∀ (i : Fin c.clients) (k : Nat), k < c.requests → ∃ w id, client_request i k id ∈ s.issued ∧
    s.processed.filter (fun e => e.2.text = .client (i + 1) (k + 1)) = [(w, client_request i k id)]
  one_signal : ∀ w, s.dequeued.count (w, signal) = 1

/-- What is expected of the program in every state. -/
structure Correct (s : state c) : Prop where
  defined : s.overflow = false
  count_nonneg : 0 ≤ s.q_count
  count_le : s.q_count ≤ QUEUE_SIZE
  fifo : s.dequeued.map Prod.snd <+: s.enqueued
  ids_distinct : (s.issued.map request_t.id).Nodup
  ids_ne : ∀ r ∈ s.issued, r.id ≠ -1
  shutdown : s.main.joined c → CleanShutdown s

theorem main_t.joined.view {m : main_t} (h : m.joined c) :
    m.view c = ⟨c.workers, c.clients, c.clients, c.workers, c.workers⟩ := by
  cases m with
  | join_workers i =>
    obtain rfl : i = c.workers := h
    rfl
  | finished => rfl
  | _ => exact h.elim

theorem Inv.clean_shutdown (h : Inv s) (hworkers : 1 ≤ c.workers) (hjoined : s.main.joined c) : CleanShutdown s := by
  have hmain : s.view.main = ⟨c.workers, c.clients, c.clients, c.workers, c.workers⟩ := hjoined.view
  have hfinished (i : Fin c.workers) : (s.view.worker i).status = .finished :=
    h.ordered.worker_joined i (by rw [hmain]; exact i.isLt)
  have hclients (i : Fin c.clients) : (s.view.client i).status = .finished :=
    h.ordered.client_joined i (by rw [hmain]; exact i.isLt)
  have hall := h.count_of_finished hfinished
  have hempty : s.q_count = 0 := h.q_count_eq_zero (by rw [hmain]; exact hworkers) (by rw [hall, hmain])
  refine ⟨hempty, ?_, ?_⟩
  · intro i k hk
    exact h.processed_once hfinished hempty (hclients i) hk
  · intro w
    rw [h.count_signal]
    exact (h.processed.finished w (hfinished w)).1

/-- In whatever order the threads run, the program is correct in every state, if the
ids do not overflow. -/
theorem request_queue_correct (hworkers : 1 ≤ c.workers) (hfits : c.clients * c.requests < INT_MAX)
    (h : Reachable step (start c) s) : Correct s := by
  have hinv := reachable_inv hfits h
  obtain ⟨contents, hring, hcount, henqueued⟩ := hinv.queued
  have hcount : s.q_count = contents.length := hcount
  have hlength := hring.length_le
  refine ⟨hinv.numbered.defined, by omega, by omega, ⟨contents, henqueued.symm⟩, hinv.numbered.distinct, ?_,
    hinv.clean_shutdown hworkers⟩
  intro r hr hid
  have hpositive := (hinv.numbered.positive r hr).1
  rw [hid, show (-1 : Int32).toInt = -1 from rfl] at hpositive
  omega

/-- Both workers sleep, the first one twice, until the first requests of the two clients
wake them. -/
def short_run (c : config) (w v : Fin c.workers) (i j : Fin c.clients) : List (action_t c) :=
  List.flatten [List.replicate 6 (.run .main none),
    List.replicate 2 (.run (.worker w) none), List.replicate 2 (.run (.worker v) none),
    [.spurious (.worker w)], List.replicate 2 (.run (.worker w) none),
    List.replicate 5 (.run (.client i) none), [.run (.client i) (some (.worker w)), .run (.client i) none],
    List.replicate 5 (.run (.client j) none), [.run (.client j) (some (.worker v)), .run (.client j) none],
    List.replicate 8 (.run (.client i) none), List.replicate 8 (.run (.client j) none),
    List.replicate 5 (.run (.worker w) none), List.replicate 10 (.run (.worker v) none),
    List.replicate 5 (.run (.worker w) none), List.replicate 14 (.run .main none),
    List.replicate 5 (.run (.worker w) none), List.replicate 5 (.run (.worker v) none),
    List.replicate 3 (.run .main none)]

theorem request_queue_correct_short : ∃ s : state ⟨2, 2, 2⟩, Reachable step (start _) s ∧ s.main = .finished ∧
    s.processed = [(0, ⟨1, .client 1 1⟩), (1, ⟨2, .client 2 1⟩), (1, ⟨3, .client 1 2⟩), (0, ⟨4, .client 2 2⟩)] ∧
    Correct s := by
  have hsteps : ∃ s, steps step (start _) (short_run ⟨2, 2, 2⟩ 0 1 0 1) = some s ∧ s.main = .finished ∧
      s.processed = [(0, ⟨1, .client 1 1⟩), (1, ⟨2, .client 2 1⟩), (1, ⟨3, .client 1 2⟩), (0, ⟨4, .client 2 2⟩)] :=
    ⟨_, rfl, by decide, by decide⟩
  obtain ⟨s, hsteps, hmain, hprocessed⟩ := hsteps
  have hreach := Reachable.start.steps hsteps
  exact ⟨s, hreach, hmain, hprocessed, request_queue_correct (by decide) (by decide) hreach⟩

theorem request_queue_reuses_signal :
    ∃ s : state wide, Reachable step (start wide) s ∧ (∃ r ∈ s.issued, r.id = -1) ∧ ¬ Correct s := by
  obtain ⟨s, hreach, r, hr, hid⟩ := wide_issues_signal
  exact ⟨s, hreach, ⟨r, hr, hid⟩, fun hcorrect => hcorrect.ids_ne r hr hid⟩

end csystems.request_queue
