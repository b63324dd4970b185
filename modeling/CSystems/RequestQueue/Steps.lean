import CSystems.RequestQueue.Program

open clib.bounded_buffer clib.run

namespace csystems.request_queue

variable {c : config}

/-! What the threads have done so far, without the way they wait for each other. -/

inductive status_t where
  | absent
  | running
  | finished
  deriving DecidableEq, Repr

/-- How many threads `main` has created and joined, and how many shutdown signals it
has put into the queue. -/
structure main_view where
  created_workers : Nat
  created_clients : Nat
  joined_clients : Nat
  sent : Nat
  joined_workers : Nat
  deriving DecidableEq, Repr

/-- How many requests the client has put into the queue, how many ids it has taken,
and the number and the id of the request it is about to put into the queue. -/
structure client_view where
  status : status_t
  sent : Nat
  taken : Nat
  current : Option (Nat × Int32)
  deriving DecidableEq, Repr

/-- How many shutdown signals the worker has consumed, and the requests it has taken
but not processed. -/
structure worker_view where
  status : status_t
  consumed : Nat
  unprocessed : List request_t
  deriving DecidableEq, Repr

structure view_t (c : config) where
  queue : List request_t
  q_head : Nat
  q_tail : Nat
  q_count : Int
  next_request_id : Int32
  overflow : Bool
  issued : List request_t
  enqueued : List request_t
  dequeued : List (Fin c.workers × request_t)
  processed : List (Fin c.workers × request_t)
  main : main_view
  client : Fin c.clients → client_view
  worker : Fin c.workers → worker_view

/-- The request was put into the queue in the present round of the loop. -/
def stored : stage → Bool
  | .acted | .signalled => true
  | _ => false

def main_t.view (c : config) : main_t → main_view
  | .create_workers i => ⟨i, 0, 0, 0, 0⟩
  | .create_clients i => ⟨c.workers, i, 0, 0, 0⟩
  | .join_clients i => ⟨c.workers, c.clients, i, 0, 0⟩
  | .send i => ⟨c.workers, c.clients, c.clients, i, 0⟩
  | .sending i at_ => ⟨c.workers, c.clients, c.clients, if stored at_ then i + 1 else i, 0⟩
  | .join_workers i => ⟨c.workers, c.clients, c.clients, c.workers, i⟩
  | .finished => ⟨c.workers, c.clients, c.clients, c.workers, c.workers⟩

def client_t.view (c : config) : client_t → client_view
  | .absent => ⟨.absent, 0, 0, none⟩
  | .loop k | .taking_id k => ⟨.running, k, k, none⟩
  | .took_id k id => ⟨.running, k, k + 1, some (k, id)⟩
  | .enqueuing k id at_ =>
    if stored at_ then ⟨.running, k + 1, k + 1, none⟩ else ⟨.running, k, k + 1, some (k, id)⟩
  | .finished => ⟨.finished, c.requests, c.requests, none⟩

/-- A worker that has taken a request. -/
def holding (req : request_t) : worker_view :=
  if req.id = -1 then ⟨.running, 1, []⟩ else ⟨.running, 0, [req]⟩

def worker_t.view : worker_t → worker_view
  | .absent => ⟨.absent, 0, []⟩
  | .lock | .locked | .asleep | .woken => ⟨.running, 0, []⟩
  | .took req | .signalled req | .received req => holding req
  | .finished => ⟨.finished, 1, []⟩

def state.view (s : state c) : view_t c where
  queue := s.queue
  q_head := s.q_head
  q_tail := s.q_tail
  q_count := s.q_count
  next_request_id := s.next_request_id
  overflow := s.overflow
  issued := s.issued
  enqueued := s.enqueued
  dequeued := s.dequeued
  processed := s.processed
  main := s.main.view c
  client i := (s.client i).view c
  worker i := (s.worker i).view

namespace view_t

def set_client (v : view_t c) (i : Fin c.clients) (p : client_view) : view_t c :=
  { v with client := Function.update v.client i p }

def set_worker (v : view_t c) (i : Fin c.workers) (p : worker_view) : view_t c :=
  { v with worker := Function.update v.worker i p }

def store (v : view_t c) (request : request_t) : view_t c :=
  { v with
    queue := v.queue.set v.q_tail request
    q_tail := (v.q_tail + 1) % QUEUE_SIZE
    q_count := v.q_count + 1
    enqueued := v.enqueued ++ [request] }

end view_t

/-- What the program does, step by step, where the waiting is left out. -/
inductive Effect (v : view_t c) : view_t c → Prop where
  | create_worker (i : Fin c.workers) (h : v.main.created_workers = i) :
    Effect v { v.set_worker i ⟨.running, 0, []⟩ with main := { v.main with created_workers := i + 1 } }
  | create_client (i : Fin c.clients) (h : v.main.created_clients = i) :
    Effect v { v.set_client i ⟨.running, 0, 0, none⟩ with main := { v.main with created_clients := i + 1 } }
  | join_client (i : Fin c.clients) (h : v.main.joined_clients = i) (hfinished : (v.client i).status = .finished) :
    Effect v { v with main := { v.main with joined_clients := i + 1 } }
  | join_worker (i : Fin c.workers) (h : v.main.joined_workers = i) (hsent : v.main.sent = c.workers)
    (hfinished : (v.worker i).status = .finished) :
    Effect v { v with main := { v.main with joined_workers := i + 1 } }
  | take_id (i : Fin c.clients) (k : Nat) (h : v.client i = ⟨.running, k, k, none⟩) (hk : k < c.requests) :
    Effect v { v.set_client i ⟨.running, k, k + 1, some (k, v.next_request_id)⟩ with
      next_request_id := v.next_request_id + 1
      overflow := v.overflow || v.next_request_id == Int32.maxValue
      issued := v.issued ++ [client_request i k v.next_request_id] }
  | client_store (i : Fin c.clients) (k : Nat) (id : Int32) (h : v.client i = ⟨.running, k, k + 1, some (k, id)⟩)
    (hroom : v.q_count ≠ QUEUE_SIZE) :
    Effect v ((v.store (client_request i k id)).set_client i ⟨.running, k + 1, k + 1, none⟩)
  | main_store (h : v.main.sent < c.workers) (hclients : v.main.joined_clients = c.clients)
    (hroom : v.q_count ≠ QUEUE_SIZE) :
    Effect v { v.store signal with main := { v.main with sent := v.main.sent + 1 } }
  | take (i : Fin c.workers) (req : request_t) (h : v.worker i = ⟨.running, 0, []⟩) (hcount : v.q_count ≠ 0)
    (hget : v.queue[v.q_head]? = some req) :
    Effect v { v.set_worker i (holding req) with
      q_head := (v.q_head + 1) % QUEUE_SIZE
      q_count := v.q_count - 1
      dequeued := v.dequeued ++ [(i, req)] }
  | process (i : Fin c.workers) (req : request_t) (h : v.worker i = ⟨.running, 0, [req]⟩) (hid : req.id ≠ -1) :
    Effect v { v.set_worker i ⟨.running, 0, []⟩ with processed := v.processed ++ [(i, req)] }
  | finish_client (i : Fin c.clients) (h : v.client i = ⟨.running, c.requests, c.requests, none⟩) :
    Effect v (v.set_client i ⟨.finished, c.requests, c.requests, none⟩)
  | finish_worker (i : Fin c.workers) (h : v.worker i = ⟨.running, 1, []⟩) :
    Effect v (v.set_worker i ⟨.finished, 1, []⟩)

/-- The loop counters stay within their bounds. -/
def main_t.Bounded (c : config) : main_t → Prop
  | .create_workers i => i ≤ c.workers
  | .create_clients i => i ≤ c.clients
  | .join_clients i => i ≤ c.clients
  | .send i => i ≤ c.workers
  | .sending i _ => i < c.workers
  | .join_workers i => i ≤ c.workers
  | .finished => True

def client_t.Bounded (c : config) : client_t → Prop
  | .loop k => k ≤ c.requests
  | .taking_id k | .took_id k _ | .enqueuing k _ _ => k < c.requests
  | _ => True

structure Bounds (s : state c) : Prop where
  main : s.main.Bounded c
  client : ∀ i, (s.client i).Bounded c

section Views

variable (s : state c)

@[simp] theorem view_set_client (i : Fin c.clients) (p : client_t) :
    (s.set_client i p).view = s.view.set_client i (p.view c) := by
  have hclient : (fun j => (Function.update s.client i p j).view c) =
      Function.update (fun j => (s.client j).view c) i (p.view c) := by
    funext j
    exact Function.apply_update (fun _ p => client_t.view c p) s.client i p j
  simp only [state.view, state.set_client, view_t.set_client, hclient]

@[simp] theorem view_set_worker (i : Fin c.workers) (p : worker_t) :
    (s.set_worker i p).view = s.view.set_worker i p.view := by
  have hworker : (fun j => (Function.update s.worker i p j).view) =
      Function.update (fun j => (s.worker j).view) i p.view := by
    funext j
    exact Function.apply_update (fun _ p => worker_t.view p) s.worker i p j
  simp only [state.view, state.set_worker, view_t.set_worker, hworker]

theorem set_client_view {i : Fin c.clients} {p : client_view} (h : p = s.view.client i) :
    s.view.set_client i p = s.view := by
  rw [view_t.set_client, h, Function.update_eq_self]

theorem set_worker_view {i : Fin c.workers} {p : worker_view} (h : p = s.view.worker i) :
    s.view.set_worker i p = s.view := by
  rw [view_t.set_worker, h, Function.update_eq_self]

theorem view_main {s : state c} {m : main_t} (h : s.main = m) : s.view.main = m.view c := congrArg (main_t.view c) h

theorem view_client {s : state c} {i : Fin c.clients} {p : client_t} (h : s.client i = p) :
    s.view.client i = p.view c := congrArg (client_t.view c) h

theorem view_worker {s : state c} {i : Fin c.workers} {p : worker_t} (h : s.worker i = p) :
    s.view.worker i = p.view := congrArg worker_t.view h

theorem view_set_main (m : main_t) : { s with main := m }.view = { s.view with main := m.view c } := rfl

theorem set_main_view {m : main_view} (h : m = s.view.main) : { s.view with main := m } = s.view := by rw [h]

end Views

section Steps

variable {s s' : state c} {t : thread c} {wake : Option (thread c)}

theorem Bounds.set_client (hb : Bounds s) (i : Fin c.clients) {p : client_t} (hp : p.Bounded c) :
    Bounds (s.set_client i p) := by
  refine ⟨hb.main, fun j => ?_⟩
  by_cases hji : j = i
  · subst hji
    simpa [state.set_client] using hp
  · simpa [state.set_client, Function.update_of_ne hji] using hb.client j

theorem Bounds.set_main (hb : Bounds s) {m : main_t} (hm : m.Bounded c) : Bounds { s with main := m } :=
  ⟨hm, hb.client⟩

/-- A step that only moves the waiting on, and keeps the bounds. -/
structure Silent (s s' : state c) : Prop where
  view : s'.view = s.view
  bounds : Bounds s → Bounds s'

theorem Silent.refl (s : state c) : Silent s s := ⟨rfl, id⟩

theorem silent_set_client {i : Fin c.clients} {p : client_t} (hview : p.view c = (s.client i).view c)
    (hbounded : (s.client i).Bounded c → p.Bounded c) : Silent s (s.set_client i p) := by
  refine ⟨?_, fun hb => hb.set_client i (hbounded (hb.client i))⟩
  rw [view_set_client]
  exact set_client_view s hview

theorem silent_set_worker {i : Fin c.workers} {p : worker_t} (hview : p.view = (s.worker i).view) :
    Silent s (s.set_worker i p) := by
  refine ⟨?_, fun hb => ⟨hb.main, hb.client⟩⟩
  rw [view_set_worker]
  exact set_worker_view s hview

theorem silent_set_main {m : main_t} (hview : m.view c = s.main.view c) (hbounded : s.main.Bounded c → m.Bounded c) :
    Silent s { s with main := m } := by
  refine ⟨?_, fun hb => hb.set_main (hbounded hb.main)⟩
  rw [view_set_main]
  exact set_main_view s hview

theorem silent_wake_up (h : s.wake_up t = some s') : Silent s s' := by
  cases t with
  | main =>
    simp only [state.wake_up] at h
    split at h
    · next i hmain =>
      obtain rfl := Option.some.inj h
      apply silent_set_main <;> rw [hmain]
      · rfl
      · exact id
    · cases h
  | client i =>
    simp only [state.wake_up] at h
    split at h
    · next k id hclient =>
      obtain rfl := Option.some.inj h
      apply silent_set_client <;> rw [hclient]
      · rfl
      · exact fun h => h
    · cases h
  | worker i =>
    simp only [state.wake_up] at h
    split at h
    · next hworker =>
      obtain rfl := Option.some.inj h
      apply silent_set_worker
      rw [hworker]
      rfl
    · cases h

theorem signal_not_empty_cases (h : signal_not_empty s wake = some s') :
    (∃ i, s.wake_up (.worker i) = some s') ∨ ((∀ i, s.worker i ≠ .asleep) ∧ s' = s) := by
  unfold signal_not_empty at h
  split at h
  · next i => exact Or.inl ⟨i, h⟩
  · cases h
  · split at h
    · next hnone => exact Or.inr ⟨hnone, (Option.some.inj h).symm⟩
    · cases h

theorem signal_not_full_cases (h : signal_not_full s wake = some s') :
    (∃ t, (∀ i, t ≠ .worker i) ∧ s.wake_up t = some s') ∨
      (s.main.asleep = false ∧ (∀ i, (s.client i).asleep = false) ∧ s' = s) := by
  unfold signal_not_full at h
  split at h
  · cases h
  · next t hne => exact Or.inl ⟨t, fun i heq => hne i (by rw [heq]), h⟩
  · split at h
    · next hnone => exact Or.inr ⟨hnone.1, hnone.2, (Option.some.inj h).symm⟩
    · cases h

/-- What a step in `enqueue` does. -/
theorem enqueue_cases {request : request_t} {at_ : stage} {next : Option stage}
    (h : enqueue s t request wake at_ = some (s', next)) :
    (at_ = .locked ∧ s.q_count ≠ QUEUE_SIZE ∧ s' = store s request ∧ next = some .acted) ∨
      (Silent s s' ∧ ((∃ st, next = some st ∧ stored st = stored at_) ∨ (next = none ∧ at_ = .signalled))) := by
  cases at_ with
  | lock =>
    simp only [enqueue] at h
    split at h
    · obtain ⟨rfl, rfl⟩ := Prod.mk.inj (Option.some.inj h)
      exact Or.inr ⟨⟨rfl, fun hb => ⟨hb.main, hb.client⟩⟩, Or.inl ⟨_, rfl, rfl⟩⟩
    · cases h
  | woken =>
    simp only [enqueue] at h
    split at h
    · obtain ⟨rfl, rfl⟩ := Prod.mk.inj (Option.some.inj h)
      exact Or.inr ⟨⟨rfl, fun hb => ⟨hb.main, hb.client⟩⟩, Or.inl ⟨_, rfl, rfl⟩⟩
    · cases h
  | locked =>
    simp only [enqueue] at h
    split at h
    · obtain ⟨rfl, rfl⟩ := Prod.mk.inj (Option.some.inj h)
      exact Or.inr ⟨⟨rfl, fun hb => ⟨hb.main, hb.client⟩⟩, Or.inl ⟨_, rfl, rfl⟩⟩
    · next hroom =>
      obtain ⟨rfl, rfl⟩ := Prod.mk.inj (Option.some.inj h)
      exact Or.inl ⟨rfl, hroom, rfl, rfl⟩
  | asleep => cases h
  | acted =>
    obtain ⟨s₁, hsignal, heq⟩ := Option.map_eq_some_iff.mp h
    obtain ⟨rfl, rfl⟩ := Prod.mk.inj heq
    refine Or.inr ⟨?_, Or.inl ⟨_, rfl, rfl⟩⟩
    obtain ⟨i, hwake⟩ | ⟨-, rfl⟩ := signal_not_empty_cases hsignal
    · exact silent_wake_up hwake
    · exact .refl s₁
  | signalled =>
    obtain ⟨rfl, rfl⟩ := Prod.mk.inj (Option.some.inj h)
    exact Or.inr ⟨⟨rfl, fun hb => ⟨hb.main, hb.client⟩⟩, Or.inr ⟨rfl, rfl⟩⟩

/-- A step of the program is a step of the abstract program, or only moves the waiting
on. -/
inductive Refines (s s' : state c) : Prop where
  | silent (h : Silent s s')
  | effect (h : Effect s.view s'.view) (hbounds : Bounds s')

theorem main_step_refines (hb : Bounds s) (h : main_step s wake = some s') : Refines s s' := by
  have hbound := hb.main
  unfold main_step at h
  split at h
  · next i hmain =>
    rw [hmain] at hbound
    have hview : s.view.main = ⟨i, 0, 0, 0, 0⟩ := view_main hmain
    split at h
    · next hi =>
      obtain rfl := Option.some.inj h
      refine .effect ?_ ⟨Nat.succ_le_of_lt hi, hb.client⟩
      have heffect := Effect.create_worker (v := s.view) ⟨i, hi⟩ (by rw [hview])
      rw [hview] at heffect
      rw [view_set_main (s.set_worker ⟨i, hi⟩ .lock), view_set_worker]
      exact heffect
    · next hi =>
      obtain rfl := Option.some.inj h
      refine .silent (silent_set_main ?_ fun _ => Nat.zero_le _)
      have hle : i ≤ c.workers := hbound
      rw [hmain, main_t.view, main_t.view, show i = c.workers by omega]
  · next i hmain =>
    rw [hmain] at hbound
    have hview : s.view.main = ⟨c.workers, i, 0, 0, 0⟩ := view_main hmain
    split at h
    · next hi =>
      obtain rfl := Option.some.inj h
      refine .effect ?_ ((hb.set_client ⟨i, hi⟩ (Nat.zero_le _)).set_main (Nat.succ_le_of_lt hi))
      have heffect := Effect.create_client (v := s.view) ⟨i, hi⟩ (by rw [hview])
      rw [hview] at heffect
      rw [view_set_main (s.set_client ⟨i, hi⟩ (.loop 0)), view_set_client]
      exact heffect
    · next hi =>
      obtain rfl := Option.some.inj h
      refine .silent (silent_set_main ?_ fun _ => Nat.zero_le _)
      have hle : i ≤ c.clients := hbound
      rw [hmain, main_t.view, main_t.view, show i = c.clients by omega]
  · next i hmain =>
    rw [hmain] at hbound
    have hview : s.view.main = ⟨c.workers, c.clients, i, 0, 0⟩ := view_main hmain
    split at h
    · next hi =>
      split at h
      · next hfinished =>
        obtain rfl := Option.some.inj h
        refine .effect ?_ (hb.set_main (Nat.succ_le_of_lt hi))
        have hstatus : (s.view.client ⟨i, hi⟩).status = .finished :=
          congrArg client_view.status (view_client hfinished)
        have heffect := Effect.join_client (v := s.view) ⟨i, hi⟩ (by rw [hview]) hstatus
        rw [hview] at heffect
        exact heffect
      · cases h
    · next hi =>
      obtain rfl := Option.some.inj h
      refine .silent (silent_set_main ?_ fun _ => Nat.zero_le _)
      have hle : i ≤ c.clients := hbound
      rw [hmain, main_t.view, main_t.view, show i = c.clients by omega]
  · next i hmain =>
    rw [hmain] at hbound
    obtain rfl := Option.some.inj h
    have hle : i ≤ c.workers := hbound
    split
    · next hi =>
      refine .silent (silent_set_main ?_ fun _ => hi)
      rw [hmain]
      rfl
    · next hi =>
      refine .silent (silent_set_main ?_ fun _ => Nat.zero_le _)
      rw [hmain, main_t.view, main_t.view, show i = c.workers by omega]
  · next i at_ hmain =>
    rw [hmain] at hbound
    obtain ⟨⟨s₁, next⟩, henqueue, rfl⟩ := Option.map_eq_some_iff.mp h
    obtain ⟨rfl, hroom, rfl, rfl⟩ | ⟨hsilent, hnext⟩ := enqueue_cases henqueue
    · have hview : s.view.main = ⟨c.workers, c.clients, c.clients, i, 0⟩ := view_main hmain
      refine .effect ?_ ⟨hbound, hb.client⟩
      have heffect := Effect.main_store (v := s.view) (by rw [hview]; exact hbound) (by rw [hview]) hroom
      rw [hview] at heffect
      exact heffect
    · refine .silent ⟨?_, fun hb => (hsilent.bounds hb).set_main ?_⟩
      · rw [view_set_main, hsilent.view]
        apply set_main_view
        obtain ⟨st, rfl, hst⟩ | ⟨rfl, rfl⟩ := hnext
        · rw [view_main hmain, main_t.view, main_t.view, hst]
        · rw [view_main hmain]
          rfl
      · obtain ⟨st, rfl, -⟩ | ⟨rfl, -⟩ := hnext
        · exact hbound
        · exact Nat.succ_le_of_lt hbound
  · next i hmain =>
    rw [hmain] at hbound
    have hview : s.view.main = ⟨c.workers, c.clients, c.clients, c.workers, i⟩ := view_main hmain
    split at h
    · next hi =>
      split at h
      · next hfinished =>
        obtain rfl := Option.some.inj h
        refine .effect ?_ (hb.set_main (Nat.succ_le_of_lt hi))
        have hstatus : (s.view.worker ⟨i, hi⟩).status = .finished :=
          congrArg worker_view.status (view_worker hfinished)
        have heffect := Effect.join_worker (v := s.view) ⟨i, hi⟩ (by rw [hview]) (by rw [hview]) hstatus
        rw [hview] at heffect
        exact heffect
      · cases h
    · next hi =>
      obtain rfl := Option.some.inj h
      refine .silent (silent_set_main ?_ fun _ => trivial)
      have hle : i ≤ c.workers := hbound
      rw [hmain, main_t.view, main_t.view, show i = c.workers by omega]
  · cases h

theorem client_step_refines (hb : Bounds s) {i : Fin c.clients} (h : client_step s i wake = some s') :
    Refines s s' := by
  have hbound := hb.client i
  unfold client_step at h
  split at h
  · cases h
  · next k hclient =>
    rw [hclient] at hbound
    split at h
    · next hk =>
      split at h
      · obtain rfl := Option.some.inj h
        have hsilent : Silent s (s.set_client i (.taking_id k)) := by
          apply silent_set_client <;> rw [hclient]
          · rfl
          · exact fun _ => hk
        exact .silent ⟨hsilent.view, fun hb => ⟨(hsilent.bounds hb).main, (hsilent.bounds hb).client⟩⟩
      · cases h
    · next hk =>
      obtain rfl := Option.some.inj h
      have hle : k ≤ c.requests := hbound
      obtain rfl : k = c.requests := by omega
      refine .effect ?_ (hb.set_client i trivial)
      rw [view_set_client]
      exact .finish_client i (view_client hclient)
  · next k hclient =>
    rw [hclient] at hbound
    obtain rfl := Option.some.inj h
    have hbounds := hb.set_client i (show (client_t.took_id k s.next_request_id).Bounded c from hbound)
    refine .effect ?_ ⟨hbounds.main, hbounds.client⟩
    have heffect := Effect.take_id (v := s.view) i k (view_client hclient) hbound
    have hview := view_set_client s i (.took_id k s.next_request_id)
    have heq : (take_id s i k).view = { (s.set_client i (.took_id k s.next_request_id)).view with
        next_request_id := s.next_request_id + 1
        overflow := s.overflow || s.next_request_id == Int32.maxValue
        issued := s.issued ++ [client_request i k s.next_request_id] } := rfl
    rw [heq, hview]
    exact heffect
  · next k id hclient =>
    obtain rfl := Option.some.inj h
    have hsilent : Silent s (s.set_client i (.enqueuing k id .lock)) := by
      apply silent_set_client <;> rw [hclient]
      · rfl
      · exact fun h => h
    exact .silent ⟨hsilent.view, fun hb => ⟨(hsilent.bounds hb).main, (hsilent.bounds hb).client⟩⟩
  · next k id at_ hclient =>
    rw [hclient] at hbound
    obtain ⟨⟨s₁, next⟩, henqueue, rfl⟩ := Option.map_eq_some_iff.mp h
    obtain ⟨rfl, hroom, rfl, rfl⟩ | ⟨hsilent, hnext⟩ := enqueue_cases henqueue
    · have hstored : Bounds (store s (client_request i k id)) := ⟨hb.main, hb.client⟩
      refine .effect ?_ (hstored.set_client i hbound)
      have heffect := Effect.client_store (v := s.view) i k id (view_client hclient) hroom
      rw [view_set_client]
      exact heffect
    · refine .silent ⟨?_, fun hb => (hsilent.bounds hb).set_client i ?_⟩
      · rw [view_set_client, hsilent.view]
        apply set_client_view
        obtain ⟨st, rfl, hst⟩ | ⟨rfl, rfl⟩ := hnext
        · rw [view_client hclient, client_t.view, client_t.view, hst]
        · rw [view_client hclient]
          rfl
      · obtain ⟨st, rfl, -⟩ | ⟨rfl, -⟩ := hnext
        · exact hbound
        · exact Nat.succ_le_of_lt hbound
  · cases h

theorem worker_step_refines (hb : Bounds s) {i : Fin c.workers} (h : worker_step s i wake = some s') :
    Refines s s' := by
  unfold worker_step at h
  split at h
  · cases h
  · next hworker =>
    split at h
    · obtain rfl := Option.some.inj h
      have hsilent : Silent s (s.set_worker i .locked) := silent_set_worker (by rw [hworker]; rfl)
      exact .silent ⟨hsilent.view, fun hb => ⟨hb.main, hb.client⟩⟩
    · cases h
  · next hworker =>
    split at h
    · obtain rfl := Option.some.inj h
      have hsilent : Silent s (s.set_worker i .locked) := silent_set_worker (by rw [hworker]; rfl)
      exact .silent ⟨hsilent.view, fun hb => ⟨hb.main, hb.client⟩⟩
    · cases h
  · next hworker =>
    split at h
    · obtain rfl := Option.some.inj h
      have hsilent : Silent s (s.set_worker i .asleep) := silent_set_worker (by rw [hworker]; rfl)
      exact .silent ⟨hsilent.view, fun hb => ⟨hb.main, hb.client⟩⟩
    · next hcount =>
      obtain ⟨req, hget, heq⟩ := Option.bind_eq_some_iff.mp h
      obtain rfl := Option.some.inj heq
      refine .effect ?_ ⟨hb.main, hb.client⟩
      have heffect := Effect.take (v := s.view) i req (view_worker hworker) hcount hget
      have heq : (take s i req).view = { (s.set_worker i (.took req)).view with
          q_head := (s.q_head + 1) % QUEUE_SIZE
          q_count := s.q_count - 1
          dequeued := s.dequeued ++ [(i, req)] } := rfl
      rw [heq, view_set_worker]
      exact heffect
  · cases h
  · next req hworker =>
    obtain ⟨s₁, hsignal, rfl⟩ := Option.map_eq_some_iff.mp h
    have hsilent : Silent s s₁ := by
      obtain ⟨t, -, hwake⟩ | ⟨-, -, rfl⟩ := signal_not_full_cases hsignal
      · exact silent_wake_up hwake
      · exact .refl s₁
    refine .silent ⟨?_, fun hb => ⟨(hsilent.bounds hb).main, (hsilent.bounds hb).client⟩⟩
    rw [view_set_worker, hsilent.view]
    apply set_worker_view
    rw [view_worker hworker]
    rfl
  · next req hworker =>
    obtain rfl := Option.some.inj h
    have hsilent : Silent s (s.set_worker i (.received req)) := silent_set_worker (by rw [hworker]; rfl)
    exact .silent ⟨hsilent.view, fun hb => ⟨hb.main, hb.client⟩⟩
  · next req hworker =>
    split at h
    · next hid =>
      obtain rfl := Option.some.inj h
      refine .effect ?_ ⟨hb.main, hb.client⟩
      rw [view_set_worker]
      exact .finish_worker i ((view_worker hworker).trans (if_pos hid))
    · next hid =>
      obtain rfl := Option.some.inj h
      refine .effect ?_ ⟨hb.main, hb.client⟩
      have hholding : s.view.worker i = ⟨.running, 0, [req]⟩ := (view_worker hworker).trans (if_neg hid)
      have heffect := Effect.process (v := s.view) i req hholding hid
      have heq : (process s i req).view = { (s.set_worker i .lock).view with
          processed := s.processed ++ [(i, req)] } := rfl
      rw [heq, view_set_worker]
      exact heffect
  · cases h

theorem step_refines {a : action_t c} (hb : Bounds s) (h : step s a = some s') : Refines s s' := by
  unfold step at h
  split at h
  · exact main_step_refines hb h
  · exact client_step_refines hb h
  · exact worker_step_refines hb h
  · exact .silent (silent_wake_up h)

end Steps

end csystems.request_queue
