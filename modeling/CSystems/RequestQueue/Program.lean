import Mathlib.Data.Fintype.Sum
import CSystems.Lib.BoundedBuffer
import CSystems.Lib.Run

open clib.bounded_buffer clib.run

namespace csystems.request_queue

def INT_MAX : Nat := 2147483647

def QUEUE_SIZE : Nat := 8

/-- The constants `MAX_CLIENTS`, `REQUESTS_PER_CLIENT` and `WORKER_COUNT`. -/
structure config where
  clients : Nat
  requests : Nat
  workers : Nat

/-- The text of a request: what `snprintf` formats, or the empty text of the shutdown
signal. -/
inductive text_t where
  | client (client_id number : Nat)
  | empty
  deriving DecidableEq, Repr

structure request_t where
  id : Int32
  text : text_t
  deriving DecidableEq, Repr

inductive thread (c : config) where
  | main
  | client (i : Fin c.clients)
  | worker (i : Fin c.workers)
  deriving DecidableEq

/-- The next statement of `main`; `i` is the iterator of the loop it is in. -/
inductive main_t where
  | create_workers (i : Nat)
  | create_clients (i : Nat)
  | join_clients (i : Nat)
  | send (i : Nat)
  | sending (i : Nat) (at_ : stage)
  | join_workers (i : Nat)
  | finished
  deriving DecidableEq, Repr

/-- The next statement of `client_thread`; `k` is its iterator. -/
inductive client_t where
  /-- The thread is not created yet. -/
  | absent
  /-- The test of the loop, and the lock of `id_mutex`. -/
  | loop (k : Nat)
  | taking_id (k : Nat)
  /-- The unlock of `id_mutex`. -/
  | took_id (k : Nat) (id : Int32)
  | enqueuing (k : Nat) (id : Int32) (at_ : stage)
  | finished
  deriving DecidableEq, Repr

/-- The next statement of `worker_thread`. -/
inductive worker_t where
  | absent
  | lock
  | locked
  | asleep
  | woken
  | took (req : request_t)
  | signalled (req : request_t)
  /-- `dequeue` has returned. -/
  | received (req : request_t)
  | finished
  deriving DecidableEq, Repr

/-- The memory and the threads. The lists at the end are a history: the client
requests that got an id, the requests put into the queue, and those taken from it
and processed, with the worker. -/
structure state (c : config) where
  queue : List request_t
  q_head : Nat
  q_tail : Nat
  q_count : Int
  q_mutex : Option (thread c)
  next_request_id : Int32
  id_mutex : Option (thread c)
  /-- An addition has overflowed. The behaviour is undefined from then on; the model
  goes on with the value wrapped around. -/
  overflow : Bool
  main : main_t
  client : Fin c.clients → client_t
  worker : Fin c.workers → worker_t
  issued : List request_t
  enqueued : List request_t
  dequeued : List (Fin c.workers × request_t)
  processed : List (Fin c.workers × request_t)

variable {c : config}

def start (c : config) : state c where
  queue := List.replicate QUEUE_SIZE { id := 0, text := .empty }
  q_head := 0
  q_tail := 0
  q_count := 0
  q_mutex := none
  next_request_id := 1
  id_mutex := none
  overflow := false
  main := .create_workers 0
  client _ := .absent
  worker _ := .absent
  issued := []
  enqueued := []
  dequeued := []
  processed := []

namespace state

def set_client (s : state c) (i : Fin c.clients) (p : client_t) : state c :=
  { s with client := Function.update s.client i p }

def set_worker (s : state c) (i : Fin c.workers) (p : worker_t) : state c :=
  { s with worker := Function.update s.worker i p }

/-- The end of the sleep of a thread, by a signal or spuriously. -/
def wake_up (s : state c) : thread c → Option (state c)
  | .main =>
    match s.main with
    | .sending i .asleep => some { s with main := .sending i .woken }
    | _ => none
  | .client i =>
    match s.client i with
    | .enqueuing k id .asleep => some (s.set_client i (.enqueuing k id .woken))
    | _ => none
  | .worker i => if s.worker i = .asleep then some (s.set_worker i .woken) else none

end state

def main_t.asleep : main_t → Bool
  | .sending _ .asleep => true
  | _ => false

def client_t.asleep : client_t → Bool
  | .enqueuing _ _ .asleep => true
  | _ => false

/-- `pthread_cond_signal(&q_not_empty)`: a sleeping thread is woken, if there is one. -/
def signal_not_empty (s : state c) (wake : Option (thread c)) : Option (state c) :=
  match wake with
  | some (.worker i) => s.wake_up (.worker i)
  | some _ => none
  | none => if ∀ i, s.worker i ≠ .asleep then some s else none

/-- `pthread_cond_signal(&q_not_full)`. -/
def signal_not_full (s : state c) (wake : Option (thread c)) : Option (state c) :=
  match wake with
  | some (.worker _) => none
  | some t => s.wake_up t
  | none => if s.main.asleep = false ∧ ∀ i, (s.client i).asleep = false then some s else none

def store (s : state c) (request : request_t) : state c :=
  { s with
    queue := s.queue.set s.q_tail request
    q_tail := (s.q_tail + 1) % QUEUE_SIZE
    q_count := s.q_count + 1
    enqueued := s.enqueued ++ [request] }

/-- A step of thread `t` in `enqueue`, with the stage it is at afterwards; `none`
when it has returned. -/
def enqueue (s : state c) (t : thread c) (request : request_t) (wake : Option (thread c)) :
    stage → Option (state c × Option stage)
  | .lock | .woken => if s.q_mutex = none then some ({ s with q_mutex := some t }, some .locked) else none
  | .locked =>
    if s.q_count = QUEUE_SIZE then some ({ s with q_mutex := none }, some .asleep)
    else some (store s request, some .acted)
  | .asleep => none
  | .acted => (signal_not_empty s wake).map fun s => (s, some .signalled)
  | .signalled => some ({ s with q_mutex := none }, none)

/-- The request that shuts a worker down. -/
def signal : request_t := { id := -1, text := .empty }

def main_step (s : state c) (wake : Option (thread c)) : Option (state c) :=
  match s.main with
  | .create_workers i =>
    if hi : i < c.workers then some { s.set_worker ⟨i, hi⟩ .lock with main := .create_workers (i + 1) }
    else some { s with main := .create_clients 0 }
  | .create_clients i =>
    if hi : i < c.clients then some { s.set_client ⟨i, hi⟩ (.loop 0) with main := .create_clients (i + 1) }
    else some { s with main := .join_clients 0 }
  | .join_clients i =>
    if hi : i < c.clients then
      if s.client ⟨i, hi⟩ = .finished then some { s with main := .join_clients (i + 1) } else none
    else some { s with main := .send 0 }
  | .send i => some { s with main := if i < c.workers then .sending i .lock else .join_workers 0 }
  | .sending i at_ =>
    (enqueue s .main signal wake at_).map fun (s, next) =>
      { s with main := match next with
        | some at_ => .sending i at_
        | none => .send (i + 1) }
  | .join_workers i =>
    if hi : i < c.workers then
      if s.worker ⟨i, hi⟩ = .finished then some { s with main := .join_workers (i + 1) } else none
    else some { s with main := .finished }
  | .finished => none

/-- Request `k` of client `i`. -/
def client_request (i : Fin c.clients) (k : Nat) (id : Int32) : request_t :=
  { id := id, text := .client (i + 1) (k + 1) }

def take_id (s : state c) (i : Fin c.clients) (k : Nat) : state c :=
  { s.set_client i (.took_id k s.next_request_id) with
    next_request_id := s.next_request_id + 1
    overflow := s.overflow || s.next_request_id == Int32.maxValue
    issued := s.issued ++ [client_request i k s.next_request_id] }

def client_step (s : state c) (i : Fin c.clients) (wake : Option (thread c)) : Option (state c) :=
  match s.client i with
  | .absent => none
  | .loop k =>
    if k < c.requests then
      if s.id_mutex = none then some { s.set_client i (.taking_id k) with id_mutex := some (.client i) } else none
    else some (s.set_client i .finished)
  | .taking_id k => some (take_id s i k)
  | .took_id k id => some { s.set_client i (.enqueuing k id .lock) with id_mutex := none }
  | .enqueuing k id at_ =>
    (enqueue s (.client i) (client_request i k id) wake at_).map fun (s, next) =>
      s.set_client i (match next with
        | some at_ => .enqueuing k id at_
        | none => .loop (k + 1))
  | .finished => none

def take (s : state c) (i : Fin c.workers) (request : request_t) : state c :=
  { s.set_worker i (.took request) with
    q_head := (s.q_head + 1) % QUEUE_SIZE
    q_count := s.q_count - 1
    dequeued := s.dequeued ++ [(i, request)] }

def process (s : state c) (i : Fin c.workers) (req : request_t) : state c :=
  { s.set_worker i .lock with processed := s.processed ++ [(i, req)] }

/-- A step of a worker, in `dequeue` up to `received`. -/
def worker_step (s : state c) (i : Fin c.workers) (wake : Option (thread c)) : Option (state c) :=
  match s.worker i with
  | .absent => none
  | .lock | .woken =>
    if s.q_mutex = none then some { s.set_worker i .locked with q_mutex := some (.worker i) } else none
  | .locked =>
    if s.q_count = 0 then some { s.set_worker i .asleep with q_mutex := none }
    else do
      let request ← s.queue[s.q_head]?
      some (take s i request)
  | .asleep => none
  | .took req => (signal_not_full s wake).map fun s => s.set_worker i (.signalled req)
  | .signalled req => some { s.set_worker i (.received req) with q_mutex := none }
  | .received req =>
    if req.id = -1 then some (s.set_worker i .finished)
    else some (process s i req)
  | .finished => none

/-- The scheduler's choice: which thread runs, and whom it wakes if it signals, or
which thread wakes up without a signal. -/
inductive action_t (c : config) where
  | run (t : thread c) (wake : Option (thread c))
  | spurious (t : thread c)

def step (s : state c) : action_t c → Option (state c)
  | .run .main wake => main_step s wake
  | .run (.client i) wake => client_step s i wake
  | .run (.worker i) wake => worker_step s i wake
  | .spurious t => s.wake_up t

end csystems.request_queue
