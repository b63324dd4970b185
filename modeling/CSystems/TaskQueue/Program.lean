import Mathlib.Logic.Function.Basic
import CSystems.Lib.Run

open clib.run

namespace csystems.task_queue

/-- The constants `NUM_WORKERS` and `NUM_TASKS`. -/
structure config where
  workers : Nat
  tasks : Nat

inductive thread (c : config) where
  | main
  | worker (i : Fin c.workers)
  deriving DecidableEq

/-- The next statement of `main`; `i` is the iterator of the loop it is in. -/
inductive main_t where
  | create (i : Nat)
  | lock
  | fill (i : Nat)
  | broadcast
  | unlock
  | join (i : Nat)
  | finished
  deriving DecidableEq, Repr

/-- The next statement of `worker_thread`. -/
inductive worker_t where
  /-- The thread is not created yet. -/
  | absent
  | lock
  /-- The test of `queue.count`, with the lock. -/
  | locked
  | asleep
  | woken
  | took (num : Int)
  | processing (num : Int)
  /-- The test of `queue.count`, without the lock. -/
  | testing
  | finished
  deriving DecidableEq, Repr

/-- The queue and the threads; `taken` are the tasks taken so far, with the worker. -/
structure state (c : config) where
  tasks : List Int
  front : Nat
  rear : Nat
  count : Int
  lock : Option (thread c)
  main : main_t
  worker : Fin c.workers → worker_t
  taken : List (Fin c.workers × Int)

variable {c : config}

def start (c : config) : state c where
  tasks := List.replicate c.tasks 0
  front := 0
  rear := 0
  count := 0
  lock := none
  main := .create 0
  worker _ := .absent
  taken := []

def state.set_worker (s : state c) (i : Fin c.workers) (p : worker_t) : state c :=
  { s with worker := Function.update s.worker i p }

def put (s : state c) (num : Int) : state c :=
  { s with
    tasks := s.tasks.set s.rear num
    rear := (s.rear + 1) % c.tasks
    count := s.count + 1 }

/-- `pthread_cond_broadcast` wakes all sleeping threads. -/
def broadcast (s : state c) : state c :=
  { s with worker := fun i => if s.worker i = .asleep then .woken else s.worker i }

def main_step (s : state c) : Option (state c) :=
  match s.main with
  | .create i =>
    if hi : i < c.workers then some { s.set_worker ⟨i, hi⟩ .lock with main := .create (i + 1) }
    else some { s with main := .lock }
  | .lock => if s.lock = none then some { s with lock := some .main, main := .fill 0 } else none
  | .fill i =>
    if i < c.tasks then some { put s (i + 1) with main := .fill (i + 1) }
    else some { s with main := .broadcast }
  | .broadcast => some { broadcast s with main := .unlock }
  | .unlock => some { s with lock := none, main := .join 0 }
  | .join i =>
    if hi : i < c.workers then
      if s.worker ⟨i, hi⟩ = .finished then some { s with main := .join (i + 1) } else none
    else some { s with main := .finished }
  | .finished => none

def take (s : state c) (i : Fin c.workers) (num : Int) : state c :=
  { s.set_worker i (.took num) with
    front := (s.front + 1) % c.tasks
    count := s.count - 1
    taken := s.taken ++ [(i, num)] }

def worker_step (s : state c) (i : Fin c.workers) : Option (state c) :=
  match s.worker i with
  | .absent => none
  | .lock | .woken =>
    if s.lock = none then some { s.set_worker i .locked with lock := some (.worker i) } else none
  | .locked =>
    if s.count = 0 then some { s.set_worker i .asleep with lock := none }
    else do
      let num ← s.tasks[s.front]?
      some (take s i num)
  | .asleep => none
  | .took num => some { s.set_worker i (.processing num) with lock := none }
  | .processing _ => some (s.set_worker i .testing)
  | .testing => some (s.set_worker i (if s.count = 0 then .finished else .lock))
  | .finished => none

/-- The scheduler's choice: which thread runs, or which worker wakes up without a
broadcast. -/
inductive action_t (c : config) where
  | run (t : thread c)
  | spurious (i : Fin c.workers)

def step (s : state c) : action_t c → Option (state c)
  | .run .main => main_step s
  | .run (.worker i) => worker_step s i
  | .spurious i => if s.worker i = .asleep then some (s.set_worker i .woken) else none

/-- `main` has executed the broadcast. -/
def main_t.has_broadcast : main_t → Bool
  | .unlock | .join _ | .finished => true
  | _ => false

/-- A worker sleeps, and nobody is left to wake it. -/
def Hung (s : state c) : Prop :=
  s.main.has_broadcast = true ∧ s.taken.length = c.tasks ∧ ∃ i, s.worker i = .asleep

end csystems.task_queue
