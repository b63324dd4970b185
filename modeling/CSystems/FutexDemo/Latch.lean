import CSystems.FutexDemo.Counter
import CSystems.Lib.Condition

open clib.condition clib.run

namespace csystems.futex_demo.latches

def SPIN_COUNT : Nat := 1000

/-- A latch. Its count stays between 0 and the `int` it starts from. `wake_issued` is a
history: a thread has called `futex_wake_enhanced` on the latch. -/
structure latch_t where
  count : Int
  futex_var : Int
  wake_issued : Bool
  deriving DecidableEq, Repr

def latch_init (count : Int) : latch_t where
  count := count
  futex_var := 0
  wake_issued := false

/-- The next atomic step of a thread in `latch_wait`. -/
inductive wait_t where
  /-- The load number `i` of `spin_wait_with_backoff`. -/
  | spin (i : Nat)
  /-- The load of the loop. -/
  | load
  /-- The call of `futex_wait_enhanced`. -/
  | wait
  /-- The thread sleeps in the kernel. -/
  | asleep
  deriving DecidableEq, Repr

/-- The next atomic step of a thread in `latch_count_down`. -/
inductive count_down_t where
  | sub
  | store
  | wake
  deriving DecidableEq, Repr

/-- A step of `latch_wait`, with where the thread is afterwards; the inner `none` when it
has returned. A wait may be interrupted (`EINTR`), before the thread sleeps or while it
does; without that, a sleeping thread cannot go on. -/
def latch_wait (latch : latch_t) (interrupted : Bool) : wait_t → Option (Option wait_t)
  | .spin i =>
    if latch.futex_var ≠ 0 then some (some .load)
    else if i + 1 < SPIN_COUNT then some (some (.spin (i + 1)))
    else some (some .load)
  | .load => if latch.futex_var = 0 then some (some .wait) else some none
  | .wait =>
    -- the kernel compares and sleeps in one step, and fails with `EAGAIN` on a changed value
    if interrupted = true ∨ latch.futex_var ≠ 0 then some (some .load) else some (some .asleep)
  | .asleep => if interrupted = true then some (some .load) else none

/-- A step of `latch_count_down`; `none` when the thread has returned. -/
def latch_count_down (latch : latch_t) : count_down_t → latch_t × Option count_down_t
  | .sub =>
    let old_count := latch.count
    ({ latch with count := latch.count - 1 }, if old_count = 1 then some .store else none)
  | .store => ({ latch with futex_var := 1 }, some .wake)
  | .wake => ({ latch with wake_issued := true }, none)

/-- The number of workers, and how often each of them is to increment the counter. -/
structure config where
  workers : Nat
  work_iterations : Fin workers → Int32

/-- The next atomic step of `worker_thread`. -/
inductive worker_thread_t where
  /-- It waits for the start signal. -/
  | starting (at_ : wait_t)
  /-- It performs its work, or has left the loop and is about to add to `work_done`. -/
  | working (w : worker_t)
  | completing (at_ : count_down_t)
  | finished
  deriving DecidableEq, Repr

/-- The next atomic step of `coordinator_thread`. -/
inductive coordinator_t where
  | releasing (at_ : count_down_t)
  | waiting (at_ : wait_t)
  | finished
  deriving DecidableEq, Repr

namespace worker_thread_t

def asleep (p : worker_thread_t) : Bool := p = .starting .asleep

/-- The end of a sleep. -/
def wake : worker_thread_t → worker_thread_t
  | .starting .asleep => .starting .load
  | p => p

/-- The next step of the worker reads or writes `shared_counter`. -/
def touches : worker_thread_t → Bool
  | .working w => w.phase ≠ .finished
  | _ => false

/-- The worker has added to `work_done`. -/
def added : worker_thread_t → Bool
  | .completing _ | .finished => true
  | _ => false

/-- The worker has counted `completion_latch` down. -/
def counted : worker_thread_t → Bool
  | .completing .store | .completing .wake | .finished => true
  | _ => false

end worker_thread_t

namespace coordinator_t

/-- The coordinator after a wake-up of the threads that sleep on `completion_latch`. -/
def wake : coordinator_t → coordinator_t
  | .waiting .asleep => .waiting .load
  | p => p

/-- The coordinator has counted `start_latch` down. -/
def counted : coordinator_t → Bool
  | .releasing .sub => false
  | _ => true

/-- The coordinator has set `futex_var` of `start_latch`. -/
def released : coordinator_t → Bool
  | .releasing .sub | .releasing .store => false
  | _ => true

end coordinator_t

structure state (c : config) where
  shared_counter : Int32
  work_done : Int
  start_latch : latch_t
  completion_latch : latch_t
  worker : Fin c.workers → worker_thread_t
  coordinator : coordinator_t

variable {c : config}

def start (c : config) : state c where
  shared_counter := 0
  work_done := 0
  start_latch := latch_init 1
  completion_latch := latch_init c.workers
  worker _ := .starting (.spin 0)
  coordinator := .releasing .sub

def state.set_worker (s : state c) (i : Fin c.workers) (p : worker_thread_t) : state c :=
  { s with worker := Function.update s.worker i p }

/-- The worker after a step of `latch_count_down`, and whom the step wakes. -/
def worker_count_down (s : state c) (i : Fin c.workers) (at_ : count_down_t) : state c :=
  let (latch, next) := latch_count_down s.completion_latch at_
  { s.set_worker i (match next with
      | some at_ => .completing at_
      | none => .finished) with
    completion_latch := latch
    coordinator := if at_ = .wake then s.coordinator.wake else s.coordinator }

/-- A step of a worker. In its work loop a weak compare-exchange may fail spuriously. -/
def worker_thread (s : state c) (i : Fin c.workers) (spurious : Bool) : Option (state c) :=
  match s.worker i with
  | .starting at_ =>
    (latch_wait s.start_latch spurious at_).map fun next =>
      s.set_worker i (match next with
        | some at_ => .starting at_
        | none => .working (loop_head (c.work_iterations i) 0))
  | .working w =>
    if w.phase = .finished then some { s.set_worker i (.completing .sub) with work_done := s.work_done + 1 }
    else
      let (shared_counter, w) := worker_step spurious s.shared_counter w
      some { s.set_worker i (.working w) with shared_counter := shared_counter }
  | .completing at_ => some (worker_count_down s i at_)
  | .finished => none

def coordinator_thread (s : state c) (interrupted : Bool) : Option (state c) :=
  match s.coordinator with
  | .releasing at_ =>
    let (latch, next) := latch_count_down s.start_latch at_
    some { s with
      start_latch := latch
      worker := if at_ = .wake then broadcast worker_thread_t.asleep worker_thread_t.wake s.worker else s.worker
      coordinator := match next with
        | some at_ => .releasing at_
        | none => .waiting (.spin 0) }
  | .waiting at_ =>
    (latch_wait s.completion_latch interrupted at_).map fun next =>
      { s with coordinator := match next with
        | some at_ => .waiting at_
        | none => .finished }
  | .finished => none

/-- Which thread takes a step; the flag makes its compare-exchange fail spuriously, or its
wait end with an interrupt. -/
inductive event_t (c : config) where
  | worker (i : Fin c.workers) (spurious : Bool)
  | coordinator (interrupted : Bool)

def step (s : state c) : event_t c → Option (state c)
  | .worker i spurious => worker_thread s i spurious
  | .coordinator interrupted => coordinator_thread s interrupted

end csystems.futex_demo.latches
