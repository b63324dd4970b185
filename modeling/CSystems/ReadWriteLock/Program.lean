import Mathlib.Data.Fintype.Pi
import CSystems.Lib.Condition
import CSystems.Lib.Run

open clib.condition clib.run

namespace csystems.read_write_lock

/-- The counters of a lock. -/
structure rwlock_t where
  readers : Int
  writers : Int
  waiting_writers : Int
  deriving DecidableEq, Repr

def rwlock_init : rwlock_t where
  readers := 0
  writers := 0
  waiting_writers := 0

/-- The two condition variables. -/
inductive condition_t where
  | readers_ok
  | writers_ok
  deriving DecidableEq, Repr

/-- How far a thread is in a call that takes the lock. -/
inductive stage where
  /-- It has called and is about to lock the mutex for the first time. -/
  | called
  /-- It sleeps in `pthread_cond_wait`. -/
  | asleep
  /-- It was woken and is about to lock the mutex again. -/
  | woken
  deriving DecidableEq, Repr

/-- Where a thread is. -/
inductive thread_t where
  | outside
  | rdlock (at_ : stage)
  | reading
  /-- It has called `rwlock_rdunlock`, and is about to lock the mutex. -/
  | rdunlock
  | wrlock (at_ : stage)
  | writing
  | wrunlock
  deriving DecidableEq, Repr

namespace thread_t

def sleeps (cond : condition_t) (p : thread_t) : Bool :=
  match cond with
  | .readers_ok => p = .rdlock .asleep
  | .writers_ok => p = .wrlock .asleep

/-- The end of a sleep. -/
def wake : thread_t → thread_t
  | .rdlock .asleep => .rdlock .woken
  | .wrlock .asleep => .wrlock .woken
  | p => p

/-- The thread is on its way to lock the mutex again after a sleep. -/
def woken (p : thread_t) : Bool := p = .rdlock .woken ∨ p = .wrlock .woken

/-- The thread is inside a read section. -/
def reads (p : thread_t) : Bool := p = .reading ∨ p = .rdunlock

/-- The thread is inside a write section. -/
def writes (p : thread_t) : Bool := p = .writing ∨ p = .wrunlock

/-- The thread has executed `waiting_writers++` in a call of `rwlock_wrlock` and
does not hold the lock yet. -/
def waits (p : thread_t) : Bool := p = .wrlock .asleep ∨ p = .wrlock .woken

/-- The thread is inside a call that takes or gives back the lock. -/
def calls : thread_t → Bool
  | .outside | .reading | .writing => false
  | .rdlock _ | .rdunlock | .wrlock _ | .wrunlock => true

end thread_t

/-- The lock and the threads that use it. -/
structure state (θ : Type) where
  rw : rwlock_t
  thread : θ → thread_t

def start (θ : Type) : state θ where
  rw := rwlock_init
  thread _ := .outside

variable {θ : Type} [DecidableEq θ]

def state.set (s : state θ) (t : θ) (p : thread_t) : state θ := { s with thread := Function.update s.thread t p }

@[simp] theorem state.set_thread_self (s : state θ) (t : θ) (p : thread_t) : (s.set t p).thread t = p :=
  Function.update_self ..

@[simp] theorem state.set_thread_of_ne (s : state θ) {t u : θ} (h : u ≠ t) (p : thread_t) :
    (s.set t p).thread u = s.thread u :=
  Function.update_of_ne h ..

variable [Fintype θ]

/-- `pthread_cond_signal`. -/
def cond_signal (s : state θ) (cond : condition_t) (woken : Finset θ) : Option (state θ) :=
  (signal (thread_t.sleeps cond) thread_t.wake woken s.thread).map fun thread => { s with thread := thread }

/-- `pthread_cond_broadcast`. -/
def cond_broadcast (s : state θ) (cond : condition_t) : state θ :=
  { s with thread := broadcast (thread_t.sleeps cond) thread_t.wake s.thread }

/-- The loop of `rwlock_rdlock`, up to its next sleep or its return. -/
def rwlock_rdlock (s : state θ) (t : θ) : state θ :=
  if s.rw.writers > 0 ∨ s.rw.waiting_writers > 0 then s.set t (.rdlock .asleep)
  else { s.set t .reading with rw := { s.rw with readers := s.rw.readers + 1 } }

def rwlock_rdunlock (s : state θ) (t : θ) (woken : Finset θ) : Option (state θ) :=
  let s := { s.set t .outside with rw := { s.rw with readers := s.rw.readers - 1 } }
  if s.rw.readers = 0 then cond_signal s .writers_ok woken else some s

/-- The first statement of `rwlock_wrlock` under the mutex. -/
def enter_wrlock (s : state θ) : state θ :=
  { s with rw := { s.rw with waiting_writers := s.rw.waiting_writers + 1 } }

/-- The loop of `rwlock_wrlock`, up to its next sleep or its return. -/
def rwlock_wrlock (s : state θ) (t : θ) : state θ :=
  if s.rw.writers > 0 ∨ s.rw.readers > 0 then s.set t (.wrlock .asleep)
  else { s.set t .writing with rw := { s.rw with waiting_writers := s.rw.waiting_writers - 1, writers := 1 } }

def rwlock_wrunlock (s : state θ) (t : θ) (woken : Finset θ) : Option (state θ) :=
  let s := { s.set t .outside with rw := { s.rw with writers := 0 } }
  if s.rw.waiting_writers > 0 then cond_signal s .writers_ok woken else some (cond_broadcast s .readers_ok)

/-- A thread calls a function of the lock, runs one of its mutex sections, up to the
next sleep or the return, or wakes spuriously. A section that signals comes with the
threads that the signal wakes. -/
inductive event_t (θ : Type) where
  | rdlock (t : θ)
  | wrlock (t : θ)
  | unlock (t : θ)
  | run (t : θ) (woken : Finset θ)
  | wake (t : θ)

def step (s : state θ) : event_t θ → Option (state θ)
  | .rdlock t => if s.thread t = .outside then some (s.set t (.rdlock .called)) else none
  | .wrlock t => if s.thread t = .outside then some (s.set t (.wrlock .called)) else none
  | .unlock t =>
    match s.thread t with
    | .reading => some (s.set t .rdunlock)
    | .writing => some (s.set t .wrunlock)
    | _ => none
  | .run t woken =>
    match s.thread t with
    | .rdlock .called | .rdlock .woken => some (rwlock_rdlock s t)
    | .rdunlock => rwlock_rdunlock s t woken
    | .wrlock .called => some (rwlock_wrlock (enter_wrlock s) t)
    | .wrlock .woken => some (rwlock_wrlock s t)
    | .wrunlock => rwlock_wrunlock s t woken
    | _ => none
  | .wake t =>
    if (s.thread t).sleeps .readers_ok ∨ (s.thread t).sleeps .writers_ok then some (s.set t (s.thread t).wake)
    else none

end csystems.read_write_lock
