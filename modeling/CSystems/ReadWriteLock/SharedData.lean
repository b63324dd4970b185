import CSystems.Lib.Bytes
import CSystems.ReadWriteLock.Safety

open clib.cint clib.condition clib.run

namespace csystems.read_write_lock

/-- How far a thread is in the section that it runs between taking the lock and giving
it back. -/
inductive section_t where
  | idle
  /-- A reader has read `shared_data` and is about to print it. -/
  | read (value : Int)
  /-- A writer has read `shared_data` and is about to store its successor. -/
  | loaded (value : Int)
  | stored
  /-- A writer has read its new value again and is about to print it. -/
  | reread (value : Int)
  | printed
  deriving DecidableEq

/-- The thread has stored a new value and has not printed it yet. -/
def section_t.pending : section_t → Bool
  | .stored | .reread _ => true
  | .idle | .read _ | .loaded _ | .printed => false

/-- A line of output, of a reader or of a writer. -/
inductive line_t (θ : Type) where
  | reader (t : θ) (value : Int)
  | writer (t : θ) (value : Int)
  deriving DecidableEq

def line_t.value {θ : Type} : line_t θ → Int
  | .reader _ value | .writer _ value => value

def line_t.wrote {θ : Type} : line_t θ → Bool
  | .reader _ _ => false
  | .writer _ _ => true

/-- The program: the lock, the data that it protects, and what was printed. -/
structure program_t (θ : Type) where
  lock : state θ
  shared_data : Int
  at_ : θ → section_t
  output : List (line_t θ)

def main (θ : Type) : program_t θ where
  lock := start θ
  shared_data := 0
  at_ _ := .idle
  output := []

/-- What the threads of the program do: an event of the lock, or the next access or line
of output of a thread that holds it. -/
inductive act_t (θ : Type) where
  | lock (e : event_t θ)
  | body (t : θ)

section Program

variable {θ : Type} [DecidableEq θ]

def program_t.set (p : program_t θ) (t : θ) (b : section_t) : program_t θ := { p with at_ := Function.update p.at_ t b }

/-- A reader between `rwlock_rdlock` and `rwlock_rdunlock`. -/
def reader (p : program_t θ) (t : θ) : Option (program_t θ) :=
  match p.at_ t with
  | .idle => some (p.set t (.read p.shared_data))
  | .read value => some { p.set t .printed with output := p.output ++ [.reader t value] }
  | _ => none

/-- A writer between `rwlock_wrlock` and `rwlock_wrunlock`. -/
def writer (p : program_t θ) (t : θ) : Option (program_t θ) :=
  match p.at_ t with
  | .idle => some (p.set t (.loaded p.shared_data))
  | .loaded value => (int (value + 1)).map fun value => { p.set t .stored with shared_data := value }
  | .stored => some (p.set t (.reread p.shared_data))
  | .reread value => some { p.set t .printed with output := p.output ++ [.writer t value] }
  | _ => none

variable [Fintype θ]

/-- `writes` tells the threads that run `writer`; the others run `reader`. -/
def program_step (writes : θ → Bool) (p : program_t θ) : act_t θ → Option (program_t θ)
  | .lock (.rdlock t) =>
    if writes t = false then (step p.lock (.rdlock t)).map fun lock => { p with lock := lock } else none
  | .lock (.wrlock t) =>
    if writes t = true then (step p.lock (.wrlock t)).map fun lock => { p with lock := lock } else none
  | .lock (.unlock t) =>
    if p.at_ t = .printed then (step p.lock (.unlock t)).map fun lock => { p.set t .idle with lock := lock } else none
  | .lock e => (step p.lock e).map fun lock => { p with lock := lock }
  | .body t =>
    match p.lock.thread t with
    | .reading => reader p t
    | .writing => writer p t
    | _ => none

end Program

/-- The writers' lines among some lines of output. -/
def wrote {θ : Type} (output : List (line_t θ)) : Int := output.countP line_t.wrote

/-- Each line gives the number of writes that were printed by then, its own included. -/
def InOrder {θ : Type} (output : List (line_t θ)) : Prop :=
  ∀ before line after, output = before ++ line :: after → line.value = wrote (before ++ [line])

/-- Where a thread is that is so far in its section. -/
def Holds (b : section_t) (p : thread_t) : Prop :=
  match b with
  | .idle => True
  | .read _ => p = .reading
  | .loaded _ | .stored | .reread _ => p = .writing
  | .printed => p = .reading ∨ p = .writing

/-- What a thread remembers is what `shared_data` still has. -/
def section_t.Remembers (b : section_t) (shared_data : Int) : Prop :=
  match b with
  | .read value | .loaded value | .reread value => value = shared_data
  | .idle | .stored | .printed => True

section Output

variable {θ : Type}

theorem wrote_concat (output : List (line_t θ)) (line : line_t θ) :
    wrote (output ++ [line]) = wrote output + if line.wrote = true then 1 else 0 := by
  rw [wrote, wrote, List.countP_append, List.countP_singleton]
  split <;> simp

theorem InOrder.concat {output : List (line_t θ)} (h : InOrder output) {line : line_t θ}
    (hline : line.value = wrote (output ++ [line])) : InOrder (output ++ [line]) := by
  intro before line' after heq
  obtain rfl | ⟨after, last, rfl⟩ := List.eq_nil_or_concat after
  · obtain ⟨rfl, hlast⟩ := List.append_inj' heq rfl
    obtain rfl := List.singleton_inj.mp hlast
    exact hline
  · rw [List.concat_eq_append, ← List.cons_append, ← List.append_assoc] at heq
    exact h before line' after (List.append_inj' heq rfl).1

end Output

section Steps

variable {θ : Type} [Fintype θ] [DecidableEq θ] {s s' : state θ}

omit [Fintype θ] in
/-- A thread that holds the lock and is not the one that moves keeps it. -/
theorem update_of_holder {u t : θ} {f : θ → thread_t} {p q : thread_t} (hu : f u = q) (hne : f t ≠ q) :
    Function.update f t p u = q := by
  have hut : u ≠ t := by
    rintro rfl
    exact hne hu
  rw [Function.update_of_ne hut, hu]

omit [Fintype θ] [DecidableEq θ] in
theorem wakes_holder {cond : condition_t} {f g : θ → thread_t} {u : θ} {q : thread_t}
    (hwakes : Wakes (thread_t.sleeps cond) thread_t.wake f g) (hu : f u = q) (hq : q = .reading ∨ q = .writing) :
    g u = q := by
  obtain heq | ⟨hsleeps, -⟩ := hwakes u
  · rw [heq, hu]
  · rw [hu] at hsleeps
    obtain rfl | rfl := hq <;> cases cond <;> cases hsleeps

/-- Only its own call of an unlock takes the lock from a thread. -/
theorem step_holder {e : event_t θ} (hstep : step s e = some s') {u : θ} {q : thread_t} (hu : s.thread u = q)
    (hq : q = .reading ∨ q = .writing) (he : e ≠ .unlock u) : s'.thread u = q := by
  cases e with
  | rdlock t =>
    obtain ⟨hat, heq⟩ := Option.ite_none_right_eq_some.mp hstep
    obtain rfl := Option.some.inj heq
    exact update_of_holder hu (by rw [hat]; rintro rfl; simp at hq)
  | wrlock t =>
    obtain ⟨hat, heq⟩ := Option.ite_none_right_eq_some.mp hstep
    obtain rfl := Option.some.inj heq
    exact update_of_holder hu (by rw [hat]; rintro rfl; simp at hq)
  | unlock t =>
    have hut : u ≠ t := fun hut => he (congrArg _ hut.symm)
    simp only [step] at hstep
    split at hstep
    · obtain rfl := Option.some.inj hstep
      exact (state.set_thread_of_ne s hut _).trans hu
    · obtain rfl := Option.some.inj hstep
      exact (state.set_thread_of_ne s hut _).trans hu
    · cases hstep
  | run t woken =>
    have hcall (hcalls : (s.thread t).calls = true) (p : thread_t) : Function.update s.thread t p u = q := by
      refine update_of_holder hu ?_
      rintro hat
      rw [hat] at hcalls
      obtain rfl | rfl := hq <;> cases hcalls
    simp only [step] at hstep
    split at hstep
    case h_1 hat =>
      obtain rfl := Option.some.inj hstep
      unfold rwlock_rdlock
      split <;> exact hcall (by rw [hat]; rfl) _
    case h_2 hat =>
      obtain rfl := Option.some.inj hstep
      unfold rwlock_rdlock
      split <;> exact hcall (by rw [hat]; rfl) _
    case h_3 hat =>
      have hmoved := hcall (by rw [hat]; rfl) .outside
      unfold rwlock_rdunlock at hstep
      dsimp only at hstep
      split at hstep
      · exact wakes_holder (cond_signal_cases hstep).2.1 hmoved hq
      · obtain rfl := Option.some.inj hstep
        exact hmoved
    case h_4 hat =>
      obtain rfl := Option.some.inj hstep
      unfold rwlock_wrlock
      split <;> exact hcall (by rw [hat]; rfl) _
    case h_5 hat =>
      obtain rfl := Option.some.inj hstep
      unfold rwlock_wrlock
      split <;> exact hcall (by rw [hat]; rfl) _
    case h_6 hat =>
      have hmoved := hcall (by rw [hat]; rfl) .outside
      unfold rwlock_wrunlock at hstep
      dsimp only at hstep
      split at hstep
      · exact wakes_holder (cond_signal_cases hstep).2.1 hmoved hq
      · obtain rfl := Option.some.inj hstep
        exact wakes_holder wakes_of_broadcast hmoved hq
    case h_7 => cases hstep
  | wake t =>
    obtain ⟨hsleeps, heq⟩ := Option.ite_none_right_eq_some.mp hstep
    obtain rfl := Option.some.inj heq
    refine update_of_holder hu ?_
    intro hat
    rw [hat] at hsleeps
    obtain rfl | rfl := hq <;> simp [thread_t.sleeps] at hsleeps

end Steps

/-- What holds between any two steps of the program. -/
structure Shared {θ : Type} [Fintype θ] (p : program_t θ) : Prop where
  lock : Inv p.lock
  holds : ∀ t, Holds (p.at_ t) (p.lock.thread t)
  remembers : ∀ t, (p.at_ t).Remembers p.shared_data
  total : p.shared_data = wrote p.output + count section_t.pending p.at_
  ordered : InOrder p.output

section Threads

variable {θ : Type} [Fintype θ] [DecidableEq θ] {p p' : program_t θ} {t u : θ}

omit [DecidableEq θ] in
theorem main_shared : Shared (main θ) := by
  refine ⟨start_inv, fun _ => trivial, fun _ => trivial, ?_, ?_⟩
  · simp [main, wrote, count, section_t.pending]
  · intro before line after heq
    simp [main] at heq

/-- A thread that holds the lock for writing is the only one that holds it. -/
theorem Inv.alone {s : state θ} (h : Inv s) (ht : s.thread t = .writing) (hut : u ≠ t) :
    (s.thread u).reads = false ∧ (s.thread u).writes = false := by
  have hwrites : (s.thread t).writes = true := by
    rw [ht]
    rfl
  have hwriter : 0 < s.rw.writers := by
    rw [h.counted.writers, count_pos_iff]
    exact ⟨t, hwrites⟩
  have hsingle := h.exclusive.single
  constructor
  · refine Bool.eq_false_iff.mpr fun hu => h.exclusive.apart ⟨?_, hwriter⟩
    rw [h.counted.readers, count_pos_iff]
    exact ⟨u, hu⟩
  · refine Bool.eq_false_iff.mpr fun hu => ?_
    have hothers := count_update thread_t.writes s.thread t .outside
    have hpos : 0 < count thread_t.writes (Function.update s.thread t .outside) := by
      refine count_pos_iff.mpr ⟨u, ?_⟩
      rwa [Function.update_of_ne hut]
    rw [hwrites, ← h.counted.writers, if_pos rfl, if_neg (by decide)] at hothers
    omega

/-- While a thread writes, all others are outside their sections. -/
theorem Shared.idle (h : Shared p) (ht : p.lock.thread t = .writing) (hut : u ≠ t) : p.at_ u = .idle := by
  obtain ⟨hreads, hwrites⟩ := h.lock.alone ht hut
  have hholds := h.holds u
  cases hb : p.at_ u with
  | idle => rfl
  | read value =>
    rw [hb] at hholds
    rw [show p.lock.thread u = .reading from hholds] at hreads
    cases hreads
  | printed =>
    rw [hb] at hholds
    obtain heq | heq := hholds
    · rw [heq] at hreads
      cases hreads
    · rw [heq] at hwrites
      cases hwrites
  | _ =>
    rw [hb] at hholds
    rw [show p.lock.thread u = .writing from hholds] at hwrites
    cases hwrites

theorem Shared.pending_of_writing (h : Shared p) (ht : p.lock.thread t = .writing) :
    count section_t.pending p.at_ = if (p.at_ t).pending = true then 1 else 0 := by
  have hothers := count_update section_t.pending p.at_ t .idle
  have hnone : count section_t.pending (Function.update p.at_ t .idle) = 0 := by
    have hall (u : θ) : Function.update p.at_ t .idle u = .idle := by
      by_cases hut : u = t
      · rw [hut, Function.update_self]
      · rw [Function.update_of_ne hut, h.idle ht hut]
    rw [count_congr (g := fun _ => section_t.idle) fun u => by rw [hall u]]
    simp [count, section_t.pending]
  rw [hnone, if_neg (by decide : ¬ section_t.idle.pending = true)] at hothers
  omega

/-- While a thread reads, all that was stored is printed. -/
theorem Shared.pending_of_reading (h : Shared p) (ht : p.lock.thread t = .reading) :
    count section_t.pending p.at_ = 0 := by
  have hnonneg := count_nonneg section_t.pending p.at_
  have hnone : ¬ 0 < count section_t.pending p.at_ := by
    rw [count_pos_iff]
    rintro ⟨u, hu⟩
    have hwriting : p.lock.thread u = .writing := by
      have hholds := h.holds u
      cases hb : p.at_ u <;> rw [hb] at hholds hu <;> first | exact hholds | cases hu
    have hut : t ≠ u := by
      rintro rfl
      rw [ht] at hwriting
      cases hwriting
    have hreads := (h.lock.alone hwriting hut).1
    rw [ht] at hreads
    cases hreads
  omega

/-- A thread goes on in its section. -/
theorem Shared.move (h : Shared p) {b : section_t} (shared_data : Int) (output : List (line_t θ))
    (hholds : Holds b (p.lock.thread t)) (hremembers : b.Remembers shared_data)
    (hothers : ∀ u, u ≠ t → (p.at_ u).Remembers shared_data)
    (htotal : shared_data = wrote output + (count section_t.pending p.at_ -
      (if (p.at_ t).pending = true then 1 else 0) + if b.pending = true then 1 else 0))
    (hordered : InOrder output) : Shared { p.set t b with shared_data := shared_data, output := output } where
  lock := h.lock
  holds := forall_update_of_ne (P := fun u b => Holds b (p.lock.thread u)) hholds fun u _ => h.holds u
  remembers := forall_update_of_ne (P := fun _ b => section_t.Remembers b shared_data) hremembers hothers
  total := by
    have hmoved := count_update section_t.pending p.at_ t b
    dsimp only [program_t.set]
    rw [hmoved]
    exact htotal
  ordered := hordered

theorem Shared.reader (h : Shared p) (ht : p.lock.thread t = .reading) (hstep : reader p t = some p') : Shared p' := by
  have hpending := h.pending_of_reading ht
  have htotal := h.total
  have hremembers := h.remembers t
  unfold read_write_lock.reader at hstep
  split at hstep
  case h_1 hat =>
    obtain rfl := Option.some.inj hstep
    refine h.move p.shared_data p.output ht rfl (fun u _ => h.remembers u) ?_ h.ordered
    rw [hat]
    simpa [section_t.pending] using htotal
  case h_2 value hat =>
    obtain rfl := Option.some.inj hstep
    rw [hat] at hremembers
    have hvalue : value = p.shared_data := hremembers
    have hwrote : wrote (p.output ++ [.reader t value]) = wrote p.output + 0 := wrote_concat ..
    refine h.move p.shared_data _ (Or.inl ht) trivial (fun u _ => h.remembers u) ?_ (h.ordered.concat ?_)
    · rw [hat, hwrote]
      simpa [section_t.pending] using htotal
    · rw [hwrote, line_t.value]
      omega
  case h_3 => cases hstep

theorem Shared.writer (h : Shared p) (ht : p.lock.thread t = .writing) (hstep : writer p t = some p') : Shared p' := by
  have hpending := h.pending_of_writing ht
  have htotal := h.total
  have hremembers := h.remembers t
  have hothers (shared_data : Int) (u : θ) (hut : u ≠ t) : (p.at_ u).Remembers shared_data := by
    rw [h.idle ht hut]
    trivial
  unfold read_write_lock.writer at hstep
  split at hstep
  case h_1 hat =>
    obtain rfl := Option.some.inj hstep
    refine h.move p.shared_data p.output ht rfl (hothers _) ?_ h.ordered
    rw [hat]
    simpa [section_t.pending] using htotal
  case h_2 value hat =>
    obtain ⟨stored, hint, rfl⟩ := Option.map_eq_some_iff.mp hstep
    obtain ⟨-, rfl⟩ := int_eq_some.mp hint
    rw [hat] at hremembers hpending
    have hvalue : value = p.shared_data := hremembers
    refine h.move _ p.output ht trivial (hothers _) ?_ h.ordered
    rw [hpending, hat]
    simp [section_t.pending] at hpending ⊢
    omega
  case h_3 hat =>
    obtain rfl := Option.some.inj hstep
    refine h.move p.shared_data p.output ht rfl (hothers _) ?_ h.ordered
    rw [hat]
    simpa [section_t.pending] using htotal
  case h_4 value hat =>
    obtain rfl := Option.some.inj hstep
    rw [hat] at hremembers hpending
    have hvalue : value = p.shared_data := hremembers
    simp only [section_t.pending, if_pos] at hpending
    have hwrote : wrote (p.output ++ [.writer t value]) = wrote p.output + 1 := wrote_concat ..
    refine h.move p.shared_data _ (Or.inr ht) trivial (hothers _) ?_ (h.ordered.concat ?_)
    · rw [hat, hwrote]
      simp [section_t.pending]
      omega
    · rw [hwrote, line_t.value]
      omega
  case h_5 => cases hstep

omit [DecidableEq θ] in
theorem Shared.set_lock (h : Shared p) {s : state θ} (hinv : Inv s) (hholds : ∀ u, Holds (p.at_ u) (s.thread u)) :
    Shared { p with lock := s } where
  lock := hinv
  holds := hholds
  remembers := h.remembers
  total := h.total
  ordered := h.ordered

/-- A thread keeps its place in its section while the others move. -/
theorem Holds.step {s s' : state θ} {e : event_t θ} {b : section_t} (h : Holds b (s.thread u))
    (hstep : step s e = some s') (he : e ≠ .unlock u) : Holds b (s'.thread u) := by
  cases b with
  | idle => trivial
  | read value => exact step_holder hstep h (Or.inl rfl) he
  | printed => exact h.imp (step_holder hstep · (Or.inl rfl) he) (step_holder hstep · (Or.inr rfl) he)
  | _ => exact step_holder hstep h (Or.inr rfl) he

theorem Shared.step {writes : θ → Bool} (h : Shared p) {a : act_t θ} (hstep : program_step writes p a = some p') :
    Shared p' := by
  have hlock {e : event_t θ} (he : ∀ u, e ≠ .unlock u)
      (hmap : (read_write_lock.step p.lock e).map (fun lock => { p with lock := lock }) = some p') : Shared p' := by
    obtain ⟨s, hs, rfl⟩ := Option.map_eq_some_iff.mp hmap
    exact h.set_lock (h.lock.step hs) fun u => (h.holds u).step hs (he u)
  unfold program_step at hstep
  split at hstep
  case h_1 t => exact hlock (fun _ => by simp) (Option.ite_none_right_eq_some.mp hstep).2
  case h_2 t => exact hlock (fun _ => by simp) (Option.ite_none_right_eq_some.mp hstep).2
  case h_3 t =>
    obtain ⟨hat, hmap⟩ := Option.ite_none_right_eq_some.mp hstep
    obtain ⟨s, hs, rfl⟩ := Option.map_eq_some_iff.mp hmap
    have hidle : Shared (p.set t .idle) := by
      refine h.move p.shared_data p.output trivial trivial (fun u _ => h.remembers u) ?_ h.ordered
      rw [hat]
      simpa [section_t.pending] using h.total
    refine hidle.set_lock (h.lock.step hs) fun u => ?_
    by_cases hut : u = t
    · subst hut
      have hset : (p.set u .idle).at_ u = .idle := Function.update_self ..
      rw [hset]
      trivial
    · exact (hidle.holds u).step hs fun heq => hut (event_t.unlock.inj heq).symm
  case h_4 e hrdlock hwrlock hunlock => exact hlock (fun u heq => hunlock u heq) hstep
  case h_5 t =>
    split at hstep
    case h_1 ht => exact h.reader ht hstep
    case h_2 ht => exact h.writer ht hstep
    case h_3 => cases hstep

end Threads

/-- The lock keeps the program's data consistent, however its threads interleave: each
line of output gives the number of values written by then, so that the writers print
1, 2, 3, ... and a reader never prints a value that is lost or half-written; and while a
thread is inside its section to write, all others are outside of theirs. -/
theorem shared_data_in_order {θ : Type} [Fintype θ] [DecidableEq θ] {writes : θ → Bool} {p : program_t θ}
    (h : Reachable (program_step writes) (main θ) p) :
    InOrder p.output ∧ ((∀ t, p.lock.thread t ≠ .writing) → p.shared_data = wrote p.output) ∧
      ∀ t u, p.lock.thread t = .writing → u ≠ t → p.at_ u = .idle ∧ (p.lock.thread u).reads = false := by
  have hshared : Shared p := h.invariant main_shared fun _ _ _ hp hstep => hp.step hstep
  refine ⟨hshared.ordered, fun hnone => ?_, fun t u ht hut => ⟨hshared.idle ht hut, (hshared.lock.alone ht hut).1⟩⟩
  have hnonneg := count_nonneg section_t.pending p.at_
  have hpending : ¬ 0 < count section_t.pending p.at_ := by
    rw [count_pos_iff]
    rintro ⟨t, ht⟩
    have hholds := hshared.holds t
    cases hb : p.at_ t <;> rw [hb] at hholds ht <;> first | exact hnone t hholds | cases ht
  have htotal := hshared.total
  omega

/-- A writer writes, and then a reader reads. -/
def write_read_acts : List (act_t Bool) :=
  [.lock (.wrlock true), .lock (.run true ∅), .body true, .body true, .body true, .body true, .lock (.unlock true),
    .lock (.run true ∅), .lock (.rdlock false), .lock (.run false ∅), .body false, .body false]

theorem shared_data_in_order_write_read :
    ∃ p, steps (program_step id) (main Bool) write_read_acts = some p ∧ InOrder p.output := by
  have hsome : (steps (program_step id) (main Bool) write_read_acts).isSome = true := by decide
  have hsteps := (Option.some_get hsome).symm
  exact ⟨_, hsteps, (shared_data_in_order (Reachable.start.steps hsteps)).1⟩

end csystems.read_write_lock
