import Mathlib.Algebra.BigOperators.Group.List.Basic
import Mathlib.Algebra.Order.Ring.Int
import CSystems.Lib.Run

open clib.run

namespace csystems.futex_demo

/-- The `max_spins` argument of `worker_thread`'s call of `cas_with_spin`. -/
def MAX_SPINS : Nat := 10

/-- The locals of a worker inside `cas_with_spin`: `old_val` belongs to
`worker_thread`, the others to the callee. -/
structure cas_t where
  old_val : Int32
  expected : Int32
  desired : Int32
  i : Nat
  deriving DecidableEq, Repr

/-- The next atomic operation of a worker. -/
inductive phase_t where
  /-- The load of `old_val`. -/
  | load
  /-- The compare-exchange of `cas_with_spin`. -/
  | attempt (cas : cas_t)
  /-- The reload of `expected` after a failed compare-exchange. -/
  | reload (cas : cas_t)
  /-- The worker has left its loop. -/
  | finished
  deriving DecidableEq, Repr

/-- A worker in its work loop; `i` counts the iterations it has completed. -/
structure worker_t where
  work_iterations : Int32
  i : Nat
  phase : phase_t
  deriving DecidableEq, Repr

structure shared_work_t where
  shared_counter : Int32
  workers : List worker_t
  deriving DecidableEq, Repr

/-- The head of the work loop. -/
def loop_head (work_iterations : Int32) (i : Nat) : worker_t :=
  { work_iterations := work_iterations
    i := i
    phase := if (i : Int) < work_iterations.toInt then .load else .finished }

/-- One atomic operation of a worker. A weak compare-exchange may fail although
the counter has the expected value (`spurious`); a failed one stores the value
it saw in `expected`. -/
def worker_step (spurious : Bool) (shared_counter : Int32) (w : worker_t) : Int32 × worker_t :=
  match w.phase with
  | .load =>
    let cas := { old_val := shared_counter, expected := shared_counter, desired := shared_counter + 1, i := 0 }
    (shared_counter, { w with phase := .attempt cas })
  | .attempt cas =>
    if shared_counter = cas.expected ∧ spurious = false then (cas.desired, loop_head w.work_iterations (w.i + 1))
    else (shared_counter, { w with phase := .reload { cas with expected := shared_counter } })
  | .reload cas =>
    let cas := { cas with expected := shared_counter, i := cas.i + 1 }
    (shared_counter, { w with phase := if cas.i < MAX_SPINS then .attempt cas else .load })
  | .finished => (shared_counter, w)

/-- Which worker runs next, and whether its compare-exchange fails spuriously. -/
structure event_t where
  worker : Nat
  spurious : Bool
  deriving DecidableEq, Repr

def step (s : shared_work_t) (e : event_t) : shared_work_t :=
  match s.workers[e.worker]? with
  | none => s
  | some w =>
    let (shared_counter, w) := worker_step e.spurious s.shared_counter w
    { shared_counter := shared_counter, workers := s.workers.set e.worker w }

/-- The workers at the start of their loops. -/
def start (work_iterations : List Int32) : shared_work_t where
  shared_counter := 0
  workers := work_iterations.map (loop_head · 0)

def run (work_iterations : List Int32) (events : List event_t) : shared_work_t :=
  events.foldl step (start work_iterations)

/-- The compare-exchange a worker is about to make, if any. -/
def worker_t.attempting (w : worker_t) : Option cas_t :=
  match w.phase with
  | .attempt cas => some cas
  | _ => none

/-- A compare-exchange that is about to succeed expects the value from which
its desired value was computed. -/
def SwapIsFresh (s : shared_work_t) (e : event_t) : Prop :=
  ∀ w ∈ s.workers[e.worker]?, ∀ cas ∈ w.attempting,
    s.shared_counter = cas.expected → e.spurious = false → cas.expected = cas.old_val

instance (s : shared_work_t) (e : event_t) : Decidable (SwapIsFresh s e) :=
  inferInstanceAs (Decidable (∀ w ∈ s.workers[e.worker]?, ∀ cas ∈ w.attempting, _))

/-- What holds of every worker: it never completes more iterations than asked
for, it leaves the loop only when done, and `desired` is `old_val + 1`. -/
structure worker_t.Valid (w : worker_t) : Prop where
  i_le : w.i ≤ w.work_iterations.toInt.toNat
  finished : w.phase = .finished → w.i = w.work_iterations.toInt.toNat
  running : w.phase ≠ .finished → w.i < w.work_iterations.toInt.toNat
  desired : ∀ cas, w.phase = .attempt cas ∨ w.phase = .reload cas → cas.desired = cas.old_val + 1

theorem loop_head_valid {work_iterations : Int32} {i : Nat} (hi : i ≤ work_iterations.toInt.toNat) :
    (loop_head work_iterations i).Valid := by
  unfold loop_head
  by_cases hlt : (i : Int) < work_iterations.toInt
  · rw [if_pos hlt]
    refine ⟨hi, by simp, fun _ => ?_, by simp⟩
    dsimp only
    omega
  · rw [if_neg hlt]
    refine ⟨hi, fun _ => ?_, by simp, by simp⟩
    dsimp only
    omega

/-- One operation of a worker keeps it valid and counts a completed iteration
exactly when its compare-exchange succeeds. -/
theorem worker_step_spec {w : worker_t} (h : w.Valid) (spurious : Bool) (shared_counter : Int32) :
    (worker_step spurious shared_counter w).2.Valid ∧
    (worker_step spurious shared_counter w).2.work_iterations = w.work_iterations ∧
    ((∃ cas, w.phase = .attempt cas ∧ shared_counter = cas.expected ∧ spurious = false ∧
        (worker_step spurious shared_counter w).1 = cas.old_val + 1 ∧
        (worker_step spurious shared_counter w).2.i = w.i + 1) ∨
      ((worker_step spurious shared_counter w).1 = shared_counter ∧
        (worker_step spurious shared_counter w).2.i = w.i)) := by
  unfold worker_step
  cases hphase : w.phase with
  | load =>
    have hrunning := h.running (by simp [hphase])
    refine ⟨⟨h.i_le, by simp, fun _ => hrunning, ?_⟩, rfl, Or.inr ⟨rfl, rfl⟩⟩
    rintro cas (heq | heq)
    · cases heq
      rfl
    · cases heq
  | attempt cas =>
    have hrunning := h.running (by simp [hphase])
    have hdesired := h.desired cas (Or.inl hphase)
    by_cases hswap : shared_counter = cas.expected ∧ spurious = false
    · simp only [if_pos hswap]
      refine ⟨loop_head_valid (by omega), rfl, Or.inl ⟨cas, rfl, hswap.1, hswap.2, hdesired, rfl⟩⟩
    · simp only [if_neg hswap]
      refine ⟨⟨h.i_le, by simp, fun _ => hrunning, ?_⟩, trivial, Or.inr ⟨trivial, trivial⟩⟩
      rintro cas' (heq | heq)
      · cases heq
      · cases heq
        exact hdesired
  | reload cas =>
    have hrunning := h.running (by simp [hphase])
    have hdesired := h.desired cas (Or.inr hphase)
    dsimp only
    by_cases hspins : cas.i + 1 < MAX_SPINS
    · simp only [if_pos hspins]
      refine ⟨⟨h.i_le, by simp, fun _ => hrunning, ?_⟩, trivial, Or.inr ⟨trivial, trivial⟩⟩
      rintro cas' (heq | heq)
      · cases heq
        exact hdesired
      · cases heq
    · simp only [if_neg hspins]
      exact ⟨⟨h.i_le, by simp, fun _ => hrunning, by simp⟩, trivial, Or.inr ⟨trivial, trivial⟩⟩
  | finished => exact ⟨h, rfl, Or.inr ⟨rfl, rfl⟩⟩

/-- The counter is the number of completed iterations, in `int`. -/
structure Counted (work_iterations : List Int32) (s : shared_work_t) : Prop where
  workers : s.workers.map worker_t.work_iterations = work_iterations
  valid : ∀ w ∈ s.workers, w.Valid
  counter : s.shared_counter = Int32.ofNat (s.workers.map worker_t.i).sum

theorem start_counted (work_iterations : List Int32) : Counted work_iterations (start work_iterations) := by
  refine ⟨?_, ?_, ?_⟩
  · simp [start, loop_head, Function.comp_def]
  · intro w hw
    obtain ⟨n, -, rfl⟩ := List.mem_map.mp hw
    exact loop_head_valid (Nat.zero_le _)
  · simp [start, loop_head, Function.comp_def]

private theorem sum_map_set {ws : List worker_t} {k : Nat} {w w' : worker_t} (hget : ws[k]? = some w) :
    ((ws.set k w').map worker_t.i).sum + w.i = (ws.map worker_t.i).sum + w'.i := by
  induction ws generalizing k with
  | nil => cases hget
  | cons x ws ih =>
    cases k with
    | zero =>
      cases hget
      simp only [List.set_cons_zero, List.map_cons, List.sum_cons]
      omega
    | succ k =>
      have hrest := ih hget
      simp only [List.set_cons_succ, List.map_cons, List.sum_cons]
      omega

/-- A step whose compare-exchange, if it succeeds, is fresh keeps the count. -/
theorem Counted.step {work_iterations : List Int32} {s : shared_work_t} {e : event_t}
    (h : Counted work_iterations s) (hfresh : SwapIsFresh s e) : Counted work_iterations (step s e) := by
  unfold futex_demo.step
  cases hget : s.workers[e.worker]? with
  | none => exact h
  | some w =>
    have hmem := List.mem_of_getElem? hget
    have hfresh := hfresh w (by simp [hget])
    obtain ⟨hvalid, hsame, hcount⟩ := worker_step_spec (h.valid w hmem) e.spurious s.shared_counter
    have hsum := @sum_map_set _ _ _ (worker_step e.spurious s.shared_counter w).2 hget
    dsimp only
    refine ⟨?_, ?_, ?_⟩
    · rw [List.map_set, hsame, ← h.workers]
      apply List.ext_getElem?
      intro k
      by_cases hk : k = e.worker
      · subst k
        have hlt := (List.getElem?_eq_some_iff.mp hget).1
        rw [List.getElem?_set_self (by simpa using hlt), List.getElem?_map, hget]
        rfl
      · rw [List.getElem?_set_ne (Ne.symm hk)]
    · intro w' hw'
      rcases List.mem_or_eq_of_mem_set hw' with hold | rfl
      · exact h.valid w' hold
      · exact hvalid
    · rcases hcount with ⟨cas, hphase, hexpected, hspurious, hnew, hi⟩ | ⟨hnew, hi⟩
      · have hfresh := hfresh cas (by simp [worker_t.attempting, hphase]) hexpected hspurious
        have hone : ((s.workers.set e.worker (worker_step e.spurious s.shared_counter w).2).map worker_t.i).sum =
            (s.workers.map worker_t.i).sum + 1 := by omega
        rw [hnew, ← hfresh, ← hexpected, hone, Int32.ofNat_add, ← h.counter]
        rfl
      · have hsame : ((s.workers.set e.worker (worker_step e.spurious s.shared_counter w).2).map worker_t.i).sum =
            (s.workers.map worker_t.i).sum := by omega
        rw [hnew, hsame, ← h.counter]

/-- No increment is lost in a run whose successful compare-exchanges are all
fresh: whenever every worker has left its loop, the counter is the number of
iterations asked for. -/
theorem run_counts_every_iteration (work_iterations : List Int32) (events : List event_t)
    (hnonneg : ∀ n ∈ work_iterations, 0 ≤ n.toInt)
    (hfits : (work_iterations.map Int32.toInt).sum < 2 ^ 31)
    (hfresh : AllSteps step SwapIsFresh (start work_iterations) events)
    (hdone : ∀ w ∈ (run work_iterations events).workers, w.phase = .finished) :
    (run work_iterations events).shared_counter.toInt = (work_iterations.map Int32.toInt).sum := by
  have hcounted : Counted work_iterations (run work_iterations events) :=
    AllSteps.invariant (fun _ _ h hf => h.step hf) (start_counted work_iterations) hfresh
  have hsum (ws : List worker_t) (hdone : ∀ w ∈ ws, w.phase = .finished) (hvalid : ∀ w ∈ ws, w.Valid)
      (hnonneg : ∀ w ∈ ws, 0 ≤ w.work_iterations.toInt) :
      ((ws.map worker_t.work_iterations).map Int32.toInt).sum = ((ws.map worker_t.i).sum : Nat) := by
    induction ws with
    | nil => rfl
    | cons w ws ih =>
      have hw := (hvalid w (by simp)).finished (hdone w (by simp))
      have hpos := hnonneg w (by simp)
      have hrest := ih (fun w hw => hdone w (by simp [hw])) (fun w hw => hvalid w (by simp [hw]))
        (fun w hw => hnonneg w (by simp [hw]))
      simp only [List.map_cons, List.sum_cons]
      omega
  have hworkers := hcounted.workers
  have htotal := hsum _ hdone hcounted.valid (by
    intro w hw
    apply hnonneg
    rw [← hworkers]
    exact List.mem_map_of_mem hw)
  rw [hworkers] at htotal
  rw [hcounted.counter, htotal]
  exact Int32.toInt_ofNat_of_lt (by omega)

/-- The second worker fails once spuriously, reloads and succeeds. -/
def fresh_events : List event_t :=
  [⟨0, false⟩, ⟨0, false⟩, ⟨1, false⟩, ⟨1, true⟩, ⟨1, false⟩, ⟨1, false⟩]

theorem run_counts_fresh_events : (run [1, 1] fresh_events).shared_counter.toInt = 2 :=
  run_counts_every_iteration [1, 1] fresh_events (by simp) (by decide) (by decide) (by decide)

/-- Both workers load 0; the first stores 1; the second fails, reloads 1 and
stores the 1 it computed from 0. -/
def lost_events : List event_t :=
  [⟨0, false⟩, ⟨1, false⟩, ⟨0, false⟩, ⟨1, false⟩, ⟨1, false⟩, ⟨1, false⟩]

theorem run_loses_increment :
    (∀ w ∈ (run [1, 1] lost_events).workers, w.phase = .finished) ∧
    (run [1, 1] lost_events).shared_counter.toInt ≠ ([1, 1].map Int32.toInt).sum := by
  decide

end csystems.futex_demo
