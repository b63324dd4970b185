import Mathlib.Algebra.Order.BigOperators.Group.Finset
import Mathlib.Algebra.Order.Ring.Nat
import CSystems.FutexDemo.Phases

open clib.bounded_buffer clib.condition clib.run

namespace csystems.futex_demo.latches

variable {c : config} {s s' : state c}

/-- What keeps the program going: a coordinator that waits has woken the workers, and a
completed count has woken the coordinator, or the worker that did it is about to. -/
structure Signalled (s : state c) : Prop where
  started : (∀ at_, s.coordinator ≠ .releasing at_) → s.start_latch.wake_issued = true
  completed : s.completion_latch.count = 0 → 0 < c.workers →
    (∃ i, s.worker i = .completing .store ∨ s.worker i = .completing .wake) ∨ s.completion_latch.wake_issued = true

theorem start_signalled (c : config) : Signalled (start c) := by
  refine ⟨fun hno => absurd rfl (hno .sub), fun hzero hpos => ?_⟩
  simp only [start, latch_init] at hzero
  omega

theorem wake_releasing (p : coordinator_t) : (∀ at_, p.wake ≠ .releasing at_) ↔ ∀ at_, p ≠ .releasing at_ := by
  rcases p with _ | (_ | _ | _ | _) | _ <;> simp [coordinator_t.wake]

/-- A worker that is not at the end of its count moves on. -/
theorem Signalled.set_worker (h : Signalled s) {i : Fin c.workers} {p : worker_thread_t}
    (hat : ∀ at_, s.worker i ≠ .completing at_) : Signalled (s.set_worker i p) := by
  refine ⟨h.started, fun hzero hpos => (h.completed hzero hpos).imp ?_ id⟩
  rintro ⟨j, hj⟩
  have hne : j ≠ i := by
    rintro rfl
    obtain hj | hj := hj
    · exact hat _ hj
    · exact hat _ hj
  have hkept : (s.set_worker i p).worker j = s.worker j := Function.update_of_ne hne ..
  exact ⟨j, by rwa [hkept]⟩

theorem Signalled.step (h : Signalled s) (hreleased : Released s) (hcompleted : Completed s) (heffect : Effect s s') :
    Signalled s' := by
  cases heffect with
  | worker_wait i at_ next hat hasleep => exact h.set_worker (by simp [hat])
  | worker_begin i at_ w hat hopen => exact h.set_worker (by simp [hat])
  | work i w w' shared_counter hat =>
    have hset := h.set_worker (i := i) (p := .working w') (by simp [hat])
    exact ⟨hset.1, hset.2⟩
  | add i w hat =>
    have hset := h.set_worker (i := i) (p := .completing .sub) (by simp [hat])
    exact ⟨hset.1, hset.2⟩
  | worker_count_down i at_ hat =>
    have hself (p : worker_thread_t) : (s.set_worker i p).worker i = p := Function.update_self ..
    cases at_ with
    | sub =>
      have hclosed := hcompleted.closed (i := i) (by rw [hat]; rfl)
      simp only [worker_count_down, latch_count_down]
      refine ⟨h.started, fun hzero hpos => Or.inl ⟨i, Or.inl ?_⟩⟩
      have hone : s.completion_latch.count = 1 := by
        simp only at hzero
        omega
      simp only [hone, if_true]
      exact hself _
    | store => exact ⟨h.started, fun _ _ => Or.inl ⟨i, Or.inr (hself _)⟩⟩
    | wake => exact ⟨fun hno => h.started ((wake_releasing _).mp hno), fun _ _ => Or.inr rfl⟩
  | release hat =>
    have hcount := hreleased.count
    rw [hat] at hcount
    have hone : s.start_latch.count = 1 := hcount
    refine ⟨fun hno => ?_, h.completed⟩
    simp only [hone, if_true] at hno
    exact absurd rfl (hno .store)
  | store hat => exact ⟨fun hno => absurd rfl (hno .wake), h.completed⟩
  | wake hat =>
    refine ⟨fun _ => rfl, fun hzero hpos => (h.completed hzero hpos).imp ?_ id⟩
    rintro ⟨j, hj⟩
    refine ⟨j, ?_⟩
    have hawake : (s.worker j).asleep = false := by
      obtain hj | hj := hj <;> rw [hj] <;> rfl
    have hkept : broadcast worker_thread_t.asleep worker_thread_t.wake s.worker j = s.worker j := by
      rw [broadcast, hawake]
      rfl
    dsimp only
    rwa [hkept]
  | coordinator_wait at_ next hat hasleep => exact ⟨fun _ => h.started (by simp [hat]), h.completed⟩
  | coordinator_done at_ hat hopen => exact ⟨fun _ => h.started (by simp [hat]), h.completed⟩

/-- A worker in its work loop works on the iterations that it was given. -/
def Working (s : state c) : Prop :=
  ∀ i w, s.worker i = .working w → w.Valid ∧ w.work_iterations = c.work_iterations i

theorem Working.set_worker (h : Working s) {i : Fin c.workers} {p : worker_thread_t}
    (hp : ∀ w, p = .working w → w.Valid ∧ w.work_iterations = c.work_iterations i) : Working (s.set_worker i p) :=
  forall_update
    (P := fun i (p : worker_thread_t) => ∀ w, p = .working w → w.Valid ∧ w.work_iterations = c.work_iterations i)
    h hp

theorem Working.step (h : Working s) {e : event_t c} (hstep : step s e = some s') : Working s' := by
  cases e with
  | worker i spurious =>
    simp only [latches.step, worker_thread] at hstep
    split at hstep
    · obtain ⟨next, -, rfl⟩ := Option.map_eq_some_iff.mp hstep
      refine h.set_worker fun w heq => ?_
      cases next with
      | some at_ => cases heq
      | none =>
        obtain rfl := worker_thread_t.working.inj heq
        exact ⟨loop_head_valid (Nat.zero_le _), rfl⟩
    · next w hat =>
      obtain ⟨hvalid, hsame⟩ := h i w hat
      split at hstep
      · obtain rfl := Option.some.inj hstep
        exact h.set_worker (by simp)
      · obtain rfl := Option.some.inj hstep
        obtain ⟨hvalid', hsame', -⟩ := worker_step_spec hvalid spurious s.shared_counter
        refine h.set_worker fun w' heq => ?_
        obtain rfl := worker_thread_t.working.inj heq
        exact ⟨hvalid', hsame'.trans hsame⟩
    · next at_ hat =>
      obtain rfl := Option.some.inj hstep
      dsimp only [worker_count_down]
      refine h.set_worker fun w heq => ?_
      split at heq <;> cases heq
    · cases hstep
  | coordinator interrupted =>
    simp only [latches.step, coordinator_thread] at hstep
    split at hstep
    · obtain rfl := Option.some.inj hstep
      intro i w heq
      change (if _ then _ else _ : Fin c.workers → worker_thread_t) i = _ at heq
      split at heq
      · have hwakes : Wakes worker_thread_t.asleep worker_thread_t.wake s.worker _ := wakes_of_broadcast
        obtain hkept | ⟨hasleep, hwake⟩ := hwakes i
        · exact h i w (hkept.symm.trans heq)
        · have hsleeping : s.worker i = .starting .asleep := by simpa [worker_thread_t.asleep] using hasleep
          rw [hsleeping] at hwake
          rw [hwake] at heq
          cases heq
      · exact h i w heq
    · obtain ⟨next, -, rfl⟩ := Option.map_eq_some_iff.mp hstep
      exact h
    · cases hstep

/-- What holds in every state the program reaches. -/
structure Live (s : state c) : Prop where
  released : Released s
  completed : Completed s
  signalled : Signalled s
  working : Working s

theorem start_live (c : config) : Live (start c) :=
  ⟨start_released c, start_completed c, start_signalled c, fun i w heq => by cases heq⟩

theorem live_step (s s' : state c) (e : event_t c) (h : Live s) (hstep : step s e = some s') : Live s' :=
  ⟨h.released.step (step_effect hstep), h.completed.step (step_effect hstep),
    h.signalled.step h.released h.completed (step_effect hstep), h.working.step hstep⟩

/-- The compare-exchange or the wait of the step ends early. -/
def event_t.is_early : event_t c → Bool
  | .worker _ spurious => spurious
  | .coordinator interrupted => interrupted

/-- No thread can go on, unless a wait is interrupted. -/
def Stuck (s : state c) : Prop := ∀ e : event_t c, e.is_early = false → step s e = none

/-- All threads have returned. -/
def Finished (s : state c) : Prop := s.coordinator = .finished ∧ ∀ i, s.worker i = .finished

theorem asleep_of_latch_wait {latch : latch_t} {at_ : wait_t} (h : latch_wait latch false at_ = none) :
    at_ = .asleep := by
  cases at_ with
  | spin i =>
    simp only [latch_wait] at h
    split at h
    · cases h
    · split at h <;> cases h
  | load =>
    simp only [latch_wait] at h
    split at h <;> cases h
  | wait =>
    simp only [latch_wait] at h
    split at h <;> cases h
  | asleep => rfl

/-- There is no lost wake-up: with a worker to wake it, the coordinator does not sleep for
ever, nor do the workers. -/
theorem Live.finished_of_stuck (h : Live s) (hworkers : 0 < c.workers) (hstuck : Stuck s) : Finished s := by
  have hcoordinator : s.coordinator = .waiting .asleep ∨ s.coordinator = .finished := by
    have hnone := hstuck (.coordinator false) rfl
    simp only [latches.step, coordinator_thread] at hnone
    split at hnone
    · cases hnone
    · next at_ hat =>
      obtain rfl := asleep_of_latch_wait (Option.map_eq_none_iff.mp hnone)
      exact Or.inl hat
    · next hat => exact Or.inr hat
  have hissued : s.start_latch.wake_issued = true := by
    refine h.signalled.started fun at_ heq => ?_
    obtain hat | hat := hcoordinator <;> rw [hat] at heq <;> cases heq
  have hall : ∀ i, s.worker i = .finished := by
    intro i
    have hnone := hstuck (.worker i false) rfl
    simp only [latches.step, worker_thread] at hnone
    split at hnone
    · next at_ hat =>
      obtain rfl := asleep_of_latch_wait (Option.map_eq_none_iff.mp hnone)
      exact absurd hat (h.released.awake hissued i)
    · split at hnone <;> cases hnone
    · cases hnone
    · next hat => exact hat
  refine ⟨?_, hall⟩
  have hzero : s.completion_latch.count = 0 := by
    have hcounted : clib.condition.count worker_thread_t.counted s.worker = Fintype.card (Fin c.workers) :=
      count_eq_card fun i => by rw [hall i]; rfl
    rw [h.completed.count, hcounted, Fintype.card_fin, Int.sub_self]
  obtain ⟨i, hi⟩ | hwoken := h.signalled.completed hzero hworkers
  · rw [hall i] at hi
    obtain hi | hi := hi <;> cases hi
  · exact hcoordinator.resolve_left (h.completed.awake hwoken)

section Weight

/-- The steps left in `latch_wait`, at most, when the latch is open or not. -/
def wait_t.weight (opened : Bool) : wait_t → Nat
  | .spin i => SPIN_COUNT - i + 5
  | .load => if opened then 1 else 4
  | .wait => if opened then 2 else 3
  | .asleep => 2

/-- The steps left in an iteration of the work loop, as long as the counter stays. -/
def phase_weight (shared_counter : Int32) : phase_t → Nat
  | .load => 2
  | .attempt cas => if shared_counter = cas.expected then 1 else 4
  | .reload _ => 3
  | .finished => 0

def count_down_t.weight : count_down_t → Nat
  | .sub => 3
  | .store => 2
  | .wake => 1

/-- What an iteration weighs: more than its success can add to the other workers. -/
def iteration_weight (c : config) : Nat := 3 * c.workers + 6

def worker_thread_t.weight (i : Fin c.workers) (shared_counter : Int32) (opened : Bool) : worker_thread_t → Nat
  | .starting at_ => iteration_weight c * (c.work_iterations i).toInt.toNat + 10 + at_.weight opened
  | .working w =>
    iteration_weight c * ((c.work_iterations i).toInt.toNat - w.i) + 4 + phase_weight shared_counter w.phase
  | .completing at_ => at_.weight
  | .finished => 0

def coordinator_t.weight (opened : Bool) : coordinator_t → Nat
  | .releasing at_ => SPIN_COUNT + 5 + at_.weight
  | .waiting at_ => at_.weight opened
  | .finished => 0

def latch_t.opened (latch : latch_t) : Bool := latch.futex_var ≠ 0

def state.weight (s : state c) : Nat :=
  s.coordinator.weight s.completion_latch.opened +
    ∑ i, (s.worker i).weight i s.shared_counter s.start_latch.opened

/-- What a step that ends early may add. -/
def event_t.gain (e : event_t c) : Nat := if e.is_early then 3 else 0

theorem wait_weight_le (opened : Bool) (at_ : wait_t) : at_.weight true ≤ at_.weight opened := by
  cases at_ <;> cases opened <;> simp [wait_t.weight]

theorem wait_weight_pos (opened : Bool) (at_ : wait_t) : 0 < at_.weight opened := by
  cases at_ <;> cases opened <;> simp [wait_t.weight]

theorem latch_wait_weight {latch : latch_t} {early : Bool} {at_ next : wait_t}
    (h : latch_wait latch early at_ = some (some next)) :
    next.weight latch.opened + 1 ≤ at_.weight latch.opened + if early then 3 else 0 := by
  have hopened : latch.opened = true ↔ latch.futex_var ≠ 0 := decide_eq_true_iff
  cases at_ with
  | spin i =>
    simp only [latch_wait] at h
    split at h
    · obtain rfl := Option.some.inj (Option.some.inj h)
      simp only [wait_t.weight]
      split <;> omega
    · split at h
      · obtain rfl := Option.some.inj (Option.some.inj h)
        simp only [wait_t.weight]
        omega
      · obtain rfl := Option.some.inj (Option.some.inj h)
        simp only [wait_t.weight]
        split <;> omega
  | load =>
    simp only [latch_wait] at h
    split at h
    · next hzero =>
      obtain rfl := Option.some.inj (Option.some.inj h)
      have hclosed : latch.opened = false := by simp [latch_t.opened, hzero]
      rw [hclosed]
      simp [wait_t.weight]
    · cases Option.some.inj h
  | wait =>
    simp only [latch_wait] at h
    split at h
    · next hearly =>
      obtain rfl := Option.some.inj (Option.some.inj h)
      obtain rfl | hopen := hearly
      · simp only [wait_t.weight]
        split <;> simp
      · rw [hopened.mpr hopen]
        simp [wait_t.weight]
    · next hnot =>
      obtain rfl := Option.some.inj (Option.some.inj h)
      have hclosed : latch.opened = false := by
        rw [Bool.eq_false_iff]
        exact fun hopen => hnot (Or.inr (hopened.mp hopen))
      rw [hclosed]
      simp [wait_t.weight]
  | asleep =>
    simp only [latch_wait] at h
    split at h
    · next hearly =>
      obtain rfl := Option.some.inj (Option.some.inj h)
      rw [hearly]
      simp only [wait_t.weight]
      split <;> simp
    · cases h

/-- An operation of the work loop, when its worker has not left the loop: it ends an
iteration, or brings the end of the iteration nearer. -/
theorem worker_step_weight {w : worker_t} (hvalid : w.Valid) (hrunning : w.phase ≠ .finished) (early : Bool)
    (shared_counter : Int32) :
    (worker_step early shared_counter w).2.i = w.i + 1 ∧ w.i < w.work_iterations.toInt.toNat ∧
        phase_weight (worker_step early shared_counter w).1 (worker_step early shared_counter w).2.phase ≤ 2 ∨
      (worker_step early shared_counter w).1 = shared_counter ∧ (worker_step early shared_counter w).2.i = w.i ∧
        phase_weight shared_counter (worker_step early shared_counter w).2.phase + 1 ≤
          phase_weight shared_counter w.phase + if early then 3 else 0 := by
  have hlt := hvalid.running hrunning
  unfold worker_step
  cases hphase : w.phase with
  | load => exact Or.inr ⟨rfl, rfl, by simp [phase_weight]⟩
  | attempt cas =>
    dsimp only
    split
    · refine Or.inl ⟨rfl, hlt, ?_⟩
      dsimp only [loop_head]
      split <;> simp [phase_weight]
    · next hfails =>
      refine Or.inr ⟨rfl, rfl, ?_⟩
      dsimp only [phase_weight]
      split
      · next hexpected =>
        have hearly : early = true := by
          by_contra hnot
          exact hfails ⟨hexpected, by simpa using hnot⟩
        simp [hearly]
      · omega
  | reload cas =>
    refine Or.inr ⟨rfl, rfl, ?_⟩
    have hle (p : phase_t) (hp : p = .load ∨ ∃ cas', p = .attempt cas' ∧ cas'.expected = shared_counter) :
        phase_weight shared_counter p ≤ 2 := by
      obtain rfl | ⟨cas', rfl, hexpected⟩ := hp
      · exact Nat.le_refl 2
      · simp [phase_weight, hexpected]
    refine (Nat.add_le_add_right (hle _ ?_) 1).trans (Nat.le_add_right 3 _)
    dsimp only
    split
    · exact Or.inr ⟨_, rfl, rfl⟩
    · exact Or.inl rfl
  | finished => exact absurd hphase hrunning

theorem phase_weight_le (x y : Int32) (p : phase_t) : phase_weight y p ≤ phase_weight x p + 3 := by
  cases p with
  | attempt cas =>
    simp only [phase_weight]
    split <;> split <;> omega
  | _ => exact Nat.le_add_right _ 3

theorem worker_weight_le (i : Fin c.workers) (x y : Int32) (opened : Bool) (p : worker_thread_t) :
    p.weight i y opened ≤ p.weight i x opened + 3 := by
  cases p with
  | working w =>
    have hle := phase_weight_le x y w.phase
    simp only [worker_thread_t.weight]
    omega
  | _ => exact Nat.le_add_right _ 3

theorem sum_set_worker (s : state c) (i : Fin c.workers) (p : worker_thread_t) (x : Int32) (opened : Bool) :
    ∑ j, ((s.set_worker i p).worker j).weight j x opened + (s.worker i).weight i x opened =
      ∑ j, (s.worker j).weight j x opened + p.weight i x opened := by
  have hmap : (fun j => ((s.set_worker i p).worker j).weight j x opened) =
      Function.update (fun j => (s.worker j).weight j x opened) i (p.weight i x opened) :=
    funext fun j => Function.apply_update (fun j (q : worker_thread_t) => q.weight j x opened) s.worker i p j
  rw [hmap]
  exact total_update (fun j => (s.worker j).weight j x opened) i (p.weight i x opened)

theorem worker_count_down_weight (h : Live s) {i : Fin c.workers} {at_ : count_down_t}
    (hat : s.worker i = .completing at_) :
    (worker_count_down s i at_).weight + 1 ≤ s.weight := by
  have hstep (p : worker_thread_t) (hp : p.weight i s.shared_counter s.start_latch.opened < at_.weight)
      {opened : Bool} {coordinator : coordinator_t}
      (hcoordinator : coordinator.weight opened ≤ s.coordinator.weight s.completion_latch.opened) :
      coordinator.weight opened +
        ∑ j, ((s.set_worker i p).worker j).weight j s.shared_counter s.start_latch.opened + 1 ≤
        s.weight := by
    have hsum := sum_set_worker s i p s.shared_counter s.start_latch.opened
    have hold : (s.worker i).weight i s.shared_counter s.start_latch.opened = at_.weight := by
      rw [hat]
      rfl
    unfold state.weight
    omega
  cases at_ with
  | sub =>
    by_cases hone : s.completion_latch.count = 1
    · simp only [worker_count_down, latch_count_down, hone, if_true]
      exact hstep (.completing .store) (by decide : 2 < 3) (Nat.le_refl _)
    · simp only [worker_count_down, latch_count_down, hone, if_false]
      exact hstep .finished (by decide : 0 < 3) (Nat.le_refl _)
  | store =>
    refine hstep (.completing .wake) (by decide : 1 < 2) ?_
    change s.coordinator.weight true ≤ s.coordinator.weight s.completion_latch.opened
    cases s.coordinator with
    | waiting at_ => exact wait_weight_le _ at_
    | _ => exact Nat.le_refl _
  | wake =>
    refine hstep .finished (by decide : 0 < 1) ?_
    have hopen : s.completion_latch.opened = true := decide_eq_true (h.completed.stored i hat)
    change s.coordinator.wake.weight s.completion_latch.opened ≤ s.coordinator.weight s.completion_latch.opened
    rw [hopen]
    rcases s.coordinator with _ | (_ | _ | _ | _) | _ <;> simp [coordinator_t.wake, coordinator_t.weight, wait_t.weight]

theorem worker_weight_step (h : Live s) {i : Fin c.workers} {early : Bool} (hstep : worker_thread s i early = some s') :
    s'.weight + 1 ≤ s.weight + if early then 3 else 0 := by
  have hset (p : worker_thread_t) (gain : Nat)
      (hp : p.weight i s.shared_counter s.start_latch.opened + 1 ≤
        (s.worker i).weight i s.shared_counter s.start_latch.opened + gain) :
    (s.set_worker i p).weight + 1 ≤ s.weight + gain := by
    have hsum := sum_set_worker s i p s.shared_counter s.start_latch.opened
    simp only [state.weight]
    change s.coordinator.weight s.completion_latch.opened +
      ∑ j, ((s.set_worker i p).worker j).weight j s.shared_counter s.start_latch.opened + 1 ≤ _
    omega
  unfold worker_thread at hstep
  split at hstep
  · next at_ hat =>
    obtain ⟨next, hnext, rfl⟩ := Option.map_eq_some_iff.mp hstep
    cases next with
    | some next =>
      have hwait := latch_wait_weight hnext
      refine hset _ _ ?_
      rw [hat]
      simp only [worker_thread_t.weight]
      omega
    | none =>
      refine hset _ _ ?_
      have hphase : phase_weight s.shared_counter (loop_head (c.work_iterations i) 0).phase ≤ 2 := by
        dsimp only [loop_head]
        split <;> simp [phase_weight]
      rw [hat]
      simp only [worker_thread_t.weight, loop_head, Nat.sub_zero] at hphase ⊢
      omega
  · next w hat =>
    obtain ⟨hvalid, hsame⟩ := h.working i w hat
    split at hstep
    · obtain rfl := Option.some.inj hstep
      refine hset (.completing .sub) _ ?_
      rw [hat]
      simp only [worker_thread_t.weight, count_down_t.weight]
      omega
    · next hrunning =>
      have hcases := worker_step_weight hvalid hrunning early s.shared_counter
      generalize worker_step early s.shared_counter w = out at hstep hcases
      obtain ⟨shared_counter, w'⟩ := out
      obtain rfl := Option.some.inj hstep
      dsimp only at hcases
      obtain ⟨hi, hlt, hphase⟩ | ⟨rfl, hi, hphase⟩ := hcases
      · -- the iteration is over, and other workers may have to read the counter again
        refine Nat.le_add_right_of_le ?_
        have hothers : ∑ j, ((s.set_worker i (.working w')).worker j).weight j shared_counter s.start_latch.opened ≤
            ∑ j, (((s.set_worker i (.working w')).worker j).weight j s.shared_counter s.start_latch.opened + 3) :=
          Finset.sum_le_sum fun j _ => worker_weight_le j s.shared_counter shared_counter _ _
        have hall : ∑ _j : Fin c.workers, 3 = 3 * c.workers := by simp [Nat.mul_comm]
        rw [Finset.sum_add_distrib, hall] at hothers
        have hsum := sum_set_worker s i (.working w') s.shared_counter s.start_latch.opened
        have hcounter := phase_weight_le shared_counter s.shared_counter w'.phase
        rw [hsame] at hlt
        obtain ⟨left, hleft⟩ : ∃ left, (c.work_iterations i).toInt.toNat - w.i = left + 1 :=
          ⟨(c.work_iterations i).toInt.toNat - w.i - 1, by omega⟩
        have hnext : (c.work_iterations i).toInt.toNat - w'.i = left := by omega
        have hweight : iteration_weight c = 3 * c.workers + 6 := rfl
        rw [hat, worker_thread_t.weight.eq_2, worker_thread_t.weight.eq_2, hleft, hnext, Nat.mul_succ] at hsum
        change s.coordinator.weight s.completion_latch.opened +
          ∑ j, ((s.set_worker i (.working w')).worker j).weight j shared_counter s.start_latch.opened + 1 ≤ s.weight
        unfold state.weight
        omega
      · refine hset (.working w') _ ?_
        rw [hat]
        simp only [worker_thread_t.weight, hi]
        omega
  · next at_ hat =>
    obtain rfl := Option.some.inj hstep
    exact (worker_count_down_weight h hat).trans (Nat.le_add_right _ _)
  · cases hstep

theorem coordinator_weight_step (h : Live s) {early : Bool} (hstep : coordinator_thread s early = some s') :
    s'.weight + 1 ≤ s.weight + if early then 3 else 0 := by
  unfold coordinator_thread at hstep
  split at hstep
  · next at_ hat =>
    obtain rfl := Option.some.inj hstep
    refine Nat.le_add_right_of_le ?_
    have hold : s.weight = SPIN_COUNT + 5 + at_.weight +
        ∑ i, (s.worker i).weight i s.shared_counter s.start_latch.opened := by
      rw [state.weight, hat]
      rfl
    rw [hold]
    cases at_ with
    | sub =>
      have hcount := h.released.count
      rw [hat] at hcount
      have hone : s.start_latch.count = 1 := hcount
      simp only [hone, if_true]
      change SPIN_COUNT + 5 + 2 + ∑ i, (s.worker i).weight i s.shared_counter s.start_latch.opened + 1 ≤
        SPIN_COUNT + 5 + 3 + _
      omega
    | store =>
      have hle : ∑ i, (s.worker i).weight i s.shared_counter true ≤
          ∑ i, (s.worker i).weight i s.shared_counter s.start_latch.opened := by
        refine Finset.sum_le_sum fun i _ => ?_
        cases s.worker i with
        | starting at_ => exact Nat.add_le_add_left (wait_weight_le _ at_) _
        | _ => exact Nat.le_refl _
      change SPIN_COUNT + 5 + 1 + ∑ i, (s.worker i).weight i s.shared_counter true + 1 ≤ SPIN_COUNT + 5 + 2 + _
      omega
    | wake =>
      have hfutex := h.released.futex
      rw [hat] at hfutex
      have hopen : s.start_latch.opened = true := decide_eq_true (by rw [hfutex]; decide)
      have hle : ∑ i, (broadcast worker_thread_t.asleep worker_thread_t.wake s.worker i).weight i s.shared_counter
          s.start_latch.opened ≤ ∑ i, (s.worker i).weight i s.shared_counter s.start_latch.opened := by
        refine Finset.sum_le_sum fun i _ => ?_
        have hwakes : Wakes worker_thread_t.asleep worker_thread_t.wake s.worker _ := wakes_of_broadcast
        obtain hkept | ⟨hasleep, hwake⟩ := hwakes i
        · rw [hkept]
        · have hsleeping : s.worker i = .starting .asleep := by simpa [worker_thread_t.asleep] using hasleep
          rw [hwake, hsleeping, hopen]
          exact Nat.le_succ _
      change SPIN_COUNT - 0 + 5 + ∑ i, (broadcast worker_thread_t.asleep worker_thread_t.wake s.worker i).weight i
        s.shared_counter s.start_latch.opened + 1 ≤ SPIN_COUNT + 5 + 1 + _
      omega
  · next at_ hat =>
    obtain ⟨next, hnext, rfl⟩ := Option.map_eq_some_iff.mp hstep
    have hold : s.weight = at_.weight s.completion_latch.opened +
        ∑ i, (s.worker i).weight i s.shared_counter s.start_latch.opened := by
      rw [state.weight, hat]
      rfl
    rw [hold]
    cases next with
    | some next =>
      have hwait := latch_wait_weight hnext
      change next.weight s.completion_latch.opened +
        ∑ i, (s.worker i).weight i s.shared_counter s.start_latch.opened + 1 ≤ _
      omega
    | none =>
      have hpos := wait_weight_pos s.completion_latch.opened at_
      change 0 + ∑ i, (s.worker i).weight i s.shared_counter s.start_latch.opened + 1 ≤ _
      omega
  · cases hstep

theorem step_weight (h : Live s) {e : event_t c} (hstep : step s e = some s') : s'.weight + 1 ≤ s.weight + e.gain := by
  cases e with
  | worker i spurious => exact worker_weight_step h hstep
  | coordinator interrupted => exact coordinator_weight_step h hstep

/-- No run goes on for ever, unless compare-exchanges or waits keep ending early: each of
these costs three steps at most. -/
theorem latches_run_length_le {events : List (event_t c)} (hsteps : steps step (start c) events = some s) :
    events.length ≤ 1008 + ∑ i, ((3 * c.workers + 6) * (c.work_iterations i).toInt.toNat + 1015) +
      3 * events.countP event_t.is_early := by
  have hcost (s s' : state c) (e : event_t c) (h : Live s) (hstep : step s e = some s') :
      s'.weight + 1 ≤ s.weight + e.gain :=
    step_weight h hstep
  have hle := steps_length_le_countP live_step hcost (start_live c) hsteps
  have hstart : (start c).weight = 1008 + ∑ i, ((3 * c.workers + 6) * (c.work_iterations i).toInt.toNat + 1015) := rfl
  omega

theorem latches_run_length_couple : ∃ s, steps step (start couple) (couple_events couple 0 1) = some s ∧
    (couple_events couple 0 1).length ≤
      1008 + ∑ i, ((3 * couple.workers + 6) * (couple.work_iterations i).toInt.toNat + 1015) +
        3 * (couple_events couple 0 1).countP event_t.is_early := by
  have hruns : (steps step (start couple) (couple_events couple 0 1)).isSome = true := by decide
  obtain ⟨s, hsteps⟩ := Option.isSome_iff_exists.mp hruns
  exact ⟨s, hsteps, latches_run_length_le hsteps⟩

/-- No wake-up is lost exactly if there is a worker: then a program that cannot go on has
ended. Without one nobody opens the latch that the coordinator waits for. -/
theorem latches_never_stuck_iff (c : config) :
    (∀ s : state c, Reachable step (start c) s → Stuck s → Finished s) ↔ 0 < c.workers := by
  constructor
  · intro hends
    by_contra hnone
    have hempty : ∀ i : Fin c.workers, False := fun i => by
      have hlt := i.isLt
      omega
    have hcost (s s' : state c) (e : event_t c) (h : Live s) (he : e.is_early = false) (hstep : step s e = some s') :
        s'.weight < s.weight := by
      have hless := step_weight h hstep
      rw [event_t.gain, he] at hless
      exact hless
    obtain ⟨s, hreachable, hstuck⟩ := exists_final live_step hcost .start (start_live c)
    have hshut : s.completion_latch.futex_var = 0 := by
      refine hreachable.invariant (P := fun s => s.completion_latch.futex_var = 0) rfl fun s s' e hzero hstep => ?_
      cases step_effect hstep with
      | worker_wait i => exact (hempty i).elim
      | worker_begin i => exact (hempty i).elim
      | work i => exact (hempty i).elim
      | add i => exact (hempty i).elim
      | worker_count_down i => exact (hempty i).elim
      | _ => exact hzero
    have hlive : Live s := hreachable.invariant (start_live c) live_step
    exact hlive.completed.done (hends s hreachable hstuck).1 hshut
  · intro hworkers s hreachable hstuck
    have hlive : Live s := hreachable.invariant (start_live c) live_step
    exact hlive.finished_of_stuck hworkers hstuck

end Weight

end csystems.futex_demo.latches
