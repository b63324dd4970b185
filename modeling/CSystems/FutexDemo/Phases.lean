import CSystems.FutexDemo.Latch

open clib.condition clib.run

namespace csystems.futex_demo.latches

variable {c : config} {s s' : state c}

/-- What a step of a thread does. -/
inductive Effect (s : state c) : state c → Prop where
  | worker_wait (i : Fin c.workers) (at_ next : wait_t) (hat : s.worker i = .starting at_)
    (hasleep : next = .asleep → s.start_latch.futex_var = 0) : Effect s (s.set_worker i (.starting next))
  | worker_begin (i : Fin c.workers) (at_ : wait_t) (w : worker_t) (hat : s.worker i = .starting at_)
    (hopen : s.start_latch.futex_var ≠ 0) : Effect s (s.set_worker i (.working w))
  | work (i : Fin c.workers) (w w' : worker_t) (shared_counter : Int32) (hat : s.worker i = .working w) :
    Effect s { s.set_worker i (.working w') with shared_counter := shared_counter }
  | add (i : Fin c.workers) (w : worker_t) (hat : s.worker i = .working w) :
    Effect s { s.set_worker i (.completing .sub) with work_done := s.work_done + 1 }
  | worker_count_down (i : Fin c.workers) (at_ : count_down_t) (hat : s.worker i = .completing at_) :
    Effect s (worker_count_down s i at_)
  | release (hat : s.coordinator = .releasing .sub) :
    Effect s { s with
      start_latch := { s.start_latch with count := s.start_latch.count - 1 }
      coordinator := if s.start_latch.count = 1 then .releasing .store else .waiting (.spin 0) }
  | store (hat : s.coordinator = .releasing .store) :
    Effect s { s with start_latch := { s.start_latch with futex_var := 1 }, coordinator := .releasing .wake }
  | wake (hat : s.coordinator = .releasing .wake) :
    Effect s { s with
      start_latch := { s.start_latch with wake_issued := true }
      worker := broadcast worker_thread_t.asleep worker_thread_t.wake s.worker
      coordinator := .waiting (.spin 0) }
  | coordinator_wait (at_ next : wait_t) (hat : s.coordinator = .waiting at_)
    (hasleep : next = .asleep → s.completion_latch.futex_var = 0) : Effect s { s with coordinator := .waiting next }
  | coordinator_done (at_ : wait_t) (hat : s.coordinator = .waiting at_)
    (hopen : s.completion_latch.futex_var ≠ 0) : Effect s { s with coordinator := .finished }

/-- A wait returns, or falls asleep, only as the futex says. -/
theorem latch_wait_cases {latch : latch_t} {interrupted : Bool} {at_ : wait_t} {next : Option wait_t}
    (h : latch_wait latch interrupted at_ = some next) :
    (∃ p, next = some p ∧ (p = .asleep → latch.futex_var = 0)) ∨ (next = none ∧ latch.futex_var ≠ 0) := by
  cases at_ with
  | spin i =>
    simp only [latch_wait] at h
    split at h
    · exact Or.inl ⟨.load, (Option.some.inj h).symm, by simp⟩
    · split at h
      · exact Or.inl ⟨.spin (i + 1), (Option.some.inj h).symm, by simp⟩
      · exact Or.inl ⟨.load, (Option.some.inj h).symm, by simp⟩
  | load =>
    simp only [latch_wait] at h
    split at h
    · exact Or.inl ⟨.wait, (Option.some.inj h).symm, by simp⟩
    · exact Or.inr ⟨(Option.some.inj h).symm, by assumption⟩
  | wait =>
    simp only [latch_wait] at h
    split at h
    · exact Or.inl ⟨.load, (Option.some.inj h).symm, by simp⟩
    · refine Or.inl ⟨.asleep, (Option.some.inj h).symm, fun _ => ?_⟩
      by_contra hnot
      exact absurd (Or.inr hnot) (by assumption)
  | asleep =>
    simp only [latch_wait] at h
    split at h
    · exact Or.inl ⟨.load, (Option.some.inj h).symm, by simp⟩
    · cases h

theorem step_effect {e : event_t c} (hstep : step s e = some s') : Effect s s' := by
  cases e with
  | worker i spurious =>
    simp only [step, worker_thread] at hstep
    split at hstep
    case h_1 at_ hat =>
      obtain ⟨next, hnext, rfl⟩ := Option.map_eq_some_iff.mp hstep
      obtain ⟨p, rfl, hasleep⟩ | ⟨rfl, hopen⟩ := latch_wait_cases hnext
      · exact .worker_wait i at_ p hat hasleep
      · exact .worker_begin i at_ _ hat hopen
    case h_2 w hat =>
      split at hstep
      · exact Option.some.inj hstep ▸ .add i w hat
      · exact Option.some.inj hstep ▸ .work i w _ _ hat
    case h_3 at_ hat => exact Option.some.inj hstep ▸ .worker_count_down i at_ hat
    case h_4 => cases hstep
  | coordinator interrupted =>
    simp only [step] at hstep
    cases hat : s.coordinator with
    | releasing at_ =>
      cases at_ with
      | sub =>
        have heffect := Effect.release hat
        by_cases hlast : s.start_latch.count = 1 <;>
          simp [coordinator_thread, hat, latch_count_down, hlast] at hstep heffect
        · exact hstep ▸ heffect
        · exact hstep ▸ heffect
      | store =>
        simp only [coordinator_thread, hat, latch_count_down] at hstep
        exact Option.some.inj hstep ▸ .store hat
      | wake =>
        simp only [coordinator_thread, hat, latch_count_down] at hstep
        exact Option.some.inj hstep ▸ .wake hat
    | waiting at_ =>
      simp only [coordinator_thread, hat] at hstep
      obtain ⟨next, hnext, rfl⟩ := Option.map_eq_some_iff.mp hstep
      obtain ⟨p, rfl, hasleep⟩ | ⟨rfl, hopen⟩ := latch_wait_cases hnext
      · exact .coordinator_wait at_ p hat hasleep
      · exact .coordinator_done at_ hat hopen
    | finished =>
      simp only [coordinator_thread, hat] at hstep
      cases hstep

/-- What holds of `start_latch`: it is open once the coordinator has stored to it, no
worker gets past it before, and none sleeps on it after the wake. -/
structure Released (s : state c) : Prop where
  count : s.start_latch.count = if s.coordinator.counted = true then 0 else 1
  futex : s.start_latch.futex_var = if s.coordinator.released = true then 1 else 0
  held : s.start_latch.futex_var = 0 → ∀ i, ∃ at_, s.worker i = .starting at_
  opened : s.start_latch.wake_issued = true → s.start_latch.futex_var ≠ 0
  awake : s.start_latch.wake_issued = true → ∀ i, s.worker i ≠ .starting .asleep

theorem start_released (c : config) : Released (start c) := by
  refine ⟨rfl, rfl, fun _ i => ⟨_, rfl⟩, ?_, ?_⟩ <;> intro hissued <;> cases hissued

/-- A worker moves on, not to sleep, after the latch is open. -/
theorem Released.set_worker (h : Released s) {i : Fin c.workers} {p : worker_thread_t}
    (hopen : s.start_latch.futex_var ≠ 0) (hp : p ≠ .starting .asleep) : Released (s.set_worker i p) := by
  refine ⟨h.count, h.futex, fun hzero => absurd hzero hopen, h.opened, fun hissued => ?_⟩
  exact forall_update (P := fun _ (p : worker_thread_t) => p ≠ .starting .asleep) (h.awake hissued) hp

theorem Released.open_of (h : Released s) {i : Fin c.workers} {p : worker_thread_t} (hat : s.worker i = p)
    (hp : ∀ at_, p ≠ .starting at_) : s.start_latch.futex_var ≠ 0 := by
  intro hzero
  obtain ⟨at_, hstarting⟩ := h.held hzero i
  exact hp at_ (hat.symm.trans hstarting)

theorem wake_counted (p : coordinator_t) : p.wake.counted = p.counted := by
  rcases p with _ | (_ | _ | _ | _) | _ <;> rfl

theorem wake_released (p : coordinator_t) : p.wake.released = p.released := by
  rcases p with _ | (_ | _ | _ | _) | _ <;> rfl

theorem worker_count_down_worker (s : state c) (i : Fin c.workers) (at_ : count_down_t) :
    ∃ p, p ≠ .starting .asleep ∧ (worker_count_down s i at_).worker = (s.set_worker i p).worker := by
  dsimp only [worker_count_down]
  refine ⟨_, ?_, rfl⟩
  split <;> simp

theorem worker_count_down_coordinator (s : state c) (i : Fin c.workers) (at_ : count_down_t) :
    (worker_count_down s i at_).coordinator = s.coordinator ∨
      (worker_count_down s i at_).coordinator = s.coordinator.wake := by
  dsimp only [worker_count_down]
  split
  · exact Or.inr rfl
  · exact Or.inl rfl

theorem Released.step (h : Released s) (heffect : Effect s s') : Released s' := by
  cases heffect with
  | worker_wait i at_ next hat hasleep =>
    refine ⟨h.count, h.futex, fun hzero => ?_, h.opened, fun hissued => ?_⟩
    · exact forall_update (P := fun _ (p : worker_thread_t) => ∃ at_, p = .starting at_) (h.held hzero) ⟨next, rfl⟩
    · apply forall_update (P := fun _ (p : worker_thread_t) => p ≠ .starting .asleep) (h.awake hissued)
      intro heq
      exact h.opened hissued (hasleep (worker_thread_t.starting.inj heq))
  | worker_begin i at_ w hat hopen => exact h.set_worker hopen (by simp)
  | work i w w' shared_counter hat =>
    have hset := h.set_worker (i := i) (p := .working w') (h.open_of hat (by simp)) (by simp)
    exact ⟨hset.1, hset.2, hset.3, hset.4, hset.5⟩
  | add i w hat =>
    have hset := h.set_worker (i := i) (p := .completing .sub) (h.open_of hat (by simp)) (by simp)
    exact ⟨hset.1, hset.2, hset.3, hset.4, hset.5⟩
  | worker_count_down i at_ hat =>
    obtain ⟨p, hp, hworker⟩ := worker_count_down_worker s i at_
    have hset := h.set_worker (i := i) (h.open_of hat (by simp)) hp
    have hcoordinator := worker_count_down_coordinator s i at_
    refine ⟨?_, ?_, hworker ▸ hset.3, hset.4, hworker ▸ hset.5⟩
    · obtain heq | heq := hcoordinator <;> rw [heq]
      · exact h.count
      · rw [wake_counted]
        exact h.count
    · obtain heq | heq := hcoordinator <;> rw [heq]
      · exact h.futex
      · rw [wake_released]
        exact h.futex
  | release hat =>
    obtain ⟨hcount, hfutex, hheld, hopened, hawake⟩ := h
    rw [hat] at hcount hfutex
    have hone : s.start_latch.count = 1 := hcount
    refine ⟨?_, ?_, hheld, hopened, hawake⟩ <;> dsimp only
    · rw [if_pos hone, hone]
      rfl
    · rw [if_pos hone, hfutex]
      rfl
  | store hat =>
    have hcount := h.count
    rw [hat] at hcount
    refine ⟨hcount, rfl, fun hzero => ?_, fun _ => by simp, h.awake⟩
    cases hzero
  | wake hat =>
    obtain ⟨hcount, hfutex, hheld, hopened, hawake⟩ := h
    rw [hat] at hcount hfutex
    have hone : s.start_latch.futex_var = 1 := hfutex
    refine ⟨hcount, hfutex, fun hzero => ?_, fun _ => ?_, fun _ i => ?_⟩
    · rw [hone] at hzero
      cases hzero
    · dsimp only
      omega
    · dsimp only [broadcast]
      split
      · unfold worker_thread_t.wake
        split
        · simp
        · assumption
      case isFalse hnot => simpa [worker_thread_t.asleep] using hnot
  | coordinator_wait at_ next hat hasleep =>
    obtain ⟨hcount, hfutex, hheld, hopened, hawake⟩ := h
    rw [hat] at hcount hfutex
    exact ⟨hcount, hfutex, hheld, hopened, hawake⟩
  | coordinator_done at_ hat hopen =>
    obtain ⟨hcount, hfutex, hheld, hopened, hawake⟩ := h
    rw [hat] at hcount hfutex
    exact ⟨hcount, hfutex, hheld, hopened, hawake⟩

/-- What holds of `completion_latch`: its count is the number of workers that have not
counted down yet, and only the last of them opens it. -/
structure Completed (s : state c) : Prop where
  work_done : s.work_done = count worker_thread_t.added s.worker
  count : s.completion_latch.count = c.workers - count worker_thread_t.counted s.worker
  last : ∀ i, s.worker i = .completing .store ∨ s.worker i = .completing .wake → s.completion_latch.count = 0
  stored : ∀ i, s.worker i = .completing .wake → s.completion_latch.futex_var ≠ 0
  opened : s.completion_latch.futex_var ≠ 0 → s.completion_latch.count = 0
  issued : s.completion_latch.wake_issued = true → s.completion_latch.futex_var ≠ 0
  awake : s.completion_latch.wake_issued = true → s.coordinator ≠ .waiting .asleep
  done : s.coordinator = .finished → s.completion_latch.futex_var ≠ 0

theorem start_completed (c : config) : Completed (start c) := by
  refine ⟨?_, ?_, by simp [start], by simp [start], ?_, ?_, ?_, by simp [start]⟩
  · simp [start, clib.condition.count, worker_thread_t.added]
  · simp [start, latch_init, clib.condition.count, worker_thread_t.counted]
  · simp [start, latch_init]
  · simp [start, latch_init]
  · simp [start]

theorem added_of_counted {p : worker_thread_t} (h : p.counted = true) : p.added = true := by
  rcases p with _ | _ | (_ | _ | _) | _ <;> first | rfl | cases h

/-- A worker that has not added yet moves on without adding. -/
theorem Completed.set_worker (h : Completed s) {i : Fin c.workers} {p : worker_thread_t}
    (hold : (s.worker i).added = false) (hp : p.added = false) : Completed (s.set_worker i p) := by
  have hcounted (q : worker_thread_t) (hq : q.added = false) : q.counted = false := by
    by_contra hnot
    rw [added_of_counted (by simpa using hnot)] at hq
    cases hq
  have hcompleting (at_ : count_down_t) : p ≠ .completing at_ := by
    rintro rfl
    cases hp
  refine ⟨?_, ?_, ?_, ?_, h.opened, h.issued, h.awake, h.done⟩
  · refine h.work_done.trans ?_
    simp [state.set_worker, count_update, hold, hp]
  · refine h.count.trans ?_
    simp [state.set_worker, count_update, hcounted _ hold, hcounted _ hp]
  · apply forall_update (P := fun _ (p : worker_thread_t) => p = .completing .store ∨ p = .completing .wake →
      s.completion_latch.count = 0) h.last
    rintro (heq | heq)
    · exact absurd heq (hcompleting _)
    · exact absurd heq (hcompleting _)
  · exact forall_update (P := fun _ (p : worker_thread_t) => p = .completing .wake →
      s.completion_latch.futex_var ≠ 0) h.stored fun heq => absurd heq (hcompleting _)

theorem Completed.add (h : Completed s) {i : Fin c.workers} {w : worker_t} (hat : s.worker i = .working w) :
    Completed { s.set_worker i (.completing .sub) with work_done := s.work_done + 1 } := by
  refine ⟨?_, ?_, ?_, ?_, h.opened, h.issued, h.awake, h.done⟩
  · dsimp only [state.set_worker]
    rw [h.work_done, count_update, hat]
    simp [worker_thread_t.added]
  · refine h.count.trans ?_
    dsimp only [state.set_worker]
    rw [count_update, hat]
    simp [worker_thread_t.counted]
  · exact forall_update (P := fun _ (p : worker_thread_t) => p = .completing .store ∨ p = .completing .wake →
      s.completion_latch.count = 0) h.last (by simp)
  · exact forall_update (P := fun _ (p : worker_thread_t) => p = .completing .wake →
      s.completion_latch.futex_var ≠ 0) h.stored (by simp)

/-- While a worker has still to count down, the latch is closed. -/
theorem Completed.closed (h : Completed s) {i : Fin c.workers} (hat : (s.worker i).counted = false) :
    0 < s.completion_latch.count := by
  have hlt := count_lt_card (p := worker_thread_t.counted) (f := s.worker) hat
  rw [Fintype.card_fin] at hlt
  rw [h.count]
  omega

theorem Completed.sub (h : Completed s) {i : Fin c.workers} (hat : s.worker i = .completing .sub) :
    Completed (worker_count_down s i .sub) := by
  have hclosed := h.closed (i := i) (by rw [hat]; rfl)
  have hshut : s.completion_latch.futex_var = 0 := by
    by_contra hopen
    have hzero := h.opened hopen
    omega
  have hnone : ∀ j, s.worker j = .completing .store ∨ s.worker j = .completing .wake → False := by
    intro j hj
    have hzero := h.last j hj
    omega
  have hcounts (p : worker_thread_t) (hp : p.counted = true) :
      s.work_done = clib.condition.count worker_thread_t.added (Function.update s.worker i p) ∧
        s.completion_latch.count - 1 =
          c.workers - clib.condition.count worker_thread_t.counted (Function.update s.worker i p) := by
    rw [count_update, count_update, hat, h.work_done, h.count]
    have hadded : (worker_thread_t.completing .sub).added = true := rfl
    have hcounted : (worker_thread_t.completing .sub).counted = false := rfl
    simp [hadded, hcounted, hp, added_of_counted hp]
    omega
  simp only [worker_count_down, latch_count_down]
  by_cases hone : s.completion_latch.count = 1
  · simp only [hone, if_true]
    refine ⟨(hcounts (.completing .store) rfl).1, ?_, ?_, ?_, fun _ => rfl, h.issued, h.awake, h.done⟩
    · have hcount := (hcounts (.completing .store) rfl).2
      rw [hone] at hcount
      exact hcount
    · exact fun _ _ => rfl
    · exact forall_update (P := fun _ (p : worker_thread_t) => p = .completing .wake →
        s.completion_latch.futex_var ≠ 0) h.stored (by simp)
  · simp only [hone, if_false]
    refine ⟨(hcounts .finished rfl).1, (hcounts .finished rfl).2, ?_, ?_, fun hopen => absurd hshut hopen, h.issued,
      h.awake, h.done⟩
    · exact forall_update (P := fun _ (p : worker_thread_t) => p = .completing .store ∨ p = .completing .wake →
        s.completion_latch.count - 1 = 0) (fun j hj => (hnone j hj).elim) (by simp)
    · exact forall_update (P := fun _ (p : worker_thread_t) => p = .completing .wake →
        s.completion_latch.futex_var ≠ 0) h.stored (by simp)

/-- A worker that has counted down stays counted. -/
theorem Completed.counts_update (h : Completed s) {i : Fin c.workers} (hat : (s.worker i).counted = true)
    {p : worker_thread_t} (hp : p.counted = true) :
    s.work_done = clib.condition.count worker_thread_t.added (Function.update s.worker i p) ∧
      s.completion_latch.count =
        c.workers - clib.condition.count worker_thread_t.counted (Function.update s.worker i p) := by
  rw [count_update, count_update, h.work_done, h.count]
  simp [hat, hp, added_of_counted]

theorem Completed.store (h : Completed s) {i : Fin c.workers} (hat : s.worker i = .completing .store) :
    Completed (worker_count_down s i .store) := by
  have hzero := h.last i (Or.inl hat)
  obtain ⟨hadded, hcounted⟩ := h.counts_update (i := i) (by rw [hat]; rfl) (p := .completing .wake) rfl
  exact ⟨hadded, hcounted, fun _ _ => hzero, fun _ _ => by simp [worker_count_down, latch_count_down],
    fun _ => hzero, fun _ => by simp [worker_count_down, latch_count_down], h.awake,
    fun _ => by simp [worker_count_down, latch_count_down]⟩

theorem Completed.wake (h : Completed s) {i : Fin c.workers} (hat : s.worker i = .completing .wake) :
    Completed (worker_count_down s i .wake) := by
  have hzero := h.last i (Or.inr hat)
  have hopen := h.stored i hat
  obtain ⟨hadded, hcounted⟩ := h.counts_update (i := i) (by rw [hat]; rfl) (p := .finished) rfl
  refine ⟨hadded, hcounted, fun _ _ => hzero, fun _ _ => hopen, fun _ => hzero, fun _ => hopen, fun _ => ?_,
    fun _ => hopen⟩
  dsimp only [worker_count_down]
  rw [if_pos rfl]
  unfold coordinator_t.wake
  split
  · simp
  · assumption

/-- The coordinator moves on; it sleeps only on a closed latch, and returns from an
open one. -/
theorem Completed.set_coordinator (h : Completed s) {start_latch : latch_t} {p : coordinator_t}
    (hasleep : p = .waiting .asleep → s.completion_latch.futex_var = 0)
    (hdone : p = .finished → s.completion_latch.futex_var ≠ 0) :
    Completed { s with start_latch := start_latch, coordinator := p } :=
  ⟨h.work_done, h.count, h.last, h.stored, h.opened, h.issued,
    fun hissued heq => h.issued hissued (hasleep heq), hdone⟩

/-- Workers that wake stay where they are counted. -/
theorem Completed.broadcast (h : Completed s) :
    Completed { s with worker := broadcast worker_thread_t.asleep worker_thread_t.wake s.worker } := by
  have hsame (i : Fin c.workers) (at_ : count_down_t)
      (heq : clib.condition.broadcast worker_thread_t.asleep worker_thread_t.wake s.worker i = .completing at_) :
      s.worker i = .completing at_ := by
    have hwakes : Wakes worker_thread_t.asleep worker_thread_t.wake s.worker _ := wakes_of_broadcast
    obtain hkeep | ⟨hasleep, hwake⟩ := hwakes i
    · rw [← hkeep, heq]
    · simp [worker_thread_t.asleep] at hasleep
      rw [hasleep] at hwake
      rw [hwake] at heq
      cases heq
  have hcount {p : worker_thread_t → Bool} (hp : p (.starting .load) = p (.starting .asleep)) :
      clib.condition.count p (clib.condition.broadcast worker_thread_t.asleep worker_thread_t.wake s.worker) =
        clib.condition.count p s.worker := by
    refine wakes_of_broadcast.count_eq fun b hb => ?_
    simp [worker_thread_t.asleep] at hb
    rw [hb]
    exact hp
  refine ⟨?_, ?_, fun i hi => ?_, fun i hi => h.stored i (hsame i _ hi), h.opened, h.issued, h.awake, h.done⟩
  · rw [hcount rfl]
    exact h.work_done
  · rw [hcount rfl]
    exact h.count
  · obtain hi | hi := hi
    · exact h.last i (Or.inl (hsame i _ hi))
    · exact h.last i (Or.inr (hsame i _ hi))

theorem Completed.step (h : Completed s) (heffect : Effect s s') : Completed s' := by
  cases heffect with
  | worker_wait i at_ next hat hasleep => exact h.set_worker (by rw [hat]; rfl) rfl
  | worker_begin i at_ w hat hopen => exact h.set_worker (by rw [hat]; rfl) rfl
  | work i w w' shared_counter hat =>
    have hset := h.set_worker (i := i) (p := .working w') (by rw [hat]; rfl) rfl
    exact ⟨hset.1, hset.2, hset.3, hset.4, hset.5, hset.6, hset.7, hset.8⟩
  | add i w hat => exact h.add hat
  | worker_count_down i at_ hat =>
    cases at_ with
    | sub => exact h.sub hat
    | store => exact h.store hat
    | wake => exact h.wake hat
  | release hat =>
    apply h.set_coordinator <;> split <;> simp
  | store hat => exact h.set_coordinator (by simp) (by simp)
  | wake hat => exact h.broadcast.set_coordinator (by simp) (by simp)
  | coordinator_wait at_ next hat hasleep =>
    refine h.set_coordinator (fun heq => hasleep (coordinator_t.waiting.inj heq)) (by simp)
  | coordinator_done at_ hat hopen => exact h.set_coordinator (by simp) fun _ => hopen

theorem reachable_inv (h : Reachable step (start c) s) : Released s ∧ Completed s := by
  apply h.invariant (P := fun s => Released s ∧ Completed s)
  · exact ⟨start_released c, start_completed c⟩
  · intro s s' e hinv hstep
    exact ⟨hinv.1.step (step_effect hstep), hinv.2.step (step_effect hstep)⟩

/-- The latches order the phases: no worker touches the counter before the coordinator
has counted `start_latch` down, the coordinator gets past `completion_latch` only when all
workers have added to `work_done`, and none sleeps on a latch after its wake. -/
theorem latches_order_phases (h : Reachable step (start c) s) :
    (∀ i, (s.worker i).touches = true → s.coordinator.counted = true) ∧
    (s.coordinator = .finished → s.work_done = c.workers ∧ ∀ i, (s.worker i).added = true) ∧
    (s.start_latch.wake_issued = true → ∀ i, s.worker i ≠ .starting .asleep) ∧
    (s.completion_latch.wake_issued = true → s.coordinator ≠ .waiting .asleep) := by
  obtain ⟨hreleased, hcompleted⟩ := reachable_inv h
  refine ⟨fun i htouches => ?_, fun hfinished => ?_, hreleased.awake, hcompleted.awake⟩
  · by_contra hnot
    have hshut : s.coordinator.released = false := by
      cases hat : s.coordinator with
      | releasing at_ =>
        rw [hat] at hnot
        cases at_ with
        | sub => rfl
        | store => simp [coordinator_t.counted] at hnot
        | wake => simp [coordinator_t.counted] at hnot
      | waiting at_ => simp [hat, coordinator_t.counted] at hnot
      | finished => simp [hat, coordinator_t.counted] at hnot
    have hzero := hreleased.futex
    rw [if_neg (by simp [hshut])] at hzero
    obtain ⟨at_, hstarting⟩ := hreleased.held hzero i
    rw [hstarting] at htouches
    cases htouches
  · have hzero := hcompleted.opened (hcompleted.done hfinished)
    have hall : ∀ i, (s.worker i).added = true := by
      intro i
      apply added_of_counted
      by_contra hnot
      have hpos := hcompleted.closed (i := i) (by simpa using hnot)
      omega
    refine ⟨?_, hall⟩
    rw [hcompleted.work_done, count_eq_card hall, Fintype.card_fin]

/-- Two workers with two increments to make each. -/
abbrev couple : config where
  workers := 2
  work_iterations _ := 2

/-- The coordinator opens the start latch. The workers get into each other's way, and a
compare-exchange of the first one fails spuriously; the second one opens the other latch. -/
def couple_events (c : config) (i j : Fin c.workers) : List (event_t c) :=
  List.replicate 3 (.coordinator false) ++
    [.worker i false, .worker j false, .worker i false, .worker j false, .worker i false, .worker j false] ++
    [.worker i false, .worker j false, .worker j false, .worker j false, .worker i false, .worker i true] ++
    List.replicate 4 (.worker i false) ++ List.replicate 6 (.worker j false) ++ List.replicate 2 (.coordinator false)

theorem latches_order_couple : ∃ s, steps step (start couple) (couple_events couple 0 1) = some s ∧
    s.coordinator = .finished ∧ s.work_done = 2 ∧ ∀ i, (s.worker i).added = true := by
  have hfinished : (steps step (start couple) (couple_events couple 0 1)).map state.coordinator = some .finished := by
    decide
  obtain ⟨s, hsteps, hcoordinator⟩ := Option.map_eq_some_iff.mp hfinished
  exact ⟨s, hsteps, hcoordinator, (latches_order_phases (Reachable.start.steps hsteps)).2.1 hcoordinator⟩

end csystems.futex_demo.latches
