import CSystems.ReadWriteLock.Safety

open clib.condition clib.run

namespace csystems.read_write_lock

variable {θ : Type} [Fintype θ] [DecidableEq θ] {s s' : state θ} {t : θ}

/-- A thread sleeps on the condition variable. -/
def Sleeper (f : θ → thread_t) (cond : condition_t) : Prop := ∃ t, (f t).sleeps cond = true

/-- No wake-up is lost: a writer sleeps only while the lock is taken or another writer
is woken, and a reader only while a writer holds the lock or waits for it. -/
structure NoneLost (rw : rwlock_t) (f : θ → thread_t) : Prop where
  writer : Sleeper f .writers_ok → rw.readers > 0 ∨ rw.writers > 0 ∨ ∃ t, f t = .wrlock .woken
  reader : Sleeper f .readers_ok → rw.writers > 0 ∨ rw.waiting_writers > 0

omit [Fintype θ] in
/-- A thread that moves on makes no new sleeper, unless it falls asleep itself. -/
theorem sleeper_of_update {f : θ → thread_t} {p : thread_t} {cond : condition_t} (hp : p.sleeps cond = false)
    (h : Sleeper (Function.update f t p) cond) : Sleeper f cond := by
  obtain ⟨u, hu⟩ := h
  by_cases hut : u = t
  · rw [hut, Function.update_self, hp] at hu
    cases hu
  · rw [Function.update_of_ne hut] at hu
    exact ⟨u, hu⟩

theorem wake_sleeps (p : thread_t) (cond : condition_t) : p.wake.sleeps cond = false := by
  rcases p with _ | (_ | _ | _) | _ | _ | (_ | _ | _) | _ | _ <;> cases cond <;> rfl

omit [Fintype θ] [DecidableEq θ] in
theorem sleeper_of_wakes {f g : θ → thread_t} {cond cond' : condition_t}
    (hwakes : Wakes (thread_t.sleeps cond) thread_t.wake f g) (h : Sleeper g cond') : Sleeper f cond' := by
  obtain ⟨u, hu⟩ := h
  obtain heq | ⟨-, heq⟩ := hwakes u
  · exact ⟨u, heq ▸ hu⟩
  · rw [heq, wake_sleeps] at hu
    cases hu

omit [Fintype θ] in
/-- A thread other than the one that moves on stays woken. -/
theorem woken_update {f : θ → thread_t} (ht : f t ≠ .wrlock .woken) (p : thread_t)
    (h : ∃ u, f u = .wrlock .woken) : ∃ u, Function.update f t p u = .wrlock .woken := by
  obtain ⟨u, hu⟩ := h
  have hut : u ≠ t := by
    rintro rfl
    exact ht hu
  exact ⟨u, by rwa [Function.update_of_ne hut]⟩

theorem wake_of_writers_ok {p : thread_t} (h : p.sleeps .writers_ok = true) : p.wake = .wrlock .woken := by
  simp [thread_t.sleeps] at h
  rw [h]
  rfl

theorem waits_of_writers_ok {p : thread_t} (h : p.sleeps .writers_ok = true) : p.waits = true := by
  simp [thread_t.sleeps] at h
  rw [h]
  rfl

/-- A signal of `writers_ok` makes up for any writer that sleeps. -/
theorem cond_signal_writer {woken : Finset θ} (hsignal : cond_signal s .writers_ok woken = some s')
    (h : Sleeper s'.thread .writers_ok) : ∃ t, s'.thread t = .wrlock .woken := by
  obtain ⟨-, hwakes, ⟨u, hsleeps, heq⟩ | hnone⟩ := cond_signal_cases hsignal
  · exact ⟨u, heq.trans (wake_of_writers_ok hsleeps)⟩
  · obtain ⟨u, hu⟩ := sleeper_of_wakes hwakes h
    rw [hnone u] at hu
    cases hu

omit [Fintype θ] in
theorem NoneLost.rdlock (h : NoneLost s.rw s.thread) (hnonneg : 0 ≤ s.rw.readers)
    (hat : s.thread t = .rdlock .called ∨ s.thread t = .rdlock .woken) :
    NoneLost (rwlock_rdlock s t).rw (rwlock_rdlock s t).thread := by
  have hwoken : s.thread t ≠ .wrlock .woken := by
    obtain hat | hat := hat <;> simp [hat]
  unfold rwlock_rdlock
  split
  case isTrue hheld =>
    refine ⟨fun hsleeper => ?_, fun _ => hheld⟩
    obtain hreaders | hwriters | hexists := h.writer (sleeper_of_update (by rfl) hsleeper)
    · exact Or.inl hreaders
    · exact Or.inr (Or.inl hwriters)
    · exact Or.inr (Or.inr (woken_update hwoken _ hexists))
  case isFalse =>
    refine ⟨fun _ => Or.inl ?_, fun hsleeper => h.reader (sleeper_of_update (by rfl) hsleeper)⟩
    dsimp only
    omega

theorem NoneLost.rdunlock (h : NoneLost s.rw s.thread) {woken : Finset θ}
    (hstep : rwlock_rdunlock s t woken = some s') (hinv : Inv s') : NoneLost s'.rw s'.thread := by
  unfold rwlock_rdunlock at hstep
  dsimp only at hstep
  split at hstep
  · obtain ⟨hrw, hwakes, -⟩ := cond_signal_cases hstep
    refine ⟨fun hsleeper => Or.inr (Or.inr (cond_signal_writer hstep hsleeper)), fun hsleeper => ?_⟩
    rw [hrw]
    exact h.reader (sleeper_of_update (by rfl) (sleeper_of_wakes hwakes hsleeper))
  case isFalse hreaders =>
    have hnonneg := hinv.counted.nonneg.1
    obtain rfl := Option.some.inj hstep
    refine ⟨fun _ => Or.inl ?_, fun hsleeper => h.reader (sleeper_of_update (by rfl) hsleeper)⟩
    dsimp only at hnonneg ⊢
    omega

omit [Fintype θ] in
theorem NoneLost.wrlock (h : NoneLost s.rw s.thread) :
    NoneLost (rwlock_wrlock s t).rw (rwlock_wrlock s t).thread := by
  unfold rwlock_wrlock
  split
  case isTrue hheld =>
    refine ⟨fun _ => ?_, fun hsleeper => h.reader (sleeper_of_update (by rfl) hsleeper)⟩
    obtain hwriters | hreaders := hheld
    · exact Or.inr (Or.inl hwriters)
    · exact Or.inl hreaders
  case isFalse => exact ⟨fun _ => Or.inr (Or.inl Int.one_pos), fun _ => Or.inl Int.one_pos⟩

omit [Fintype θ] in
/-- A writer that has just counted itself as waiting makes up for those that sleep. -/
theorem NoneLost.enter_wrlock (hnonneg : 0 ≤ s.rw.waiting_writers) :
    NoneLost ((enter_wrlock s).set t (.wrlock .woken)).rw ((enter_wrlock s).set t (.wrlock .woken)).thread := by
  refine ⟨fun _ => Or.inr (Or.inr ⟨t, state.set_thread_self ..⟩), fun _ => Or.inr ?_⟩
  show s.rw.waiting_writers + 1 > 0
  omega

theorem NoneLost.wrunlock {woken : Finset θ} (hstep : rwlock_wrunlock s t woken = some s')
    (hinv : Inv s') : NoneLost s'.rw s'.thread := by
  unfold rwlock_wrunlock at hstep
  dsimp only at hstep
  split at hstep
  case isTrue hwaiting =>
    refine ⟨fun hsleeper => Or.inr (Or.inr (cond_signal_writer hstep hsleeper)), fun _ => Or.inr ?_⟩
    rw [(cond_signal_cases hstep).1]
    exact hwaiting
  case isFalse hwaiting =>
    obtain rfl := Option.some.inj hstep
    refine ⟨fun hsleeper => ?_, fun hsleeper => ?_⟩
    · obtain ⟨u, hu⟩ := hsleeper
      have hpos := count_pos_iff.mpr ⟨u, waits_of_writers_ok hu⟩
      rw [← hinv.counted.waiting] at hpos
      exact absurd hpos hwaiting
    · obtain ⟨u, hu⟩ := hsleeper
      simp only [cond_broadcast, broadcast] at hu
      split at hu
      · rw [wake_sleeps] at hu
        cases hu
      · contradiction

theorem NoneLost.step {e : event_t θ} (h : NoneLost s.rw s.thread) (hinv : Inv s) (hstep : step s e = some s') :
    NoneLost s'.rw s'.thread := by
  have hinv' := hinv.step hstep
  cases step_effect hstep with
  | move t p hreads hwrites hwaits hawake hwoken =>
    refine ⟨fun hsleeper => ?_, fun hsleeper => h.reader (sleeper_of_update (hawake _) hsleeper)⟩
    obtain hreaders | hwriters | hexists := h.writer (sleeper_of_update (hawake _) hsleeper)
    · exact Or.inl hreaders
    · exact Or.inr (Or.inl hwriters)
    · exact Or.inr (Or.inr (woken_update hwoken _ hexists))
  | rdlock t hat => exact h.rdlock hinv.counted.nonneg.1 hat
  | rdunlock t woken _ hat hstep => exact h.rdunlock hstep hinv'
  | enter_wrlock t hat =>
    have hentered := (NoneLost.enter_wrlock (t := t) hinv.counted.nonneg.2.2).wrlock (t := t)
    rwa [rwlock_wrlock_set] at hentered
  | wrlock t hat => exact h.wrlock
  | wrunlock t woken _ hat hstep => exact NoneLost.wrunlock hstep hinv'

theorem reachable_noneLost (h : Reachable step (start θ) s) : NoneLost s.rw s.thread := by
  have hboth : Inv s ∧ NoneLost s.rw s.thread := by
    apply h.invariant (P := fun s => Inv s ∧ NoneLost s.rw s.thread)
    · refine ⟨start_inv, ⟨?_, ?_⟩⟩ <;> rintro ⟨t, ht⟩ <;> cases ht
    · intro s s' e hboth hstep
      exact ⟨hboth.1.step hstep, hboth.2.step hboth.1 hstep⟩
  exact hboth.2

/-- A thread sleeps although the lock is free, no thread is on its way back from a
sleep and none but the sleepers is inside a call. -/
structure Stuck (s : state θ) : Prop where
  sleeper : ∃ t cond, (s.thread t).sleeps cond = true
  free : s.rw.readers = 0 ∧ s.rw.writers = 0
  unwoken : ∀ t, (s.thread t).woken = false
  quiet : ∀ t, (s.thread t).calls = true → ∃ cond, (s.thread t).sleeps cond = true

/-- No wake-up is lost by the lock, however its threads interleave. -/
theorem lock_never_stuck (h : Reachable step (start θ) s) : ¬ Stuck s := by
  intro hstuck
  have hlost := reachable_noneLost h
  have hcounted := (reachable_inv h).counted
  obtain ⟨hreaders, hwriters⟩ := hstuck.free
  have hunwoken : ¬ ∃ t, s.thread t = .wrlock .woken := by
    rintro ⟨t, ht⟩
    have hwoken := hstuck.unwoken t
    rw [ht] at hwoken
    cases hwoken
  have hnowriter : ¬ Sleeper s.thread .writers_ok := by
    intro hsleeper
    obtain hpos | hpos | hwoken := hlost.writer hsleeper
    · omega
    · omega
    · exact hunwoken hwoken
  obtain ⟨t, cond, ht⟩ := hstuck.sleeper
  cases cond with
  | writers_ok => exact hnowriter ⟨t, ht⟩
  | readers_ok =>
    -- the writer that holds the reader back would have to be asleep itself
    have hwaiting : 0 < s.rw.waiting_writers := by
      obtain hpos | hpos := hlost.reader ⟨t, ht⟩
      · omega
      · exact hpos
    rw [hcounted.waiting, count_pos_iff] at hwaiting
    obtain ⟨u, hu⟩ := hwaiting
    simp [thread_t.waits] at hu
    obtain hu | hu := hu
    · exact hnowriter ⟨u, by rw [hu]; rfl⟩
    · exact hunwoken ⟨u, hu⟩

/-- A reader holds the lock and a writer sleeps; then the reader gives the lock back
and its signal wakes the writer. -/
def handover_events : List (event_t (Fin 2)) :=
  [.rdlock 0, .wrlock 1, .run 0 ∅, .run 1 ∅, .unlock 0, .run 0 {1}]

theorem lock_never_stuck_handover : ∃ s, steps step (start (Fin 2)) handover_events = some s ∧ ¬ Stuck s := by
  have hsome : (steps step (start (Fin 2)) handover_events).isSome = true := by decide
  have hsteps := (Option.some_get hsome).symm
  exact ⟨_, hsteps, lock_never_stuck (Reachable.start.steps hsteps)⟩

end csystems.read_write_lock
