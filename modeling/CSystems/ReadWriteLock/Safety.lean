import CSystems.ReadWriteLock.Program

open clib.condition clib.run

namespace csystems.read_write_lock

variable {θ : Type} [Fintype θ] [DecidableEq θ] {s s' : state θ} {t : θ}

/-- The counters are the numbers of threads that they stand for. -/
structure Counted (s : state θ) : Prop where
  readers : s.rw.readers = count thread_t.reads s.thread
  writers : s.rw.writers = count thread_t.writes s.thread
  waiting : s.rw.waiting_writers = count thread_t.waits s.thread

/-- At most one thread writes, and none while another reads. -/
structure Exclusive (rw : rwlock_t) : Prop where
  single : rw.writers ≤ 1
  apart : ¬ (0 < rw.readers ∧ 0 < rw.writers)

omit [DecidableEq θ] in
theorem Counted.nonneg (h : Counted s) : 0 ≤ s.rw.readers ∧ 0 ≤ s.rw.writers ∧ 0 ≤ s.rw.waiting_writers := by
  rw [h.readers, h.writers, h.waiting]
  exact ⟨count_nonneg _ _, count_nonneg _ _, count_nonneg _ _⟩

/-- A thread moves on, and each counter changes by what the move changes. -/
theorem Counted.set (h : Counted s) {p q : thread_t} {rw : rwlock_t} (hat : s.thread t = q)
    (hreaders : rw.readers = s.rw.readers - (if q.reads = true then 1 else 0) + (if p.reads = true then 1 else 0))
    (hwriters : rw.writers = s.rw.writers - (if q.writes = true then 1 else 0) + (if p.writes = true then 1 else 0))
    (hwaiting : rw.waiting_writers =
      s.rw.waiting_writers - (if q.waits = true then 1 else 0) + (if p.waits = true then 1 else 0)) :
    Counted { s.set t p with rw := rw } := by
  subst hat
  refine ⟨?_, ?_, ?_⟩
  · rw [hreaders, h.readers]
    exact (count_update _ _ _ _).symm
  · rw [hwriters, h.writers]
    exact (count_update _ _ _ _).symm
  · rw [hwaiting, h.waiting]
    exact (count_update _ _ _ _).symm

/-- A move that no counter stands for. -/
theorem Counted.move (h : Counted s) {p q : thread_t} (hat : s.thread t = q) (hreads : p.reads = q.reads)
    (hwrites : p.writes = q.writes) (hwaits : p.waits = q.waits) : Counted (s.set t p) := by
  refine h.set hat ?_ ?_ ?_
  · rw [hreads]
    omega
  · rw [hwrites]
    omega
  · rw [hwaits]
    omega

theorem reads_wake (p : thread_t) : p.wake.reads = p.reads := by
  rcases p with _ | (_ | _ | _) | _ | _ | (_ | _ | _) | _ | _ <;> rfl

theorem writes_wake (p : thread_t) : p.wake.writes = p.writes := by
  rcases p with _ | (_ | _ | _) | _ | _ | (_ | _ | _) | _ | _ <;> rfl

theorem waits_wake (p : thread_t) : p.wake.waits = p.waits := by
  rcases p with _ | (_ | _ | _) | _ | _ | (_ | _ | _) | _ | _ <;> rfl

omit [DecidableEq θ] in
/-- Threads that wake stay counted where they are. -/
theorem Counted.wakes (h : Counted s) {cond : condition_t} {thread : θ → thread_t}
    (hwakes : Wakes (thread_t.sleeps cond) thread_t.wake s.thread thread) :
    Counted { s with thread := thread } := by
  refine ⟨?_, ?_, ?_⟩
  · rw [hwakes.count_eq fun p _ => reads_wake p]
    exact h.readers
  · rw [hwakes.count_eq fun p _ => writes_wake p]
    exact h.writers
  · rw [hwakes.count_eq fun p _ => waits_wake p]
    exact h.waiting

theorem cond_signal_cases {cond : condition_t} {woken : Finset θ} (hsignal : cond_signal s cond woken = some s') :
    s'.rw = s.rw ∧ Wakes (thread_t.sleeps cond) thread_t.wake s.thread s'.thread ∧
      ((∃ u, (s.thread u).sleeps cond = true ∧ s'.thread u = (s.thread u).wake) ∨
        ∀ u, (s.thread u).sleeps cond = false) := by
  obtain ⟨thread, hthread, rfl⟩ := Option.map_eq_some_iff.mp hsignal
  exact ⟨rfl, wakes_of_signal hthread, signal_wakes hthread⟩

theorem Counted.signal (h : Counted s) {cond : condition_t} {woken : Finset θ}
    (hsignal : cond_signal s cond woken = some s') : Counted s' := by
  obtain ⟨thread, hthread, rfl⟩ := Option.map_eq_some_iff.mp hsignal
  exact h.wakes (wakes_of_signal hthread)

/-- What holds of the counters and the threads in every reachable state. -/
structure Inv (s : state θ) : Prop where
  counted : Counted s
  exclusive : Exclusive s.rw

omit [DecidableEq θ] in
theorem start_inv : Inv (start θ) := by
  refine ⟨⟨?_, ?_, ?_⟩, ⟨?_, ?_⟩⟩ <;>
    simp [start, rwlock_init, count, thread_t.reads, thread_t.writes, thread_t.waits]

theorem Inv.rdlock (h : Inv s) (hat : s.thread t = .rdlock .called ∨ s.thread t = .rdlock .woken) :
    Inv (rwlock_rdlock s t) := by
  unfold rwlock_rdlock
  split
  case isTrue =>
    refine ⟨?_, h.exclusive⟩
    obtain hat | hat := hat <;> exact h.counted.move hat rfl rfl rfl
  case isFalse hfree =>
    refine ⟨?_, ⟨h.exclusive.single, ?_⟩⟩
    · obtain hat | hat := hat <;> exact h.counted.set hat (by simp [thread_t.reads]) (by simp [thread_t.writes])
        (by simp [thread_t.waits])
    · dsimp only
      omega

theorem Inv.rdunlock (h : Inv s) (hat : s.thread t = .rdunlock) {woken : Finset θ}
    (hstep : rwlock_rdunlock s t woken = some s') : Inv s' := by
  have hcounted : Counted { s.set t .outside with rw := { s.rw with readers := s.rw.readers - 1 } } :=
    h.counted.set hat (by simp [thread_t.reads]) (by simp [thread_t.writes]) (by simp [thread_t.waits])
  have hexclusive : Exclusive { s.rw with readers := s.rw.readers - 1 } := by
    obtain ⟨hsingle, hapart⟩ := h.exclusive
    refine ⟨hsingle, ?_⟩
    dsimp only
    omega
  unfold rwlock_rdunlock at hstep
  dsimp only at hstep
  split at hstep
  · refine ⟨hcounted.signal hstep, ?_⟩
    rw [(cond_signal_cases hstep).1]
    exact hexclusive
  · obtain rfl := Option.some.inj hstep
    exact ⟨hcounted, hexclusive⟩

theorem Inv.wrlock (h : Inv s) (hat : s.thread t = .wrlock .woken) : Inv (rwlock_wrlock s t) := by
  obtain ⟨hreaders, hwriters, hwaiting⟩ := h.counted.nonneg
  unfold rwlock_wrlock
  split
  case isTrue => exact ⟨h.counted.move hat rfl rfl rfl, h.exclusive⟩
  case isFalse hfree =>
    refine ⟨h.counted.set hat ?_ ?_ ?_, ⟨?_, ?_⟩⟩
    · simp [thread_t.reads]
    · simp [thread_t.writes]
      omega
    · simp [thread_t.waits]
    · simp
    · dsimp only
      omega

/-- The counters and the threads right after `waiting_writers++`. -/
theorem Inv.enter_wrlock (h : Inv s) (hat : s.thread t = .wrlock .called) :
    Inv ((enter_wrlock s).set t (.wrlock .woken)) := by
  refine ⟨?_, ⟨h.exclusive.single, h.exclusive.apart⟩⟩
  unfold read_write_lock.enter_wrlock
  exact h.counted.set hat (by simp [thread_t.reads]) (by simp [thread_t.writes]) (by simp [thread_t.waits])

omit [Fintype θ] in
/-- The loop of `rwlock_wrlock` does not depend on where its thread was. -/
theorem rwlock_wrlock_set (s : state θ) (t : θ) (p : thread_t) : rwlock_wrlock (s.set t p) t = rwlock_wrlock s t := by
  simp [rwlock_wrlock, state.set]

theorem Inv.wrunlock (h : Inv s) (hat : s.thread t = .wrunlock) {woken : Finset θ}
    (hstep : rwlock_wrunlock s t woken = some s') : Inv s' := by
  have hone : s.rw.writers = 1 := by
    have hpos : 0 < count thread_t.writes s.thread := count_pos_iff.mpr ⟨t, by rw [hat]; rfl⟩
    have hsingle := h.exclusive.single
    rw [← h.counted.writers] at hpos
    omega
  have hcounted : Counted { s.set t .outside with rw := { s.rw with writers := 0 } } := by
    refine h.counted.set hat ?_ ?_ ?_
    · simp [thread_t.reads]
    · simp [thread_t.writes, hone]
    · simp [thread_t.waits]
  have hexclusive : Exclusive { s.rw with writers := 0 } := ⟨by simp, by simp⟩
  unfold rwlock_wrunlock at hstep
  dsimp only at hstep
  split at hstep
  · refine ⟨hcounted.signal hstep, ?_⟩
    rw [(cond_signal_cases hstep).1]
    exact hexclusive
  · obtain rfl := Option.some.inj hstep
    exact ⟨hcounted.wakes wakes_of_broadcast, hexclusive⟩

/-- What a step does: a thread moves on without touching the lock, or runs a section. -/
inductive Effect (s : state θ) : state θ → Prop where
  | move (t : θ) (p : thread_t) (hreads : p.reads = (s.thread t).reads) (hwrites : p.writes = (s.thread t).writes)
    (hwaits : p.waits = (s.thread t).waits) (hawake : ∀ cond, p.sleeps cond = false)
    (hwoken : s.thread t ≠ .wrlock .woken) : Effect s (s.set t p)
  | rdlock (t : θ) (hat : s.thread t = .rdlock .called ∨ s.thread t = .rdlock .woken) : Effect s (rwlock_rdlock s t)
  | rdunlock (t : θ) (woken : Finset θ) (s' : state θ) (hat : s.thread t = .rdunlock)
    (hstep : rwlock_rdunlock s t woken = some s') : Effect s s'
  | enter_wrlock (t : θ) (hat : s.thread t = .wrlock .called) : Effect s (rwlock_wrlock (enter_wrlock s) t)
  | wrlock (t : θ) (hat : s.thread t = .wrlock .woken) : Effect s (rwlock_wrlock s t)
  | wrunlock (t : θ) (woken : Finset θ) (s' : state θ) (hat : s.thread t = .wrunlock)
    (hstep : rwlock_wrunlock s t woken = some s') : Effect s s'

theorem wake_awake {p : thread_t} (h : p.sleeps .readers_ok ∨ p.sleeps .writers_ok) :
    (∀ cond, p.wake.sleeps cond = false) ∧ p ≠ .wrlock .woken := by
  rcases p with _ | (_ | _ | _) | _ | _ | (_ | _ | _) | _ | _ <;> simp [thread_t.sleeps, thread_t.wake] at h ⊢ <;>
    rintro (_ | _) <;> rfl

theorem step_effect {e : event_t θ} (hstep : step s e = some s') : Effect s s' := by
  have hmove {t : θ} {p q : thread_t} (hat : s.thread t = q) (hreads : p.reads = q.reads)
      (hwrites : p.writes = q.writes) (hwaits : p.waits = q.waits) (hawake : ∀ cond, p.sleeps cond = false)
      (hwoken : q ≠ .wrlock .woken) : Effect s (s.set t p) :=
    .move t p (hat ▸ hreads) (hat ▸ hwrites) (hat ▸ hwaits) hawake (hat ▸ hwoken)
  unfold step at hstep
  split at hstep
  case h_1 t =>
    split at hstep
    case isTrue hat => exact Option.some.inj hstep ▸ hmove hat rfl rfl rfl (by rintro (_ | _) <;> rfl) (by simp)
    case isFalse => cases hstep
  case h_2 t =>
    split at hstep
    case isTrue hat => exact Option.some.inj hstep ▸ hmove hat rfl rfl rfl (by rintro (_ | _) <;> rfl) (by simp)
    case isFalse => cases hstep
  case h_3 t =>
    split at hstep
    case h_1 hat => exact Option.some.inj hstep ▸ hmove hat rfl rfl rfl (by rintro (_ | _) <;> rfl) (by simp)
    case h_2 hat => exact Option.some.inj hstep ▸ hmove hat rfl rfl rfl (by rintro (_ | _) <;> rfl) (by simp)
    case h_3 => cases hstep
  case h_4 t woken =>
    split at hstep
    case h_1 hat => exact Option.some.inj hstep ▸ .rdlock t (Or.inl hat)
    case h_2 hat => exact Option.some.inj hstep ▸ .rdlock t (Or.inr hat)
    case h_3 hat => exact .rdunlock t woken s' hat hstep
    case h_4 hat => exact Option.some.inj hstep ▸ .enter_wrlock t hat
    case h_5 hat => exact Option.some.inj hstep ▸ .wrlock t hat
    case h_6 hat => exact .wrunlock t woken s' hat hstep
    case h_7 => cases hstep
  case h_5 t =>
    split at hstep
    case isTrue hsleeps =>
      obtain ⟨hawake, hwoken⟩ := wake_awake hsleeps
      exact Option.some.inj hstep ▸ hmove rfl (reads_wake _) (writes_wake _) (waits_wake _) hawake hwoken
    case isFalse => cases hstep

theorem Inv.step {e : event_t θ} (h : Inv s) (hstep : step s e = some s') : Inv s' := by
  cases step_effect hstep with
  | move t p hreads hwrites hwaits => exact ⟨h.counted.move rfl hreads hwrites hwaits, h.exclusive⟩
  | rdlock t hat => exact h.rdlock hat
  | rdunlock t woken _ hat hstep => exact h.rdunlock hat hstep
  | enter_wrlock t hat =>
    have hentered := (h.enter_wrlock hat).wrlock (t := t) (Function.update_self ..)
    rwa [rwlock_wrlock_set] at hentered
  | wrlock t hat => exact h.wrlock hat
  | wrunlock t woken _ hat hstep => exact h.wrunlock hat hstep

theorem reachable_inv (h : Reachable step (start θ) s) : Inv s :=
  h.invariant start_inv fun _ _ _ hinv hstep => hinv.step hstep

omit [Fintype θ] in
/-- Threads other than the one that runs do not come to read, also when they wake. -/
theorem reads_of_wakes {cond : condition_t} {f g : θ → thread_t} {u : θ}
    (hwakes : Wakes (thread_t.sleeps cond) thread_t.wake (Function.update f t .outside) g)
    (hout : (f u).reads = false) : (g u).reads = false := by
  have hupdate : (Function.update f t .outside u).reads = false := by
    by_cases hut : u = t
    · rw [hut, Function.update_self]
      rfl
    · rwa [Function.update_of_ne hut]
  obtain heq | ⟨-, heq⟩ := hwakes u
  · rwa [heq]
  · rwa [heq, reads_wake]

omit [Fintype θ] in
theorem set_reads {u : θ} {p : thread_t} (hp : p.reads = (s.thread t).reads ∨ p.reads = false)
    (hout : (s.thread u).reads = false) : ((s.set t p).thread u).reads = false := by
  by_cases hut : u = t
  · subst hut
    rw [state.set_thread_self]
    obtain hp | hp := hp
    · rwa [hp]
    · exact hp
  · rwa [state.set_thread_of_ne s hut]

/-- A thread that comes to read does so while no writer waits. -/
theorem Inv.enter_read (h : Inv s) {e : event_t θ} (hstep : read_write_lock.step s e = some s') {u : θ}
    (hout : (s.thread u).reads = false) (hin : (s'.thread u).reads = true) : s.rw.waiting_writers = 0 := by
  by_contra hwaiting
  suffices hnot : (s'.thread u).reads = false by
    rw [hnot] at hin
    cases hin
  cases step_effect hstep with
  | move t p hreads => exact set_reads (Or.inl hreads) hout
  | rdlock t hat =>
    have hnonneg := h.counted.nonneg
    have hsleep : s.rw.writers > 0 ∨ s.rw.waiting_writers > 0 := by omega
    rw [rwlock_rdlock, if_pos hsleep]
    exact set_reads (Or.inr rfl) hout
  | rdunlock t woken _ hat hstep =>
    unfold rwlock_rdunlock at hstep
    dsimp only at hstep
    split at hstep
    · exact reads_of_wakes (cond_signal_cases hstep).2.1 hout
    · obtain rfl := Option.some.inj hstep
      exact set_reads (Or.inr rfl) hout
  | enter_wrlock t hat =>
    unfold rwlock_wrlock
    split <;> exact set_reads (s := read_write_lock.enter_wrlock s) (Or.inr rfl) hout
  | wrlock t hat =>
    unfold rwlock_wrlock
    split <;> exact set_reads (Or.inr rfl) hout
  | wrunlock t woken _ hat hstep =>
    unfold rwlock_wrunlock at hstep
    dsimp only at hstep
    split at hstep
    · exact reads_of_wakes (cond_signal_cases hstep).2.1 hout
    · obtain rfl := Option.some.inj hstep
      exact reads_of_wakes wakes_of_broadcast hout

/-- Mutual exclusion: the counters are the numbers of threads in a read section, in
a write section and waiting to write, at most one thread writes, none while another
reads, and none comes to read while a writer waits. -/
theorem lock_excludes (h : Reachable step (start θ) s) :
    s.rw.readers = (Finset.univ.filter fun t => (s.thread t).reads).card ∧
    s.rw.writers = (Finset.univ.filter fun t => (s.thread t).writes).card ∧
    s.rw.waiting_writers = (Finset.univ.filter fun t => (s.thread t).waits).card ∧
    s.rw.writers ≤ 1 ∧ ¬ (0 < s.rw.readers ∧ 0 < s.rw.writers) ∧
    ∀ e s', step s e = some s' → ∀ t, (s.thread t).reads = false → (s'.thread t).reads = true →
      s.rw.waiting_writers = 0 := by
  have hinv := reachable_inv h
  obtain ⟨⟨hreaders, hwriters, hwaiting⟩, ⟨hsingle, hapart⟩⟩ := hinv
  refine ⟨hreaders, hwriters, hwaiting, hsingle, hapart, ?_⟩
  intro e s' hstep t hout hin
  exact (reachable_inv h).enter_read hstep hout hin

/-- One thread reads while another waits to write and a third one to read. -/
def waiting_events : List (event_t (Fin 3)) :=
  [.rdlock 0, .run 0 ∅, .wrlock 1, .run 1 ∅, .rdlock 2, .run 2 ∅]

theorem lock_excludes_waiting : ∃ s, steps step (start (Fin 3)) waiting_events = some s ∧
    s.rw.readers = (Finset.univ.filter fun t => (s.thread t).reads).card ∧
    s.rw.waiting_writers = (Finset.univ.filter fun t => (s.thread t).waits).card := by
  have hsome : (steps step (start (Fin 3)) waiting_events).isSome = true := by decide
  have hsteps := (Option.some_get hsome).symm
  have hexcludes := lock_excludes (Reachable.start.steps hsteps)
  exact ⟨_, hsteps, hexcludes.1, hexcludes.2.2.1⟩

end csystems.read_write_lock
