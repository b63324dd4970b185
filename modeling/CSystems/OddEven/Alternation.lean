import CSystems.Lib.Bytes
import CSystems.Lib.Run

open clib.cint clib.run

namespace csystems.odd_even

def INT_MAX : Int := 2147483647

/-- The two threads: one in `print_odd`, the other in `print_even`. -/
inductive thread where
  | odd
  | even
  deriving DecidableEq, Repr

def thread.other : thread → thread
  | .odd => .even
  | .even => .odd

/-- Where a thread is. -/
inductive thread_t where
  /-- The test of the outer loop, without the lock. -/
  | test
  /-- It has passed the test and is about to lock the mutex. -/
  | lock
  /-- It sleeps in `pthread_cond_wait`. -/
  | asleep
  /-- It was woken and is about to lock the mutex again. -/
  | woken
  | finished
  deriving DecidableEq, Repr

/-- The memory and the threads; `printed` holds the numbers printed so far. An overflow
of `count` is undefined in C; it wraps around here. -/
structure state where
  count : Int32
  threads : thread → thread_t
  printed : List (thread × Int32)

def start : state where
  count := 1
  threads _ := .test
  printed := []

def state.set (s : state) (t : thread) (p : thread_t) : state := { s with threads := Function.update s.threads t p }

@[simp] theorem state.set_thread_self (s : state) (t : thread) (p : thread_t) : (s.set t p).threads t = p :=
  Function.update_self ..

@[simp] theorem state.set_thread_of_ne (s : state) {t u : thread} (h : u ≠ t) (p : thread_t) :
    (s.set t p).threads u = s.threads u :=
  Function.update_of_ne h ..

/-- `pthread_cond_signal` by thread `t`: only the other thread can sleep. -/
def cond_signal (s : state) (t : thread) : state :=
  if s.threads t.other = .asleep then s.set t.other .woken else s

/-- A thread with the lock, up to its next sleep or to the unlock; `waits` is the test of
its inner loop. -/
def locked (MAX : Int) (t : thread) (waits : Int32 → Bool) (s : state) : state :=
  if waits s.count then s.set t .asleep
  else if s.count.toInt ≤ MAX then
    cond_signal { s.set t .test with count := s.count + 1, printed := s.printed ++ [(t, s.count)] } t
  else s.set t .test

/-- A step of a thread that runs the loop of `print_odd` or `print_even`. -/
def print_thread (MAX : Int) (t : thread) (waits : Int32 → Bool) (s : state) : Option state :=
  match s.threads t with
  | .test => some (s.set t (if s.count.toInt ≤ MAX then .lock else .finished))
  | .lock | .woken => some (locked MAX t waits s)
  | .asleep | .finished => none

def print_odd (MAX : Int) : state → Option state := print_thread MAX .odd fun count => count % 2 == 0

def print_even (MAX : Int) : state → Option state := print_thread MAX .even fun count => count % 2 != 0

/-- A thread runs, or wakes spuriously. -/
inductive event_t where
  | run (t : thread)
  | wake (t : thread)
  deriving DecidableEq, Repr

def step (MAX : Int) (s : state) : event_t → Option state
  | .run .odd => print_odd MAX s
  | .run .even => print_even MAX s
  | .wake t => if s.threads t = .asleep then some (s.set t .woken) else none

/-- The thread that prints a number. -/
def turn (n : Int) : thread := if n % 2 = 0 then .even else .odd

variable {MAX : Int} {s s' : state} {t : thread}

/-- The loop of a thread, as the function of the source has it. -/
def print_function (MAX : Int) : thread → state → Option state
  | .odd => print_odd MAX
  | .even => print_even MAX

/-- The numbers printed so far are 1, 2, ..., `count - 1`, each by the thread whose turn
it is and none above `MAX`, and a sleeping thread is woken once the other one runs on. -/
structure Good (MAX : Int) (s : state) : Prop where
  numbers : s.printed.map (fun p => p.2.toInt) =
    (List.range (s.count.toInt - 1).toNat).map fun k : Nat => (k : Int) + 1
  threads : ∀ p ∈ s.printed, p.1 = turn p.2.toInt
  bounded : ∀ p ∈ s.printed, p.2.toInt ≤ MAX
  woken : ∀ t, s.threads t = .asleep →
    ∃ n s', steps (step MAX) s (List.replicate n (.run t.other)) = some s' ∧ s'.threads t = .woken

theorem waits_odd (count : Int32) : (count % 2 == 0) = decide (turn count.toInt ≠ .odd) := by
  have hmod := Int32.toInt_mod count 2
  have hzero : count % 2 = 0 ↔ count.toInt % 2 = 0 := by
    rw [← Int32.toInt_inj, hmod]
    show count.toInt.tmod 2 = 0 ↔ _
    rw [← Int.dvd_iff_tmod_eq_zero, Int.dvd_iff_emod_eq_zero]
  by_cases heven : count.toInt % 2 = 0
  · simp [turn, heven, hzero.mpr heven]
  · have hne : ¬ count % 2 = 0 := fun h => heven (hzero.mp h)
    simp [turn, heven, hne]

theorem waits_even (count : Int32) : (count % 2 != 0) = decide (turn count.toInt ≠ .even) := by
  have hodd := waits_odd count
  rw [bne, hodd]
  cases turn count.toInt <;> rfl

/-- What the two loops do, told by whose turn it is. -/
theorem print_function_eq (MAX : Int) (t : thread) (s : state) :
    print_function MAX t s = print_thread MAX t (fun count => decide (turn count.toInt ≠ t)) s := by
  cases t with
  | odd =>
    show print_thread MAX .odd _ s = _
    rw [show (fun count : Int32 => count % 2 == 0) = _ from funext waits_odd]
  | even =>
    show print_thread MAX .even _ s = _
    rw [show (fun count : Int32 => count % 2 != 0) = _ from funext waits_even]

theorem step_run (MAX : Int) (s : state) (t : thread) : step MAX s (.run t) = print_function MAX t s := by
  cases t <;> rfl

/-- A thread prints the number whose turn it is. -/
def print_count (s : state) (t : thread) : state :=
  cond_signal { s.set t .test with count := s.count + 1, printed := s.printed ++ [(t, s.count)] } t

/-- What a step does. -/
inductive Effect (MAX : Int) (s : state) : state → Prop where
  | enter (t : thread) (hat : s.threads t = .test) (hle : s.count.toInt ≤ MAX) : Effect MAX s (s.set t .lock)
  | finish (t : thread) (hat : s.threads t = .test) (hgt : MAX < s.count.toInt) : Effect MAX s (s.set t .finished)
  | sleep (t : thread) (hat : s.threads t = .lock ∨ s.threads t = .woken) (hturn : turn s.count.toInt ≠ t) :
    Effect MAX s (s.set t .asleep)
  | print (t : thread) (hat : s.threads t = .lock ∨ s.threads t = .woken) (hturn : turn s.count.toInt = t)
    (hle : s.count.toInt ≤ MAX) : Effect MAX s (print_count s t)
  | skip (t : thread) (hat : s.threads t = .lock ∨ s.threads t = .woken) (hturn : turn s.count.toInt = t)
    (hgt : MAX < s.count.toInt) : Effect MAX s (s.set t .test)
  | wake (t : thread) (hat : s.threads t = .asleep) : Effect MAX s (s.set t .woken)

theorem locked_effect (hat : s.threads t = .lock ∨ s.threads t = .woken) :
    Effect MAX s (locked MAX t (fun count => decide (turn count.toInt ≠ t)) s) := by
  unfold locked
  split
  case isTrue hturn => exact .sleep t hat (by simpa using hturn)
  case isFalse hturn =>
    have hturn : turn s.count.toInt = t := by simpa using hturn
    split
    case isTrue hle => exact .print t hat hturn hle
    case isFalse hgt => exact .skip t hat hturn (by omega)

theorem step_effect {e : event_t} (hstep : step MAX s e = some s') : Effect MAX s s' := by
  cases e with
  | run t =>
    rw [step_run, print_function_eq] at hstep
    unfold print_thread at hstep
    split at hstep
    case h_1 hat =>
      obtain rfl := Option.some.inj hstep
      split
      case isTrue hle => exact .enter t hat hle
      case isFalse hgt => exact .finish t hat (by omega)
    case h_2 hat => exact Option.some.inj hstep ▸ locked_effect (Or.inl hat)
    case h_3 hat => exact Option.some.inj hstep ▸ locked_effect (Or.inr hat)
    case h_4 => cases hstep
    case h_5 => cases hstep
  | wake t =>
    simp only [step] at hstep
    split at hstep
    case isTrue hat => exact Option.some.inj hstep ▸ .wake t hat
    case isFalse => cases hstep

theorem other_ne (t : thread) : t.other ≠ t := by
  cases t <;> simp [thread.other]

theorem eq_other {t u : thread} (h : u ≠ t) : u = t.other := by
  cases t <;> cases u <;> first | rfl | exact absurd rfl h

section Print

variable (s t)

@[simp] theorem print_count_count : (print_count s t).count = s.count + 1 := by
  unfold print_count cond_signal
  split <;> rfl

@[simp] theorem print_count_printed : (print_count s t).printed = s.printed ++ [(t, s.count)] := by
  unfold print_count cond_signal
  split <;> rfl

theorem print_count_self : (print_count s t).threads t = .test := by
  unfold print_count cond_signal
  split
  · rw [state.set_thread_of_ne _ (other_ne t).symm]
    exact state.set_thread_self ..
  · exact state.set_thread_self ..

theorem print_count_other :
    (print_count s t).threads t.other = if s.threads t.other = .asleep then .woken else s.threads t.other := by
  have hother : (s.set t .test).threads t.other = s.threads t.other := state.set_thread_of_ne s (other_ne t) _
  unfold print_count cond_signal
  dsimp only
  rw [hother]
  split
  · exact state.set_thread_self ..
  · exact hother

end Print

theorem turn_succ (n : Int) : turn (n + 1) = (turn n).other := by
  unfold turn
  by_cases h : n % 2 = 0
  · rw [if_pos h, if_neg (by omega)]
    rfl
  · rw [if_neg h, if_pos (by omega)]
    rfl

/-- The numbers are printed in turn, and a thread that waits for its turn does so for a
number that the other one will print. -/
structure Inv (MAX : Int) (s : state) : Prop where
  positive : 1 ≤ s.count.toInt
  numbers : s.printed.map (fun p => p.2.toInt) =
    (List.range (s.count.toInt - 1).toNat).map fun k : Nat => (k : Int) + 1
  threads : ∀ p ∈ s.printed, p.1 = turn p.2.toInt
  bounded : ∀ p ∈ s.printed, p.2.toInt ≤ MAX
  finished : ∀ t, s.threads t = .finished → MAX < s.count.toInt
  asleep : ∀ t, s.threads t = .asleep → turn s.count.toInt ≠ t
  inside : ∀ t, s.threads t = .lock ∨ s.threads t = .asleep ∨ s.threads t = .woken → turn s.count.toInt ≠ t →
    s.count.toInt ≤ MAX

theorem start_inv (MAX : Int) : Inv MAX start := by
  refine ⟨by decide, by decide, by simp [start], by simp [start], ?_, ?_, ?_⟩ <;> intro t ht <;> simp [start] at ht

theorem Inv.set (h : Inv MAX s) {p : thread_t} (hfinished : p = .finished → MAX < s.count.toInt)
    (hasleep : p = .asleep → turn s.count.toInt ≠ t)
    (hinside : p = .lock ∨ p = .asleep ∨ p = .woken → turn s.count.toInt ≠ t → s.count.toInt ≤ MAX) :
    Inv MAX (s.set t p) := by
  refine ⟨h.positive, h.numbers, h.threads, h.bounded, ?_, ?_, ?_⟩
  · exact forall_update (P := fun _ (p : thread_t) => p = .finished → MAX < s.count.toInt) h.finished hfinished
  · exact forall_update (P := fun t (p : thread_t) => p = .asleep → turn s.count.toInt ≠ t) h.asleep hasleep
  · exact forall_update (P := fun t (p : thread_t) => p = .lock ∨ p = .asleep ∨ p = .woken →
      turn s.count.toInt ≠ t → s.count.toInt ≤ MAX) h.inside hinside

theorem Inv.print (h : Inv MAX s) (hMAX : MAX < INT_MAX) (hturn : turn s.count.toInt = t)
    (hle : s.count.toInt ≤ MAX) : Inv MAX (print_count s t) := by
  have hbound : INT_MAX = 2147483647 := rfl
  have hsucc : (s.count + 1).toInt = s.count.toInt + 1 := toInt_succ (by omega)
  have hpositive := h.positive
  -- after the print it is the other thread's turn, and that thread does not sleep
  have hcases (u : thread) : (u = t ∧ (print_count s t).threads u = .test) ∨
      (u = t.other ∧ (print_count s t).threads u =
        if s.threads t.other = .asleep then .woken else s.threads t.other) := by
    by_cases hut : u = t
    · subst hut
      exact Or.inl ⟨rfl, print_count_self ..⟩
    · rw [eq_other hut]
      exact Or.inr ⟨rfl, print_count_other ..⟩
  have hnotfinished : s.threads t.other ≠ .finished := by
    intro hfinished
    have hgt := h.finished _ hfinished
    omega
  refine ⟨?_, ?_, ?_, ?_, ?_, ?_, ?_⟩
  · rw [print_count_count, hsucc]
    omega
  · rw [print_count_count, print_count_printed, hsucc, List.map_append, h.numbers]
    have hlength : (s.count.toInt + 1 - 1).toNat = (s.count.toInt - 1).toNat + 1 := by omega
    rw [hlength, List.range_succ, List.map_append]
    simp only [List.map_cons, List.map_nil, List.append_cancel_left_eq, List.cons.injEq, and_true]
    omega
  · rw [print_count_printed]
    intro p hp
    obtain hp | hp := List.mem_append.mp hp
    · exact h.threads p hp
    · rw [List.mem_singleton.mp hp]
      exact hturn.symm
  · rw [print_count_printed]
    intro p hp
    obtain hp | hp := List.mem_append.mp hp
    · exact h.bounded p hp
    · rw [List.mem_singleton.mp hp]
      exact hle
  · intro u hu
    obtain ⟨-, heq⟩ | ⟨-, heq⟩ := hcases u <;> rw [heq] at hu
    · cases hu
    · split at hu
      · cases hu
      · exact absurd hu hnotfinished
  · intro u hu
    obtain ⟨-, heq⟩ | ⟨-, heq⟩ := hcases u <;> rw [heq] at hu
    · cases hu
    · split at hu
      · cases hu
      · contradiction
  · intro u hu hwrong
    obtain ⟨-, heq⟩ | ⟨hother, -⟩ := hcases u
    · rw [heq] at hu
      simp at hu
    · rw [print_count_count, hsucc, turn_succ, hturn] at hwrong
      exact absurd hother.symm hwrong

theorem Inv.step (h : Inv MAX s) (hMAX : MAX < INT_MAX) (heffect : Effect MAX s s') : Inv MAX s' := by
  cases heffect with
  | enter t hat hle => exact h.set (by simp) (by simp) fun _ _ => hle
  | finish t hat hgt => exact h.set (fun _ => hgt) (by simp) (by simp)
  | sleep t hat hturn =>
    refine h.set (by simp) (fun _ => hturn) fun _ hwrong => h.inside t ?_ hwrong
    obtain hat | hat := hat
    · exact Or.inl hat
    · exact Or.inr (Or.inr hat)
  | print t hat hturn hle => exact h.print hMAX hturn hle
  | skip t hat hturn hgt => exact h.set (by simp) (by simp) (by simp)
  | wake t hat => exact h.set (by simp) (by simp) fun _ hwrong => h.inside t (Or.inr (Or.inl hat)) hwrong

/-- The thread whose turn it is prints, if it is about to lock the mutex. -/
theorem step_print (hat : s.threads t = .lock ∨ s.threads t = .woken) (hturn : turn s.count.toInt = t)
    (hle : s.count.toInt ≤ MAX) : step MAX s (.run t) = some (print_count s t) := by
  have hlocked : locked MAX t (fun count => decide (turn count.toInt ≠ t)) s = print_count s t := by
    simp [locked, hturn, hle, print_count]
  rw [step_run, print_function_eq, print_thread]
  obtain hat | hat := hat <;> simp only [hat] <;> rw [hlocked]

theorem step_enter (hat : s.threads t = .test) (hle : s.count.toInt ≤ MAX) :
    step MAX s (.run t) = some (s.set t .lock) := by
  rw [step_run, print_function_eq, print_thread]
  simp only [hat]
  rw [if_pos hle]

theorem Inv.woken (h : Inv MAX s) (hasleep : s.threads t = .asleep) :
    ∃ n s', steps (odd_even.step MAX) s (List.replicate n (.run t.other)) = some s' ∧ s'.threads t = .woken := by
  have hturn : turn s.count.toInt = t.other := eq_other (h.asleep t hasleep)
  have hle := h.inside t (Or.inr (Or.inl hasleep)) (h.asleep t hasleep)
  have hother : t.other.other = t := by cases t <;> rfl
  have hwoken (s : state) (hasleep : s.threads t = .asleep) : (print_count s t.other).threads t = .woken := by
    have hprint := print_count_other s t.other
    rw [hother, if_pos hasleep] at hprint
    exact hprint
  have hlock (hat : s.threads t.other = .lock ∨ s.threads t.other = .woken) :
      ∃ n s', steps (odd_even.step MAX) s (List.replicate n (.run t.other)) = some s' ∧ s'.threads t = .woken := by
    refine ⟨1, print_count s t.other, ?_, hwoken s hasleep⟩
    simp [steps, step_print hat hturn hle]
  cases hat : s.threads t.other with
  | test =>
    refine ⟨2, print_count (s.set t.other .lock) t.other, ?_, hwoken _ ?_⟩
    · have hentered : (s.set t.other .lock).threads t.other = .lock := state.set_thread_self ..
      have hprint := step_print (Or.inl hentered) hturn hle
      simp [steps, step_enter hat hle, hprint]
    · rw [state.set_thread_of_ne _ (other_ne t).symm]
      exact hasleep
  | lock => exact hlock (Or.inl hat)
  | woken => exact hlock (Or.inr hat)
  | asleep => exact absurd hturn (h.asleep t.other hat)
  | finished =>
    have hgt := h.finished t.other hat
    omega

theorem reachable_inv (hMAX : MAX < INT_MAX) (h : Reachable (step MAX) start s) : Inv MAX s :=
  h.invariant (start_inv MAX) fun _ _ _ hinv hstep => hinv.step hMAX (step_effect hstep)

theorem good_of_reachable (hMAX : MAX < INT_MAX) (h : Reachable (step MAX) start s) : Good MAX s := by
  have hinv := reachable_inv hMAX h
  exact ⟨hinv.numbers, hinv.threads, hinv.bounded, fun _ => hinv.woken⟩

/-- From a state where both threads are at their tests, one of them prints. -/
theorem reach_print (hreach : Reachable (step MAX) start s) (htest : ∀ t, s.threads t = .test)
    (hle : s.count.toInt ≤ MAX) :
    ∃ s', Reachable (step MAX) start s' ∧ s'.count = s.count + 1 ∧ (∀ t, s'.threads t = .test) ∧ s'.printed ≠ [] := by
  have hlock : (s.set (turn s.count.toInt) .lock).threads (turn s.count.toInt) = .lock := state.set_thread_self ..
  refine ⟨print_count (s.set (turn s.count.toInt) .lock) (turn s.count.toInt), ?_, print_count_count .., ?_, ?_⟩
  · exact .step _ (.step _ hreach (step_enter (htest _) hle)) (step_print (Or.inl hlock) rfl hle)
  · intro t
    by_cases ht : t = turn s.count.toInt
    · rw [ht]
      exact print_count_self ..
    · have hother : (s.set (turn s.count.toInt) .lock).threads (turn s.count.toInt).other = .test := by
        rw [state.set_thread_of_ne _ (other_ne _)]
        exact htest _
      rw [eq_other ht, print_count_other, hother]
      rfl
  · rw [print_count_printed]
    simp

/-- Where `MAX` never stops them, the threads count up to the largest `int`. -/
theorem reach_count (hMAX : INT_MAX ≤ MAX) (k : Nat) (hk : k < 2147483647) :
    ∃ s, Reachable (step MAX) start s ∧ s.count.toInt = k + 1 ∧ ∀ t, s.threads t = .test := by
  have hbound : INT_MAX = 2147483647 := rfl
  induction k with
  | zero => exact ⟨start, .start, rfl, fun _ => rfl⟩
  | succ k ih =>
    obtain ⟨s, hreach, hcount, htest⟩ := ih (by omega)
    obtain ⟨s', hreach', hcount', htest', -⟩ := reach_print hreach htest (by omega)
    refine ⟨s', hreach', ?_, htest'⟩
    rw [hcount', toInt_succ (by omega), hcount]
    rfl

theorem overflow_reachable (hMAX : INT_MAX ≤ MAX) : ∃ s, Reachable (step MAX) start s ∧ ¬ Good MAX s := by
  have hbound : INT_MAX = 2147483647 := rfl
  obtain ⟨s, hreach, hcount, htest⟩ := reach_count hMAX 2147483646 (by omega)
  obtain ⟨s', hreach', hcount', -, hprinted⟩ := reach_print hreach htest (by omega)
  refine ⟨s', hreach', fun hgood => ?_⟩
  have hmax : s.count = Int32.maxValue := Int32.toInt_inj.mp hcount
  have hnumbers := hgood.numbers
  rw [hcount', hmax, show (Int32.maxValue + 1).toInt = -2147483648 from rfl] at hnumbers
  exact hprinted (List.map_eq_nil_iff.mp hnumbers)

/-- The printer alternates and stops in every run exactly if `MAX` is below the largest
`int`: from there on the test of the loop never fails and the count overflows. -/
theorem alternates_iff (MAX : Int) : (∀ s, Reachable (step MAX) start s → Good MAX s) ↔ MAX < INT_MAX := by
  constructor
  · intro hall
    by_contra hnot
    have hlarge : INT_MAX ≤ MAX := by omega
    obtain ⟨s, hreach, hbad⟩ := overflow_reachable hlarge
    exact hbad (hall s hreach)
  · intro hMAX s hreach
    exact good_of_reachable hMAX hreach

theorem alternates_fails_largest : ¬ ∀ s, Reachable (step INT_MAX) start s → Good INT_MAX s := by
  intro hall
  obtain ⟨s, hreach, hbad⟩ := overflow_reachable (Int.le_refl INT_MAX)
  exact hbad (hall s hreach)

/-! How many steps are left. A number that is not printed yet pays for the next round of
the thread that prints it and for the wake-up of the other one. -/

def thread_t.weight (passed : Bool) : thread_t → Nat
  | .test => if passed then 1 else 3
  | .lock | .woken => 2
  | .asleep => 1
  | .finished => 0

def state.weight (MAX : Int) (s : state) : Nat :=
  3 * (MAX + 1 - s.count.toInt).toNat + (s.threads .odd).weight (MAX < s.count.toInt) +
    (s.threads .even).weight (MAX < s.count.toInt)

theorem weight_eq (MAX : Int) (s : state) (t : thread) : s.weight MAX =
    3 * (MAX + 1 - s.count.toInt).toNat + (s.threads t).weight (MAX < s.count.toInt) +
      (s.threads t.other).weight (MAX < s.count.toInt) := by
  cases t with
  | odd => rfl
  | even => exact Nat.add_right_comm ..

theorem weight_set (MAX : Int) (s : state) (t : thread) (p : thread_t) :
    (s.set t p).weight MAX + (s.threads t).weight (MAX < s.count.toInt) =
      s.weight MAX + p.weight (MAX < s.count.toInt) := by
  have hcount : (s.set t p).count = s.count := rfl
  rw [weight_eq MAX s t, weight_eq MAX _ t, state.set_thread_self, state.set_thread_of_ne s (other_ne t), hcount]
  omega

theorem weight_of_lock (hat : s.threads t = .lock ∨ s.threads t = .woken) (passed : Bool) :
    (s.threads t).weight passed = 2 := by
  obtain hat | hat := hat <;> rw [hat] <;> rfl

/-- A number is printed. -/
theorem print_weight (hMAX : MAX < INT_MAX) (hat : s.threads t = .lock ∨ s.threads t = .woken)
    (hle : s.count.toInt ≤ MAX) : (print_count s t).weight MAX < s.weight MAX := by
  have hbound : INT_MAX = 2147483647 := rfl
  have hlower := Int32.le_toInt s.count
  have hsucc : (s.count + 1).toInt = s.count.toInt + 1 := toInt_succ (by omega)
  have hself := weight_of_lock hat (MAX < s.count.toInt)
  have htest : thread_t.test.weight (MAX < s.count.toInt + 1) ≤ 3 := by
    rw [thread_t.weight]
    split <;> omega
  have hother : ((print_count s t).threads t.other).weight (MAX < s.count.toInt + 1) ≤
      (s.threads t.other).weight (MAX < s.count.toInt) + 1 := by
    have hbefore : decide (MAX < s.count.toInt) = false := decide_eq_false (by omega)
    rw [print_count_other, hbefore]
    cases s.threads t.other <;> simp [thread_t.weight]
    split <;> omega
  rw [weight_eq MAX s t, weight_eq MAX _ t, print_count_count, hsucc, print_count_self]
  omega

theorem locked_weight (hMAX : MAX < INT_MAX) (hat : s.threads t = .lock ∨ s.threads t = .woken) (waits : Int32 → Bool) :
    (locked MAX t waits s).weight MAX < s.weight MAX := by
  have hself := weight_of_lock hat (MAX < s.count.toInt)
  unfold locked
  split
  · have hset := weight_set MAX s t .asleep
    rw [hself] at hset
    simp only [thread_t.weight] at hset
    omega
  · split
    · next hle => exact print_weight hMAX hat hle
    · next hgt =>
      have hset := weight_set MAX s t .test
      have hover : decide (MAX < s.count.toInt) = true := decide_eq_true (by omega)
      rw [hself, hover] at hset
      simp only [thread_t.weight, if_true] at hset
      omega

theorem run_weight (hMAX : MAX < INT_MAX) (h : step MAX s (.run t) = some s') : s'.weight MAX < s.weight MAX := by
  rw [step_run, print_function_eq] at h
  unfold print_thread at h
  split at h
  · next hat =>
    obtain rfl := Option.some.inj h
    have hset := weight_set MAX s t (if s.count.toInt ≤ MAX then .lock else .finished)
    rw [hat] at hset
    by_cases hle : s.count.toInt ≤ MAX
    · have hover : decide (MAX < s.count.toInt) = false := decide_eq_false (by omega)
      rw [if_pos hle, hover] at hset
      rw [if_pos hle]
      simp only [thread_t.weight, Bool.false_eq_true, if_false] at hset
      omega
    · have hover : decide (MAX < s.count.toInt) = true := decide_eq_true (by omega)
      rw [if_neg hle, hover] at hset
      rw [if_neg hle]
      simp only [thread_t.weight, if_true] at hset
      omega
  · next hat => exact Option.some.inj h ▸ locked_weight hMAX (Or.inl hat) _
  · next hat => exact Option.some.inj h ▸ locked_weight hMAX (Or.inr hat) _
  · cases h
  · cases h

/-- The event is a spurious wake-up. -/
def event_t.is_wake : event_t → Bool
  | .wake _ => true
  | .run _ => false

theorem step_weight (hMAX : MAX < INT_MAX) {e : event_t} (hstep : step MAX s e = some s') :
    s'.weight MAX + 1 ≤ s.weight MAX + if e.is_wake then 2 else 0 := by
  cases e with
  | run t => exact run_weight hMAX hstep
  | wake t =>
    simp only [step] at hstep
    split at hstep
    · next hat =>
      obtain rfl := Option.some.inj hstep
      have hset := weight_set MAX s t .woken
      rw [hat] at hset
      simp only [thread_t.weight] at hset
      simp only [event_t.is_wake, if_true]
      omega
    · cases hstep

/-- A thread that cannot run sleeps or has finished. -/
theorem not_running (h : step MAX s (.run t) = none) : s.threads t = .asleep ∨ s.threads t = .finished := by
  rw [step_run, print_function_eq] at h
  unfold print_thread at h
  split at h
  · cases h
  · cases h
  · cases h
  · next hat => exact Or.inl hat
  · next hat => exact Or.inr hat

/-- Where neither thread can run, both have finished: they do not both wait for their
turn, and one does not wait for a number that the other one is not to print. -/
theorem Inv.ended (h : Inv MAX s) (hend : ∀ t, odd_even.step MAX s (.run t) = none) (t : thread) :
    s.threads t = .finished := by
  obtain hasleep | hfinished := not_running (hend t)
  · have hle := h.inside t (Or.inr (Or.inl hasleep)) (h.asleep t hasleep)
    obtain hother | hother := not_running (hend t.other)
    · exact absurd (eq_other (h.asleep t hasleep)) (h.asleep t.other hother)
    · have hgt := h.finished t.other hother
      omega
  · exact hfinished

/-- All numbers are printed once the count is above `MAX`. -/
theorem Inv.printed_eq (h : Inv MAX s) (hover : MAX < s.count.toInt) :
    s.printed.map (fun p => (p.1, p.2.toInt)) =
      (List.range MAX.toNat).map fun k : Nat => (turn (k + 1), (k : Int) + 1) := by
  have hpositive := h.positive
  have hlast (htwo : 2 ≤ s.count.toInt) : s.count.toInt - 1 ≤ MAX := by
    have hmem : s.count.toInt - 1 ∈ s.printed.map fun p => p.2.toInt := by
      rw [h.numbers, List.mem_map]
      exact ⟨(s.count.toInt - 2).toNat, List.mem_range.mpr (by omega), by omega⟩
    obtain ⟨p, hp, heq⟩ := List.mem_map.mp hmem
    exact heq ▸ h.bounded p hp
  have hlength : (s.count.toInt - 1).toNat = MAX.toNat := by omega
  calc s.printed.map (fun p => (p.1, p.2.toInt))
      = s.printed.map fun p => (turn p.2.toInt, p.2.toInt) :=
        List.map_congr_left fun p hp => by rw [h.threads p hp]
    _ = (s.printed.map fun p => p.2.toInt).map fun n => (turn n, n) := by rw [List.map_map]; rfl
    _ = (List.range MAX.toNat).map fun k : Nat => (turn (k + 1), (k : Int) + 1) := by
        rw [h.numbers, hlength, List.map_map]
        rfl

/-- The printer ends, in whatever order the threads run: apart from two for each spurious
wake-up a run has at most as many steps as `MAX` allows, and where neither thread can run
both have finished and each has printed its numbers in turn. -/
theorem all_numbers_printed (hMAX : MAX < INT_MAX) {events : List event_t}
    (hsteps : steps (step MAX) start events = some s) :
    events.length ≤ 3 * MAX.toNat + 6 + 2 * events.countP event_t.is_wake ∧
      ((∀ t, step MAX s (.run t) = none) → (∀ t, s.threads t = .finished) ∧
        s.printed.map (fun p => (p.1, p.2.toInt)) =
          (List.range MAX.toNat).map fun k : Nat => (turn (k + 1), (k : Int) + 1)) := by
  have hinv := reachable_inv hMAX (Reachable.start.steps hsteps)
  refine ⟨?_, fun hend => ?_⟩
  · have hkeep (s s' : state) (e : event_t) (h : Inv MAX s) (hstep : step MAX s e = some s') : Inv MAX s' :=
      h.step hMAX (step_effect hstep)
    have hle := steps_length_le_countP hkeep (fun _ _ _ _ => step_weight hMAX) (start_inv MAX) hsteps
    have hstart : start.weight MAX ≤ 3 * MAX.toNat + 6 := by
      have hcount : start.count.toInt = 1 := rfl
      have htest (passed : Bool) : thread_t.test.weight passed ≤ 3 := by cases passed <;> decide
      have hodd := htest (MAX < start.count.toInt)
      rw [weight_eq MAX start .odd]
      simp only [start] at hodd hcount ⊢
      omega
    omega
  · have hfinished := hinv.ended hend
    exact ⟨hfinished, hinv.printed_eq (hinv.finished .odd (hfinished .odd))⟩

/-- With two numbers, the even thread waits for the odd one. -/
theorem all_numbers_printed_two : ∃ s, (∀ t, step 2 s (.run t) = none) ∧
    (10 : Nat) ≤ 3 * (2 : Int).toNat + 6 ∧ (∀ t, s.threads t = .finished) ∧
    s.printed.map (fun p => (p.1, p.2.toInt)) = [(.odd, 1), (.even, 2)] := by
  have hruns : ∃ s, steps (step 2) start [.run .even, .run .even, .run .odd, .run .odd, .run .odd, .run .odd,
      .run .even, .run .odd, .run .odd, .run .even] = some s ∧
      step 2 s (.run .odd) = none ∧ step 2 s (.run .even) = none := ⟨_, rfl, rfl, rfl⟩
  obtain ⟨s, hsteps, hodd, heven⟩ := hruns
  have hend : ∀ t, step 2 s (.run t) = none := fun t => by cases t <;> assumption
  obtain ⟨hlength, hall⟩ := all_numbers_printed (by decide) hsteps
  obtain ⟨hfinished, hprinted⟩ := hall hend
  exact ⟨s, hend, hlength, hfinished, hprinted⟩

end csystems.odd_even
