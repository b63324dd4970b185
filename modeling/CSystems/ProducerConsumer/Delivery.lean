import Mathlib.Data.Fintype.BigOperators
import CSystems.ProducerConsumer.Program

open clib.bounded_buffer clib.run clib.ring

namespace csystems.producer_consumer

variable {c : config} {s s' : state c}

/-- The items of one thread in a history, in order. -/
def of_thread (t : thread c) (log : List (thread c × Int)) : List Int := (log.filter fun e => e.1 = t).map Prod.snd

/-- The history of what the threads with the operation of `t` did to the buffer. -/
def state.log (s : state c) : thread c → List (thread c × Int)
  | .producer _ => s.pushed
  | .consumer _ => s.popped

/-- How many items the thread has put into the buffer or taken from it. -/
def point_t.done (rounds : Nat) : point_t → Nat
  | .absent => 0
  | .loop k | .inside k .lock _ | .inside k .locked _ | .inside k .asleep _ | .inside k .woken _ => k
  | .inside k .acted _ | .inside k .signalled _ | .returned k _ => k + 1
  | .finished => rounds

/-- The item whose line the thread has still to print. -/
def point_t.inhand : point_t → List Int
  | .inside _ .acted item | .inside _ .signalled item | .returned _ item => [item]
  | _ => []

def point_t.Bounded (rounds : Nat) : point_t → Prop
  | .loop k => k ≤ rounds
  | .inside k _ _ | .returned k _ => k < rounds
  | _ => True

theorem point_t.Bounded.done_le {rounds : Nat} {p : point_t} (h : p.Bounded rounds) : p.done rounds ≤ rounds := by
  cases p with
  | inside k at_ item => cases at_ <;> simp only [point_t.Bounded, point_t.done] at h ⊢ <;> omega
  | _ => simp only [point_t.Bounded, point_t.done] at h ⊢; omega

/-- What a thread has done so far, against its place in the program. -/
structure Kept (t : thread c) (p : point_t) (log printed : List Int) : Prop where
  bounded : p.Bounded t.rounds
  length_eq : log.length = p.done t.rounds
  printed_eq : log = printed ++ p.inhand
  produced_eq : ∀ i, t = .producer i → log = (List.range log.length).map (produced i)
  argument_eq : ∀ i k at_ item, t = .producer i → p = .inside k at_ item → item = produced i k

/-- `main` has created the thread. -/
def main_t.created : main_t → thread c → Prop
  | .create_producers i, .producer j => j < i
  | .create_producers _, .consumer _ => False
  | .create_consumers i, .consumer j => j < i
  | _, _ => True

/-- `main` has joined the thread. -/
def main_t.joined : main_t → thread c → Prop
  | .join_producers i, .producer j => j < i
  | .join_consumers _, .producer _ => True
  | .join_consumers i, .consumer j => j < i
  | .finished, _ => True
  | _, _ => False

structure Ordered (main : main_t) (point : thread c → point_t) : Prop where
  absent_iff : ∀ t, point t = .absent ↔ ¬ main.created t
  finished : ∀ t, main.joined t → point t = .finished

/-- The buffer holds the items that were put into it and not taken from it, in the
order in which they were put. -/
def Queued (s : state c) : Prop :=
  ∃ contents, Ring BUFFER_CAPACITY s.buffer s.head s.tail contents ∧ s.item_count = contents.length ∧
    s.pushed.map Prod.snd = s.popped.map Prod.snd ++ contents

/-- What holds in every state the program reaches. -/
structure Inv (s : state c) : Prop where
  queued : Queued s
  ordered : Ordered s.main s.point
  threads : ∀ t, Kept t (s.point t) (of_thread t (s.log t)) (of_thread t s.printed)
  pushed_op : ∀ e ∈ s.pushed, e.1.op = .put
  popped_op : ∀ e ∈ s.popped, e.1.op = .get

@[simp] theorem of_thread_append_self (t : thread c) (log : List (thread c × Int)) (item : Int) :
    of_thread t (log ++ [(t, item)]) = of_thread t log ++ [item] := by
  simp [of_thread]

@[simp] theorem of_thread_append_of_ne {t u : thread c} (h : u ≠ t) (log : List (thread c × Int)) (item : Int) :
    of_thread u (log ++ [(t, item)]) = of_thread u log := by
  simp [of_thread, Ne.symm h]

/-- A thread that goes on without an access to the buffer or a line printed. -/
theorem Kept.move {t : thread c} {p p' : point_t} {log printed : List Int} (h : Kept t p log printed)
    (hbounded : p'.Bounded t.rounds) (hdone : p'.done t.rounds = p.done t.rounds) (hinhand : p'.inhand = p.inhand)
    (hargument : ∀ i k at_ item, t = .producer i → p' = .inside k at_ item → item = produced i k) :
    Kept t p' log printed :=
  ⟨hbounded, hdone ▸ h.length_eq, hinhand ▸ h.printed_eq, h.produced_eq, hargument⟩

/-- A thread that goes on inside a call. -/
theorem Kept.move_inside {t : thread c} {k : Nat} {at_ at' : stage} {item : Int} {log printed : List Int}
    (h : Kept t (.inside k at_ item) log printed)
    (hdone : (point_t.inside k at' item).done t.rounds = (point_t.inside k at_ item).done t.rounds)
    (hinhand : (point_t.inside k at' item).inhand = (point_t.inside k at_ item).inhand) :
    Kept t (.inside k at' item) log printed := by
  refine h.move h.bounded hdone hinhand fun i k' st item' ht hp => ?_
  obtain ⟨rfl, rfl, rfl⟩ := point_t.inside.inj hp
  exact h.argument_eq i _ at_ _ ht rfl

/-- A thread that has accessed the buffer. -/
theorem Kept.act {t : thread c} {k : Nat} {item item' : Int} {log printed : List Int}
    (h : Kept t (.inside k .locked item) log printed) (hitem : ∀ i, t = .producer i → item' = item) :
    Kept t (.inside k .acted item') (log ++ [item']) printed := by
  have hlength : log.length = k := h.length_eq
  have hprinted : log = printed := by simpa [point_t.inhand] using h.printed_eq
  have hargument : ∀ i, t = .producer i → item' = produced i k := fun i ht =>
    (hitem i ht).trans (h.argument_eq i k .locked item ht rfl)
  refine ⟨h.bounded, ?_, ?_, ?_, ?_⟩
  · rw [List.length_append, List.length_singleton, hlength]
    rfl
  · rw [hprinted]
    rfl
  · intro i ht
    rw [List.length_append, List.length_singleton, List.range_succ, List.map_append, ← h.produced_eq i ht, hlength,
      hargument i ht]
    rfl
  · intro i k' st item₂ ht hp
    obtain ⟨rfl, rfl, rfl⟩ := point_t.inside.inj hp
    exact hargument i ht

/-- A thread that has printed its line. -/
theorem Kept.print {t : thread c} {k : Nat} {item : Int} {log printed : List Int}
    (h : Kept t (.returned k item) log printed) : Kept t (.loop (k + 1)) log (printed ++ [item]) := by
  refine ⟨h.bounded, h.length_eq, ?_, h.produced_eq, fun _ _ _ _ _ hp => by cases hp⟩
  rw [h.printed_eq]
  exact (List.append_nil _).symm

section Order

variable {main : main_t} {point : thread c → point_t}

/-- A created thread goes on. -/
theorem Ordered.goto (h : Ordered main point) {t : thread c} {p : point_t} (hp : p ≠ .absent)
    (habsent : point t ≠ .absent) (hfinished : point t ≠ .finished) : Ordered main (Function.update point t p) := by
  constructor
  · refine forall_update (P := fun (u : thread c) (q : point_t) => q = .absent ↔ ¬ main.created u) h.absent_iff ?_
    exact iff_of_false hp fun hnot => habsent ((h.absent_iff t).mpr hnot)
  · refine forall_update (P := fun (u : thread c) (q : point_t) => main.joined u → q = .finished) h.finished ?_
    exact fun hjoined => absurd (h.finished t hjoined) hfinished

/-- `main` creates a thread. -/
theorem Ordered.create (h : Ordered main point) {t : thread c} {main' : main_t}
    (hcreated : ∀ u, main'.created u ↔ main.created u ∨ u = t) (hjoined : ∀ u : thread c, ¬ main'.joined u) :
    Ordered main' (Function.update point t (.loop 0)) := by
  constructor
  · refine forall_update_of_ne
      (P := fun (u : thread c) (q : point_t) => q = .absent ↔ ¬ main'.created u) ?_ fun u hu => ?_
    · simp [hcreated]
    · rw [h.absent_iff u, hcreated u]
      simp [hu]
  · exact fun u hu => absurd hu (hjoined u)

/-- `main` goes on without creating a thread. -/
theorem Ordered.join (h : Ordered main point) {main' : main_t}
    (hcreated : ∀ u : thread c, main'.created u ↔ main.created u)
    (hjoined : ∀ u, main'.joined u → main.joined u ∨ point u = .finished) : Ordered main' point :=
  ⟨fun u => by rw [h.absent_iff u, hcreated u], fun u hu => (hjoined u hu).elim (h.finished u) id⟩

end Order

theorem inv_start (c : config) : Inv (start c) where
  queued := ⟨[], ring_nil (List.length_replicate ..) (by decide), rfl, rfl⟩
  ordered := by
    constructor
    · intro t
      cases t <;> simp [start, main_t.created]
    · intro t ht
      cases t <;> cases ht
  threads t := by
    refine ⟨trivial, ?_, ?_, ?_, ?_⟩ <;> cases t <;> simp [start, state.log, of_thread, point_t.done, point_t.inhand]
  pushed_op e he := by cases he
  popped_op e he := by cases he

section Moves

variable {t : thread c} {p : point_t}

/-- A created thread goes on outside the buffer. -/
theorem Inv.goto (h : Inv s) (lock : Option (thread c)) (hp : p ≠ .absent) (habsent : s.point t ≠ .absent)
    (hfinished : s.point t ≠ .finished) (hkept : Kept t p (of_thread t (s.log t)) (of_thread t s.printed)) :
    Inv { s.goto t p with lock := lock } where
  queued := h.queued
  ordered := h.ordered.goto hp habsent hfinished
  threads :=
    forall_update (P := fun (u : thread c) (q : point_t) => Kept u q (of_thread u (s.log u)) (of_thread u s.printed))
      h.threads hkept
  pushed_op := h.pushed_op
  popped_op := h.popped_op

/-- A thread goes on inside its call. -/
theorem Inv.goto_inside (h : Inv s) (lock : Option (thread c)) {k : Nat} {at_ at' : stage} {item : Int}
    (ht : s.point t = .inside k at_ item)
    (hdone : (point_t.inside k at' item).done t.rounds = (point_t.inside k at_ item).done t.rounds)
    (hinhand : (point_t.inside k at' item).inhand = (point_t.inside k at_ item).inhand) :
    Inv { s.goto t (.inside k at' item) with lock := lock } := by
  refine h.goto lock (by simp) (by simp [ht]) (by simp [ht]) ?_
  have hkept := h.threads t
  rw [ht] at hkept
  exact hkept.move_inside hdone hinhand

/-- `main` goes on. -/
theorem Inv.set_main (h : Inv s) {main : main_t} (hordered : Ordered main s.point) : Inv { s with main := main } :=
  ⟨h.queued, hordered, h.threads, h.pushed_op, h.popped_op⟩

/-- `main` creates a thread. -/
theorem Inv.create (h : Inv s) {main : main_t} (hnew : ¬ s.main.created t)
    (hcreated : ∀ u, main.created u ↔ s.main.created u ∨ u = t) (hjoined : ∀ u : thread c, ¬ main.joined u) :
    Inv { s.goto t (.loop 0) with main := main } where
  queued := h.queued
  ordered := h.ordered.create hcreated hjoined
  threads := by
    refine forall_update
      (P := fun (u : thread c) (q : point_t) => Kept u q (of_thread u (s.log u)) (of_thread u s.printed)) h.threads ?_
    have hkept := h.threads t
    rw [(h.ordered.absent_iff t).mpr hnew] at hkept
    exact hkept.move (Nat.zero_le _) rfl rfl fun _ _ _ _ _ hp => by cases hp
  pushed_op := h.pushed_op
  popped_op := h.popped_op

theorem Queued.push (h : Queued s) (t : thread c) (item : Int) (hroom : s.item_count ≠ BUFFER_CAPACITY) :
    Queued (store s t item) := by
  obtain ⟨contents, hring, hcount, hpushed⟩ := h
  have hle := hring.length_le
  have hlt : contents.length < BUFFER_CAPACITY := by omega
  refine ⟨contents ++ [item], hring.push hlt item, ?_, ?_⟩
  · simp only [store, hcount, List.length_append, List.length_singleton]
    omega
  · simp only [store, List.map_append, hpushed, List.append_assoc]
    rfl

theorem Queued.pop (h : Queued s) (t : thread c) {taken : Int} (hsome : s.item_count ≠ 0)
    (hget : s.buffer[s.head]? = some taken) : Queued (take s t taken) := by
  obtain ⟨contents, hring, hcount, hpushed⟩ := h
  cases contents with
  | nil => exact absurd hcount hsome
  | cons first contents =>
    obtain ⟨hfirst, hrest⟩ := hring.pop
    obtain rfl : taken = first := Option.some.inj (hget.symm.trans hfirst)
    refine ⟨contents, hrest, ?_, ?_⟩
    · simp only [take, hcount, List.length_cons]
      omega
    · simp only [take, List.map_append, hpushed, List.append_assoc]
      rfl

theorem Inv.push (h : Inv s) {i : Fin c.producers} {k : Nat} {item : Int}
    (ht : s.point (.producer i) = .inside k .locked item) (hroom : s.item_count ≠ BUFFER_CAPACITY) :
    Inv ((store s (.producer i) item).goto (.producer i) (.inside k .acted item)) where
  queued := h.queued.push (.producer i) item hroom
  ordered := h.ordered.goto (by simp) (by simp [ht]) (by simp [ht])
  threads := by
    refine forall_update_of_ne (P := fun (u : thread c) (q : point_t) =>
      Kept u q (of_thread u ((store s (.producer i) item).log u)) (of_thread u s.printed)) ?_ fun u hu => ?_
    · have hkept := h.threads (.producer i)
      rw [ht] at hkept
      have hlog : of_thread (.producer i) ((store s (.producer i) item).log (.producer i)) =
          of_thread (.producer i) (s.log (.producer i)) ++ [item] := of_thread_append_self ..
      rw [hlog]
      exact hkept.act fun _ _ => rfl
    · have hlog : of_thread u ((store s (.producer i) item).log u) = of_thread u (s.log u) := by
        cases u with
        | producer j => exact of_thread_append_of_ne hu ..
        | consumer j => rfl
      rw [hlog]
      exact h.threads u
  pushed_op e he := by
    obtain he | he := List.mem_append.mp he
    · exact h.pushed_op e he
    · rw [List.mem_singleton.mp he]
      rfl
  popped_op := h.popped_op

theorem Inv.pop (h : Inv s) {i : Fin c.consumers} {k : Nat} {item taken : Int}
    (ht : s.point (.consumer i) = .inside k .locked item) (hsome : s.item_count ≠ 0)
    (hget : s.buffer[s.head]? = some taken) :
    Inv ((take s (.consumer i) taken).goto (.consumer i) (.inside k .acted taken)) where
  queued := h.queued.pop (.consumer i) hsome hget
  ordered := h.ordered.goto (by simp) (by simp [ht]) (by simp [ht])
  threads := by
    refine forall_update_of_ne (P := fun (u : thread c) (q : point_t) =>
      Kept u q (of_thread u ((take s (.consumer i) taken).log u)) (of_thread u s.printed)) ?_ fun u hu => ?_
    · have hkept := h.threads (.consumer i)
      rw [ht] at hkept
      have hlog : of_thread (.consumer i) ((take s (.consumer i) taken).log (.consumer i)) =
          of_thread (.consumer i) (s.log (.consumer i)) ++ [taken] := of_thread_append_self ..
      rw [hlog]
      exact hkept.act fun _ hi => by cases hi
    · have hlog : of_thread u ((take s (.consumer i) taken).log u) = of_thread u (s.log u) := by
        cases u with
        | producer j => rfl
        | consumer j => exact of_thread_append_of_ne hu ..
      rw [hlog]
      exact h.threads u
  pushed_op := h.pushed_op
  popped_op e he := by
    obtain he | he := List.mem_append.mp he
    · exact h.popped_op e he
    · rw [List.mem_singleton.mp he]
      rfl

theorem Inv.print (h : Inv s) {k : Nat} {item : Int} (ht : s.point t = .returned k item) : Inv (print s t k item) where
  queued := h.queued
  ordered := h.ordered.goto (by simp) (by simp [ht]) (by simp [ht])
  threads := by
    refine forall_update_of_ne (P := fun (u : thread c) (q : point_t) =>
      Kept u q (of_thread u (s.log u)) (of_thread u (s.printed ++ [(t, item)]))) ?_ fun u hu => ?_
    · have hkept := h.threads t
      rw [ht] at hkept
      rw [of_thread_append_self]
      exact hkept.print
    · rw [of_thread_append_of_ne hu]
      exact h.threads u
  pushed_op := h.pushed_op
  popped_op := h.popped_op

end Moves

theorem Ordered.leave_loop {main main' : main_t} {point : thread c → point_t} (h : Ordered main point)
    (hleaves : main.Leaves c main') : Ordered main' point := by
  refine h.join (fun u => ?_) fun u hu => Or.inl ?_
  · cases hleaves <;> cases u <;> simp [main_t.created] <;> omega
  · cases hleaves <;> cases u <;> simp [main_t.joined] at hu ⊢ <;> omega

theorem Inv.move (h : Inv s) (hmove : Move s s') : Inv s' := by
  cases hmove with
  | create_producer i hmain =>
    refine h.create (by simp [hmain, main_t.created]) (fun u => ?_) fun u => ?_
    · rw [hmain]
      cases u <;> simp [main_t.created, Fin.ext_iff]; omega
    · cases u <;> exact id
  | create_consumer i hmain =>
    refine h.create (by simp [hmain, main_t.created]) (fun u => ?_) fun u => ?_
    · rw [hmain]
      cases u <;> simp [main_t.created, Fin.ext_iff]; omega
    · cases u <;> exact id
  | join_producer i hmain hdone =>
    refine h.set_main (h.ordered.join (fun u => ?_) fun u hu => ?_)
    · rw [hmain]
      cases u <;> rfl
    · rw [hmain]
      cases u with
      | producer j =>
        obtain hlt | heq := Nat.lt_succ_iff_lt_or_eq.mp hu
        · exact Or.inl hlt
        · exact Or.inr (Fin.ext heq ▸ hdone)
      | consumer j => cases hu
  | join_consumer i hmain hdone =>
    refine h.set_main (h.ordered.join (fun u => ?_) fun u hu => ?_)
    · rw [hmain]
      cases u <;> rfl
    · rw [hmain]
      cases u with
      | producer j => exact Or.inl trivial
      | consumer j =>
        obtain hlt | heq := Nat.lt_succ_iff_lt_or_eq.mp hu
        · exact Or.inl hlt
        · exact Or.inr (Fin.ext heq ▸ hdone)
  | leave_loop main hleaves => exact h.set_main (h.ordered.leave_loop hleaves)
  | begin t k ht hk =>
    refine h.goto s.lock (by simp) (by simp [ht]) (by simp [ht]) ?_
    have hkept := h.threads t
    rw [ht] at hkept
    refine hkept.move hk rfl rfl fun i k' at_ item hi hp => ?_
    obtain ⟨rfl, -, rfl⟩ := point_t.inside.inj hp
    rw [hi]
    rfl
  | finish t k ht hk =>
    refine h.goto s.lock (by simp) (by simp [ht]) (by simp [ht]) ?_
    have hkept := h.threads t
    rw [ht] at hkept
    have hle : k ≤ t.rounds := hkept.bounded
    refine hkept.move trivial ?_ rfl fun _ _ _ _ _ hp => by cases hp
    simp only [point_t.done]
    omega
  | acquire t k at_ item ht hat hfree =>
    refine h.goto_inside (some t) ht ?_ ?_
    all_goals obtain rfl | rfl := hat <;> rfl
  | sleep t k item ht hnone => exact h.goto_inside none ht rfl rfl
  | push i k item ht hroom => exact h.push ht hroom
  | pop i k item taken ht hsome hget => exact h.pop ht hsome hget
  | signal t u k k' item item' ht hu hop =>
    have hne : t ≠ u := by
      rintro rfl
      rw [ht] at hu
      cases hu
    have hwoken : Inv (s.goto u (.inside k' .woken item')) := h.goto_inside s.lock hu rfl rfl
    exact hwoken.goto_inside s.lock ((Function.update_of_ne hne ..).trans ht) rfl rfl
  | silent t k item ht hnone => exact h.goto_inside s.lock ht rfl rfl
  | leave t k item ht =>
    refine h.goto none (by simp) (by simp [ht]) (by simp [ht]) ?_
    have hkept := h.threads t
    rw [ht] at hkept
    exact hkept.move hkept.bounded rfl rfl fun _ _ _ _ _ hp => by cases hp
  | print t k item ht => exact h.print ht

theorem Inv.wakes {t : thread c} (h : Inv s) (hwakes : Wakes s t s') : Inv s' := by
  obtain ⟨k, item, ht, rfl⟩ := hwakes
  exact h.goto_inside s.lock ht rfl rfl

theorem inv_step {a : action_t c} (hinv : Inv s) (hstep : step s a = some s') : Inv s' := by
  obtain hmove | ⟨t, -, hwakes⟩ := step_move hstep
  · exact hinv.move hmove
  · exact hinv.wakes hwakes

theorem reachable_inv (h : Reachable step (start c) s) : Inv s :=
  h.invariant (inv_start c) fun _ _ _ hinv hstep => inv_step hinv hstep

section Totals

theorem sum_thread (f : thread c → Nat) : ∑ t, f t = ∑ i, f (.producer i) + ∑ i, f (.consumer i) := by
  let e : Fin c.producers ⊕ Fin c.consumers ≃ thread c :=
    ⟨Sum.elim .producer .consumer, fun | .producer i => .inl i | .consumer i => .inr i,
      fun t => by cases t <;> rfl, fun t => by cases t <;> rfl⟩
  rw [← e.sum_comp, Fintype.sum_sum_type]
  rfl

/-- Every entry of a history belongs to one thread. -/
theorem length_eq_sum (log : List (thread c × Int)) : log.length = ∑ t, (of_thread t log).length := by
  induction log with
  | nil => simp [of_thread]
  | cons e log ih =>
    have hcons (t : thread c) :
        (of_thread t (e :: log)).length = (of_thread t log).length + if e.1 = t then 1 else 0 := by
      by_cases ht : e.1 = t <;> simp [of_thread, ht]
    simp only [hcons, Finset.sum_add_distrib, Finset.sum_ite_eq, Finset.mem_univ, if_true, ← ih, List.length_cons]

theorem of_thread_eq_nil {t : thread c} {log : List (thread c × Int)} (h : ∀ e ∈ log, e.1.op ≠ t.op) :
    of_thread t log = [] := by
  rw [of_thread, List.map_eq_nil_iff, List.filter_eq_nil_iff]
  intro e he heq
  exact h e he (congrArg thread.op (of_decide_eq_true heq))

variable (h : Inv s)
include h

theorem Inv.pushed_length : s.pushed.length = ∑ i, (s.point (.producer i)).done c.items := by
  rw [length_eq_sum, sum_thread]
  have hconsumers (i : Fin c.consumers) : of_thread (.consumer i) s.pushed = [] :=
    of_thread_eq_nil fun e he => by rw [h.pushed_op e he]; simp [thread.op]
  have hproducers (i : Fin c.producers) :
      (of_thread (.producer i) s.pushed).length = (s.point (.producer i)).done c.items :=
    (h.threads (.producer i)).length_eq
  simp [hconsumers, hproducers]

theorem Inv.popped_length : s.popped.length = ∑ i, (s.point (.consumer i)).done c.items_to_consume := by
  rw [length_eq_sum, sum_thread]
  have hproducers (i : Fin c.producers) : of_thread (.producer i) s.popped = [] :=
    of_thread_eq_nil fun e he => by rw [h.popped_op e he]; simp [thread.op]
  have hconsumers (i : Fin c.consumers) :
      (of_thread (.consumer i) s.popped).length = (s.point (.consumer i)).done c.items_to_consume :=
    (h.threads (.consumer i)).length_eq
  simp [hconsumers, hproducers]

theorem Inv.item_count_eq : s.item_count + s.popped.length = s.pushed.length := by
  obtain ⟨contents, -, hcount, hpushed⟩ := h.queued
  have hlength := congrArg List.length hpushed
  rw [List.length_map, List.length_append, List.length_map] at hlength
  omega

end Totals

/-- What a thread has printed when it has finished. -/
theorem Kept.printed_of_finished {t : thread c} {log printed : List Int} (h : Kept t .finished log printed) :
    printed = log ∧ printed.length = t.rounds := by
  have heq : printed = log := by simpa [point_t.inhand] using h.printed_eq.symm
  exact ⟨heq, heq ▸ h.length_eq⟩

/-- All threads have finished when `main` has. -/
theorem Inv.finished {s : state c} (h : Inv s) (hmain : s.main = .finished) (t : thread c) : s.point t = .finished := by
  refine h.ordered.finished t ?_
  rw [hmain]
  cases t <;> trivial

/-- What is left in the buffer at the end. -/
theorem Inv.left_over {s : state c} (h : Inv s) (hmain : s.main = .finished) :
    s.item_count = (c.producers * c.items % c.consumers : Nat) := by
  have hpushed := h.pushed_length
  have hpopped := h.popped_length
  simp only [h.finished hmain, point_t.done, Finset.sum_const, Finset.card_univ, Fintype.card_fin, Nat.nsmul_eq_mul]
    at hpushed hpopped
  have hcount := h.item_count_eq
  have hdiv := Nat.mod_add_div (c.producers * c.items) c.consumers
  rw [config.items_to_consume] at hpopped
  omega

/-- In whatever order the threads run, no item is lost, duplicated or overtaken: the
buffer holds what was put into it and not yet taken, the items of a producer come in
its order, and a thread prints the items it has put or taken. In the end everything is
printed, and the buffer keeps the items that no consumer was to take. -/
theorem items_delivered (h : Reachable step (start c) s) :
    Queued s ∧ (∀ i, of_thread (.producer i) s.pushed <+: (List.range c.items).map (produced i)) ∧
      (∀ t, of_thread t s.printed <+: of_thread t (s.log t)) ∧
      (s.main = .finished →
        (∀ i, of_thread (.producer i) s.printed = (List.range c.items).map (produced i)) ∧
        (∀ i, of_thread (.consumer i) s.printed = of_thread (.consumer i) s.popped ∧
          (of_thread (.consumer i) s.popped).length = c.items_to_consume) ∧
        s.item_count = (c.producers * c.items % c.consumers : Nat)) := by
  have hinv := reachable_inv h
  have hproducers (i : Fin c.producers) :
      of_thread (.producer i) s.pushed = (List.range ((s.point (.producer i)).done c.items)).map (produced i) := by
    have hkept := hinv.threads (.producer i)
    have hproduced := hkept.produced_eq i rfl
    rwa [hkept.length_eq] at hproduced
  refine ⟨hinv.queued, fun i => ?_, fun t => ⟨_, (hinv.threads t).printed_eq.symm⟩, fun hmain => ?_⟩
  · have hle : (s.point (.producer i)).done c.items ≤ c.items := (hinv.threads (.producer i)).bounded.done_le
    rw [hproducers i]
    rw [← Nat.min_eq_left hle, ← List.take_range, List.map_take]
    exact List.take_prefix ..
  · have hprinted (t : thread c) := by
      have hkept := hinv.threads t
      rw [hinv.finished hmain t] at hkept
      exact hkept.printed_of_finished
    refine ⟨fun i => ?_, fun i => ?_, hinv.left_over hmain⟩
    · have hlog : of_thread (.producer i) s.printed = of_thread (.producer i) s.pushed := (hprinted (.producer i)).1
      rw [hlog, hproducers i, hinv.finished hmain]
      rfl
    · obtain ⟨heq, hlength⟩ := hprinted (.consumer i)
      exact ⟨heq, heq ▸ hlength⟩

/-- Two of each. -/
abbrev config.two : config := ⟨2, 2, 2, by decide, by decide, by decide⟩

/-- The first consumer finds the buffer empty, also when it wakes up without a signal, and
sleeps until the first producer has put its first item in. -/
def two_of_each (c : config) (p q : Fin c.producers) (i j : Fin c.consumers) : List (action_t c) :=
  List.flatten [List.replicate 6 .main, List.replicate 3 (.run (.consumer i) none),
    [.spurious (.consumer i)], List.replicate 2 (.run (.consumer i) none),
    List.replicate 3 (.run (.producer p) none), [.run (.producer p) (some (.consumer i))],
    List.replicate 2 (.run (.producer p) none), List.replicate 13 (.run (.producer q) none),
    List.replicate 7 (.run (.producer p) none), List.replicate 12 (.run (.consumer i) none),
    List.replicate 13 (.run (.consumer j) none), List.replicate 6 .main]

theorem items_delivered_two : ∃ s : state config.two, Reachable step (start _) s ∧ s.main = .finished ∧
    s.popped = [(.consumer 0, 100), (.consumer 0, 200), (.consumer 1, 201), (.consumer 1, 101)] ∧
    of_thread (.consumer 1) s.printed = [201, 101] := by
  have hsteps : ∃ s : state config.two, steps step (start _) (two_of_each config.two 0 1 0 1) = some s ∧
      s.main = .finished ∧
      s.popped = [(.consumer 0, 100), (.consumer 0, 200), (.consumer 1, 201), (.consumer 1, 101)] := ⟨_, rfl, rfl, rfl⟩
  obtain ⟨s, hsteps, hmain, hpopped⟩ := hsteps
  have hreach := Reachable.start.steps hsteps
  refine ⟨s, hreach, hmain, hpopped, ?_⟩
  rw [(((items_delivered hreach).2.2.2 hmain).2.1 1).1, hpopped]
  rfl

end csystems.producer_consumer
