import Mathlib.Data.List.Induction
import CSystems.Lib.Run

open clib.run

namespace clib.guarded

/-! Objects that are guarded by locks. A call takes one lock, works step by step on the
object of that lock, gives the lock back and returns. -/

/-- The calls: the lock that one takes, where it starts, and what it does at a point,
which is to go on at another point or to end with a result. -/
structure Code (ι σ γ π ρ : Type) where
  lock_of : γ → ι
  entry : γ → π
  run : γ → π → σ → σ × (π ⊕ ρ)

/-- Where a thread is. -/
inductive Thread (γ π ρ : Type) where
  | outside
  /-- It holds the lock of its call. -/
  | inside (c : γ) (at_ : π)
  /-- It is about to give the lock back. -/
  | leaving (c : γ) (result : ρ)
  | returned (c : γ) (result : ρ)

/-- The call that holds its lock. -/
def Thread.holds {γ π ρ : Type} : Thread γ π ρ → Option γ
  | .inside c _ | .leaving c _ => some c
  | .outside | .returned _ _ => none

structure State (ι θ σ γ π ρ : Type) where
  object : ι → σ
  owner : ι → Option θ
  thread : θ → Thread γ π ρ

/-- A thread takes the lock of its next call, or runs on. -/
inductive Event (θ γ : Type) where
  | lock (t : θ) (c : γ)
  | run (t : θ)

variable {ι θ σ γ π ρ : Type}

/-- The calls in the order in which they took their locks. -/
def taken (events : List (Event θ γ)) : List γ :=
  events.filterMap fun
    | .lock _ c => some c
    | .run _ => none

@[simp] theorem taken_nil : taken ([] : List (Event θ γ)) = [] := rfl

@[simp] theorem taken_append (first rest : List (Event θ γ)) : taken (first ++ rest) = taken first ++ taken rest :=
  List.filterMap_append

@[simp] theorem taken_lock (t : θ) (c : γ) (rest : List (Event θ γ)) : taken (.lock t c :: rest) = c :: taken rest :=
  rfl

@[simp] theorem taken_run (t : θ) (rest : List (Event θ γ)) : taken (.run t :: rest) = taken rest := rfl

variable [DecidableEq ι] [DecidableEq θ]

def start (objects : ι → σ) : State ι θ σ γ π ρ where
  object := objects
  owner _ := none
  thread _ := .outside

def take (code : Code ι σ γ π ρ) (s : State ι θ σ γ π ρ) (t : θ) (c : γ) : Option (State ι θ σ γ π ρ) :=
  if s.owner (code.lock_of c) = none then
    some { s with
      owner := Function.update s.owner (code.lock_of c) (some t)
      thread := Function.update s.thread t (.inside c (code.entry c)) }
  else none

def proceed (code : Code ι σ γ π ρ) (s : State ι θ σ γ π ρ) (t : θ) (c : γ) (at_ : π) : State ι θ σ γ π ρ :=
  let (object, next) := code.run c at_ (s.object (code.lock_of c))
  { s with
    object := Function.update s.object (code.lock_of c) object
    thread := Function.update s.thread t (match next with
      | .inl at_ => .inside c at_
      | .inr result => .leaving c result) }

def leave (code : Code ι σ γ π ρ) (s : State ι θ σ γ π ρ) (t : θ) (c : γ) (result : ρ) : State ι θ σ γ π ρ :=
  { s with
    owner := Function.update s.owner (code.lock_of c) none
    thread := Function.update s.thread t (.returned c result) }

def step (code : Code ι σ γ π ρ) (s : State ι θ σ γ π ρ) : Event θ γ → Option (State ι θ σ γ π ρ)
  | .lock t c =>
    match s.thread t with
    | .outside | .returned _ _ => take code s t c
    | .inside _ _ | .leaving _ _ => none
  | .run t =>
    match s.thread t with
    | .inside c at_ => some (proceed code s t c at_)
    | .leaving c result => some (leave code s t c result)
    | .outside | .returned _ _ => none

/-- From point `at_` of the call, with the object `x`, the call ends with the object `x'`
and the result. -/
inductive Completes (code : Code ι σ γ π ρ) (c : γ) : π → σ → σ → ρ → Prop where
  | last {at_ : π} {x x' : σ} {result : ρ} (h : code.run c at_ x = (x', .inr result)) :
    Completes code c at_ x x' result
  | next {at_ next : π} {x x₁ x' : σ} {result : ρ} (h : code.run c at_ x = (x₁, .inl next))
    (hrest : Completes code c next x₁ x' result) : Completes code c at_ x x' result

/-- The call, started with the object `x`, is at a point with the object as it then is. -/
inductive Reaches (code : Code ι σ γ π ρ) (c : γ) (x : σ) : π → σ → Prop where
  | entry : Reaches code c x (code.entry c) x
  | next {at_ next : π} {y y' : σ} (h : Reaches code c x at_ y) (hrun : code.run c at_ y = (y', .inl next)) :
    Reaches code c x next y'

/-- A call made alone on all the objects. -/
def perform (lock_of : γ → ι) (effect : γ → σ → σ × ρ) (objects : ι → σ) (c : γ) : (ι → σ) × ρ :=
  let (x, result) := effect c (objects (lock_of c))
  (Function.update objects (lock_of c) x, result)

/-- The objects after calls that are each made alone. -/
def after (lock_of : γ → ι) (effect : γ → σ → σ × ρ) (objects : ι → σ) (calls : List γ) : ι → σ :=
  calls.foldl (fun objects c => (perform lock_of effect objects c).1) objects

section Linear

variable {code : Code ι σ γ π ρ} {effect : γ → σ → σ × ρ} {objects : ι → σ}

omit [DecidableEq ι] in
/-- A call ends from any point as it does from its start. -/
theorem Reaches.completes {c : γ} {x y x' : σ} {at_ : π} {result : ρ} (h : Reaches code c x at_ y)
    (hcompletes : Completes code c (code.entry c) x x' result) : Completes code c at_ y x' result := by
  induction h with
  | entry => exact hcompletes
  | next h hrun ih =>
    cases ih with
    | last hrun' =>
      rw [hrun] at hrun'
      cases hrun'
    | next hrun' hrest =>
      rw [hrun] at hrun'
      cases hrun'
      exact hrest

theorem after_concat (first : List γ) (c : γ) :
    after code.lock_of effect objects (first ++ [c]) =
      (perform code.lock_of effect (after code.lock_of effect objects first) c).1 := by
  rw [after, List.foldl_append]
  rfl

theorem after_append_of_ne {i : ι} {rest : List γ} (first : List γ) (h : ∀ d ∈ rest, code.lock_of d ≠ i) :
    after code.lock_of effect objects (first ++ rest) i = after code.lock_of effect objects first i := by
  induction rest using List.reverseRecOn with
  | nil => rw [List.append_nil]
  | append_singleton rest d ih =>
    have hne : i ≠ code.lock_of d := fun heq => h d (by simp) heq.symm
    rw [← List.append_assoc, after_concat, ← ih fun d' hd' => h d' (by simp [hd'])]
    exact Function.update_of_ne hne _ _

/-- The last call of thread `t` is `c`, which took its lock after the calls `before` and
before the calls `later`. -/
def Entered (events : List (Event θ γ)) (t : θ) (c : γ) (before later : List γ) : Prop :=
  ∃ first rest, events = first ++ .lock t c :: rest ∧ before = taken first ∧ later = taken rest ∧
    ∀ d, .lock t d ∉ rest

omit [DecidableEq θ] in
theorem Entered.taken_eq {events : List (Event θ γ)} {t : θ} {c : γ} {before later : List γ}
    (h : Entered events t c before later) : taken events = before ++ c :: later := by
  obtain ⟨first, rest, rfl, rfl, rfl, -⟩ := h
  rw [taken_append, taken_lock]

omit [DecidableEq θ] in
theorem Entered.append {events : List (Event θ γ)} {t : θ} {c : γ} {before later : List γ}
    (h : Entered events t c before later) {e : Event θ γ} (he : ∀ d, e ≠ .lock t d) :
    Entered (events ++ [e]) t c before (later ++ taken [e]) := by
  obtain ⟨first, rest, rfl, rfl, rfl, hlast⟩ := h
  refine ⟨first, rest ++ [e], by simp, rfl, by simp, ?_⟩
  intro d hd
  rcases List.mem_append.mp hd with hd | hd
  · exact hlast d hd
  · exact he d (List.mem_singleton.mp hd).symm

variable (code effect objects)

/-- A thread has done its part of its call, which works on the object as the calls before
have left it. -/
def Follows (events : List (Event θ γ)) (s : State ι θ σ γ π ρ) (t : θ) : Thread γ π ρ → Prop
  | .outside => True
  | .inside c at_ => s.owner (code.lock_of c) = some t ∧ ∃ before later, Entered events t c before later ∧
      (∀ d ∈ later, code.lock_of d ≠ code.lock_of c) ∧
      Reaches code c (after code.lock_of effect objects before (code.lock_of c)) at_ (s.object (code.lock_of c))
  | .leaving c result => s.owner (code.lock_of c) = some t ∧ ∃ before later, Entered events t c before later ∧
      (∀ d ∈ later, code.lock_of d ≠ code.lock_of c) ∧
      effect c (after code.lock_of effect objects before (code.lock_of c)) = (s.object (code.lock_of c), result)
  | .returned c result => ∃ before later, Entered events t c before later ∧
      (effect c (after code.lock_of effect objects before (code.lock_of c))).2 = result

/-- A thread that owns a lock is in a call that holds it. -/
def Backed (owner : ι → Option θ) (i : ι) (t : θ) (p : Thread γ π ρ) : Prop :=
  owner i = some t → ∃ c, p.holds = some c ∧ code.lock_of c = i

/-- Objects whose lock nobody holds are as the calls so far, each made alone in the order
of their locks, leave them. -/
structure Linear (events : List (Event θ γ)) (s : State ι θ σ γ π ρ) : Prop where
  held : ∀ i t, Backed code s.owner i t (s.thread t)
  free : ∀ i, s.owner i = none → s.object i = after code.lock_of effect objects (taken events) i
  thread : ∀ t, Follows code effect objects events s t (s.thread t)

variable {code effect objects} {events : List (Event θ γ)} {s s' : State ι θ σ γ π ρ} {t u : θ}

omit [DecidableEq θ] in
/-- A step of another thread. -/
theorem Follows.other {p : Thread γ π ρ} (h : Follows code effect objects events s u p) {e : Event θ γ}
    (hown : ∀ d, e ≠ .lock u d) (hlock : ∀ v d, e = .lock v d → s.owner (code.lock_of d) ≠ some u)
    (hkept : ∀ i, s.owner i = some u → s'.owner i = some u ∧ s'.object i = s.object i) :
    Follows code effect objects (events ++ [e]) s' u p := by
  have hlater {c : γ} {later : List γ} (howner : s.owner (code.lock_of c) = some u)
      (hnone : ∀ d ∈ later, code.lock_of d ≠ code.lock_of c) :
      ∀ d ∈ later ++ taken [e], code.lock_of d ≠ code.lock_of c := by
    intro d hd heq
    rcases List.mem_append.mp hd with hd | hd
    · exact hnone d hd heq
    · cases e with
      | run v => cases hd
      | lock v d' =>
        obtain rfl : d = d' := List.mem_singleton.mp hd
        exact hlock v d rfl (heq ▸ howner)
  cases p with
  | outside => trivial
  | inside c at_ =>
    obtain ⟨howner, before, later, hentered, hnone, hrest⟩ := h
    obtain ⟨howner', hobject⟩ := hkept _ howner
    exact ⟨howner', before, _, hentered.append hown, hlater howner hnone, hobject ▸ hrest⟩
  | leaving c result =>
    obtain ⟨howner, before, later, hentered, hnone, heffect⟩ := h
    obtain ⟨howner', hobject⟩ := hkept _ howner
    exact ⟨howner', before, _, hentered.append hown, hlater howner hnone, hobject ▸ heffect⟩
  | returned c result =>
    obtain ⟨before, later, hentered, heffect⟩ := h
    exact ⟨before, _, hentered.append hown, heffect⟩

variable (hcode : ∀ c x, Completes code c (code.entry c) x (effect c x).1 (effect c x).2)

theorem Linear.take (h : Linear code effect objects events s) {c : γ} (ht : (s.thread t).holds = none)
    (hstep : take code s t c = some s') : Linear code effect objects (events ++ [.lock t c]) s' := by
  unfold guarded.take at hstep
  split at hstep
  case isFalse => cases hstep
  case isTrue hfree =>
    cases hstep
    refine ⟨?_, ?_, forall_update_of_ne ?_ fun u hu => (h.thread u).other ?_ ?_ ?_⟩
    · refine fun i => forall_update_of_ne (P := Backed code _ i) ?_ fun u hu hi => ?_
      · intro hi
        by_cases hi' : i = code.lock_of c
        · exact ⟨c, rfl, hi'.symm⟩
        · obtain ⟨d, hd, -⟩ := h.held i t (by simpa [hi'] using hi)
          rw [ht] at hd
          cases hd
      · by_cases hi' : i = code.lock_of c
        · subst hi'
          have htu : t = u := by simpa using hi
          exact absurd htu.symm hu
        · exact h.held i u (by simpa [hi'] using hi)
    · intro i hi
      have hne : i ≠ code.lock_of c := by
        rintro rfl
        simp at hi
      rw [taken_append, after_append_of_ne _ (by simpa using Ne.symm hne)]
      exact h.free i (by simpa [hne] using hi)
    · refine ⟨Function.update_self .., taken events, [], ⟨events, [], rfl, rfl, rfl, by simp⟩, by simp, ?_⟩
      rw [← h.free _ hfree]
      exact .entry
    · rintro d heq
      exact hu (Event.lock.inj heq).1.symm
    · rintro v d heq
      rw [← (Event.lock.inj heq).2, hfree]
      simp
    · intro i hi
      have hne : i ≠ code.lock_of c := by
        rintro rfl
        rw [hfree] at hi
        cases hi
      exact ⟨by simpa [hne] using hi, rfl⟩

include hcode in
theorem Linear.proceed (h : Linear code effect objects events s) {c : γ} {at_ : π} (ht : s.thread t = .inside c at_) :
    Linear code effect objects (events ++ [.run t]) (proceed code s t c at_) := by
  have hfollows := h.thread t
  rw [ht] at hfollows
  obtain ⟨howner, before, later, hentered, hnone, hreaches⟩ := hfollows
  have hkept : ∀ i x, s.owner i ≠ some t → Function.update s.object (code.lock_of c) x i = s.object i := by
    intro i x hi
    refine Function.update_of_ne ?_ _ _
    rintro rfl
    exact hi howner
  refine ⟨?_, ?_, forall_update_of_ne ?_ fun u hu => (h.thread u).other (by simp) (by simp) ?_⟩
  · refine fun i => forall_update_of_ne (P := Backed code s.owner i) ?_ fun u _ => h.held i u
    intro hi
    obtain ⟨d, hd, hlock⟩ := h.held i t hi
    rw [ht] at hd
    obtain rfl : c = d := Option.some.inj hd
    refine ⟨c, ?_, hlock⟩
    split <;> rfl
  · intro i hi
    have hi : s.owner i = none := hi
    rw [taken_append, taken_run, taken_nil, List.append_nil, ← h.free i hi]
    exact hkept i _ (by simp [hi])
  · have hentered' : Entered (events ++ [.run t]) t c before later := by
      simpa using hentered.append (e := .run t) (by simp)
    have hrest := hreaches.completes (hcode c _)
    cases hrun : code.run c at_ (s.object (code.lock_of c)) with
    | mk x next =>
      cases next with
      | inl next =>
        simp only [guarded.proceed, hrun]
        refine ⟨howner, before, later, hentered', hnone, ?_⟩
        dsimp only
        rw [Function.update_self]
        exact .next hreaches hrun
      | inr result =>
        simp only [guarded.proceed, hrun]
        refine ⟨howner, before, later, hentered', hnone, ?_⟩
        dsimp only
        rw [Function.update_self]
        cases hrest with
        | last hlast =>
          rw [hrun] at hlast
          cases hlast
          rfl
        | next hnext =>
          rw [hrun] at hnext
          cases hnext
  · intro i hi
    exact ⟨hi, hkept i _ (by simpa [hi] using hu)⟩

theorem Linear.leave (h : Linear code effect objects events s) {c : γ} {result : ρ}
    (ht : s.thread t = .leaving c result) :
    Linear code effect objects (events ++ [.run t]) (leave code s t c result) := by
  have hfollows := h.thread t
  rw [ht] at hfollows
  obtain ⟨howner, before, later, hentered, hnone, heffect⟩ := hfollows
  have hold {i : ι} {u : θ} (hi : Function.update s.owner (code.lock_of c) none i = some u) :
      i ≠ code.lock_of c ∧ s.owner i = some u := by
    have hne : i ≠ code.lock_of c := by
      rintro rfl
      simp at hi
    exact ⟨hne, by simpa [hne] using hi⟩
  refine ⟨?_, ?_, forall_update_of_ne ?_ fun u hu => (h.thread u).other (by simp) (by simp) ?_⟩
  · refine fun i => forall_update_of_ne (P := Backed code _ i) ?_ fun u _ hi => h.held i u (hold hi).2
    intro hi
    obtain ⟨hne, hi⟩ := hold hi
    obtain ⟨d, hd, hlock⟩ := h.held i t hi
    rw [ht] at hd
    obtain rfl : c = d := Option.some.inj hd
    exact absurd hlock.symm hne
  · intro i hi
    rw [taken_append, taken_run, taken_nil, List.append_nil]
    by_cases hi' : i = code.lock_of c
    · subst hi'
      rw [hentered.taken_eq, ← List.singleton_append, ← List.append_assoc, after_append_of_ne _ hnone, after_concat]
      simp [perform, heffect, guarded.leave]
    · refine h.free i ?_
      simpa [guarded.leave, hi'] using hi
  · refine ⟨before, later, ?_, by rw [heffect]⟩
    simpa using hentered.append (e := .run t) (by simp)
  · intro i hi
    have hne : i ≠ code.lock_of c := by
      rintro rfl
      rw [howner] at hi
      exact hu (Option.some.inj hi).symm
    exact ⟨by simpa [guarded.leave, hne] using hi, rfl⟩

include hcode

theorem Linear.step (h : Linear code effect objects events s) {e : Event θ γ} (hstep : step code s e = some s') :
    Linear code effect objects (events ++ [e]) s' := by
  cases e with
  | lock t c =>
    rw [guarded.step] at hstep
    split at hstep
    · next ht => exact h.take (by rw [ht]; rfl) hstep
    · next ht => exact h.take (by rw [ht]; rfl) hstep
    · cases hstep
    · cases hstep
  | run t =>
    rw [guarded.step] at hstep
    split at hstep
    · next ht =>
      cases hstep
      exact h.proceed hcode ht
    · next ht =>
      cases hstep
      exact h.leave ht
    · cases hstep
    · cases hstep

/-- Calls that each do, alone, what `effect` says are linearised by the order in which
they take their locks. -/
theorem linear_of_steps (hsteps : steps (step code) (start objects) events = some s) :
    Linear code effect objects events s := by
  have hstart : Linear code effect objects ([] : List (Event θ γ)) (start objects) := by
    refine ⟨?_, fun i _ => rfl, fun t => trivial⟩
    intro i t hi
    cases hi
  exact steps_history (fun _ _ _ _ h hstep => h.step hcode hstep) hstart hsteps

omit hcode [DecidableEq θ] in
/-- An object is always one that a call works on after calls made alone, or as such calls
leave it. -/
theorem Linear.object_eq (h : Linear code effect objects events s) (i : ι) :
    ∃ calls, s.object i = after code.lock_of effect objects calls i ∨
      ∃ c at_, Reaches code c (after code.lock_of effect objects calls i) at_ (s.object i) := by
  cases howner : s.owner i with
  | none => exact ⟨_, Or.inl (h.free i howner)⟩
  | some t =>
    obtain ⟨c, hc, rfl⟩ := h.held i t howner
    have hfollows := h.thread t
    cases ht : s.thread t with
    | outside =>
      rw [ht] at hc
      cases hc
    | returned d result =>
      rw [ht] at hc
      cases hc
    | inside d at_ =>
      rw [ht] at hc hfollows
      obtain rfl : d = c := Option.some.inj hc
      obtain ⟨-, before, later, -, -, hreaches⟩ := hfollows
      exact ⟨before, Or.inr ⟨d, at_, hreaches⟩⟩
    | leaving d result =>
      rw [ht] at hc hfollows
      obtain rfl : d = c := Option.some.inj hc
      obtain ⟨-, before, later, -, -, heffect⟩ := hfollows
      refine ⟨before ++ [d], Or.inl ?_⟩
      rw [after_concat]
      simp [perform, heffect]

end Linear

section Commute

variable {code : Code ι σ γ π ρ} {effect : γ → σ → σ × ρ} {s : State ι θ σ γ π ρ}

def Event.actor : Event θ γ → θ
  | .lock t _ => t
  | .run t => t

/-- The lock that a step takes, works under or gives back. -/
def lock_used (code : Code ι σ γ π ρ) (s : State ι θ σ γ π ρ) : Event θ γ → Option ι
  | .lock _ c => some (code.lock_of c)
  | .run t =>
    (s.thread t).holds.map code.lock_of

/-- What a step does to the parts of the state that it works on. -/
def local_step (code : Code ι σ γ π ρ) (p : Thread γ π ρ) (x : σ) (owner : Option θ) :
    Event θ γ → Option (Thread γ π ρ × σ × Option θ)
  | .lock t c =>
    match p with
    | .outside | .returned _ _ => if owner = none then some (.inside c (code.entry c), x, some t) else none
    | .inside _ _ | .leaving _ _ => none
  | .run _ =>
    match p with
    | .inside c at_ =>
      match code.run c at_ x with
      | (x, .inl at_) => some (.inside c at_, x, owner)
      | (x, .inr result) => some (.leaving c result, x, owner)
    | .leaving c result => some (.returned c result, x, none)
    | .outside | .returned _ _ => none

def State.put (s : State ι θ σ γ π ρ) (t : θ) (i : ι) (out : Thread γ π ρ × σ × Option θ) : State ι θ σ γ π ρ where
  object := Function.update s.object i out.2.1
  owner := Function.update s.owner i out.2.2
  thread := Function.update s.thread t out.1

/-- A step works on one thread, and on one lock and its object. -/
theorem step_eq_local (e : Event θ γ) :
    step code s e = (lock_used code s e).bind fun i =>
      (local_step code (s.thread e.actor) (s.object i) (s.owner i) e).map (s.put e.actor i) := by
  cases e with
  | lock t c =>
    rw [lock_used, Option.bind_some]
    simp only [step, take, Event.actor, local_step]
    cases s.thread t with
    | inside c' at_ => rfl
    | leaving c' result => rfl
    | outside | returned c' result =>
      dsimp only
      split
      · rw [Option.map_some, State.put, Function.update_eq_self]
      · rfl
  | run t =>
    simp only [step, lock_used, Event.actor]
    cases ht : s.thread t with
    | outside => rfl
    | returned c result => rfl
    | leaving c result =>
      rw [Thread.holds, Option.map_some, Option.bind_some, local_step, Option.map_some, State.put,
        Function.update_eq_self]
      rfl
    | inside c at_ =>
      dsimp only
      rw [Thread.holds, Option.map_some, Option.bind_some, local_step, proceed]
      rcases code.run c at_ (s.object (code.lock_of c)) with ⟨x, at_ | result⟩ <;>
        rw [Option.map_some, State.put, Function.update_eq_self]

/-- Another thread's step leaves a step's lock, and all that it works on. -/
theorem lock_used_put {e : Event θ γ} {t : θ} (ht : e.actor ≠ t) (i : ι) (out : Thread γ π ρ × σ × Option θ) :
    lock_used code (s.put t i out) e = lock_used code s e := by
  cases e with
  | lock u c => rfl
  | run u =>
    have hthread : (s.put t i out).thread u = s.thread u := Function.update_of_ne ht _ _
    rw [lock_used, lock_used, hthread]

theorem step_put {e : Event θ γ} {t : θ} {i j : ι} (ht : e.actor ≠ t) (hj : lock_used code s e = some j) (hij : j ≠ i)
    (out : Thread γ π ρ × σ × Option θ) :
    step code (s.put t i out) e =
      (local_step code (s.thread e.actor) (s.object j) (s.owner j) e).map ((s.put t i out).put e.actor j) := by
  rw [step_eq_local, lock_used_put ht, hj, Option.bind_some]
  have hthread : (s.put t i out).thread e.actor = s.thread e.actor := Function.update_of_ne ht _ _
  have hobject : (s.put t i out).object j = s.object j := Function.update_of_ne hij _ _
  have howner : (s.put t i out).owner j = s.owner j := Function.update_of_ne hij _ _
  rw [hthread, hobject, howner]

theorem put_comm {t u : θ} {i j : ι} (htu : t ≠ u) (hij : i ≠ j) (out out' : Thread γ π ρ × σ × Option θ) :
    (s.put t i out).put u j out' = (s.put u j out').put t i out := by
  simp only [State.put, State.mk.injEq]
  exact ⟨Function.update_comm hij _ _ _, Function.update_comm hij _ _ _, Function.update_comm htu _ _ _⟩

/-- A step after that of another thread under another lock. -/
theorem step_bind_step {a b : Event θ γ} {i j : ι} (hactor : b.actor ≠ a.actor) (ha : lock_used code s a = some i)
    (hb : lock_used code s b = some j) (hij : j ≠ i) :
    (step code s a).bind (step code · b) =
      (local_step code (s.thread a.actor) (s.object i) (s.owner i) a).bind fun out =>
        (local_step code (s.thread b.actor) (s.object j) (s.owner j) b).map
          ((s.put a.actor i out).put b.actor j) := by
  rw [step_eq_local a, ha, Option.bind_some, Option.bind_map]
  refine Option.bind_congr fun out _ => ?_
  exact step_put hactor hb hij out

/-- Steps of two threads under different locks commute. -/
theorem step_commute {a b : Event θ γ} (hactor : a.actor ≠ b.actor)
    (hlock : ∀ i, lock_used code s a = some i → lock_used code s b ≠ some i) :
    (step code s a).bind (step code · b) = (step code s b).bind (step code · a) := by
  have hstuck {a b : Event θ γ} (hactor : a.actor ≠ b.actor) (ha : lock_used code s a = none) :
      (step code s a).bind (step code · b) = (step code s b).bind (step code · a) := by
    rw [step_eq_local a, ha, Option.bind_none, Option.bind_none, eq_comm, Option.bind_eq_none_iff]
    intro s' hs'
    rw [step_eq_local] at hs'
    obtain ⟨j, -, hs'⟩ := Option.bind_eq_some_iff.mp hs'
    obtain ⟨out, -, rfl⟩ := Option.map_eq_some_iff.mp hs'
    rw [step_eq_local, lock_used_put hactor, ha, Option.bind_none]
  cases ha : lock_used code s a with
  | none => exact hstuck hactor ha
  | some i =>
    cases hb : lock_used code s b with
    | none => exact (hstuck hactor.symm hb).symm
    | some j =>
      have hij : i ≠ j := by
        rintro rfl
        exact hlock i ha hb
      rw [step_bind_step hactor.symm ha hb hij.symm, step_bind_step hactor hb ha hij]
      cases local_step code (s.thread a.actor) (s.object i) (s.owner i) a with
      | none => cases local_step code (s.thread b.actor) (s.object j) (s.owner j) b <;> rfl
      | some out =>
        cases local_step code (s.thread b.actor) (s.object j) (s.owner j) b with
        | none => rfl
        | some out' => exact congrArg some (put_comm hactor hij out out')

/-- Calls under different locks commute. -/
theorem perform_commute {lock_of : γ → ι} {effect : γ → σ → σ × ρ} (objects : ι → σ) {c d : γ}
    (hne : lock_of c ≠ lock_of d) :
    (perform lock_of effect (perform lock_of effect objects c).1 d).1 =
      (perform lock_of effect (perform lock_of effect objects d).1 c).1 ∧
    (perform lock_of effect (perform lock_of effect objects c).1 d).2 = (perform lock_of effect objects d).2 := by
  simp only [perform, Function.update_of_ne hne, Function.update_of_ne hne.symm, and_true]
  exact Function.update_comm hne _ _ _

end Commute

end clib.guarded
