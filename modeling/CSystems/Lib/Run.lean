import Mathlib.Algebra.GroupWithZero.Nat
import Mathlib.Data.List.Basic
import Mathlib.Data.List.Induction
import Mathlib.Logic.Function.Basic

namespace clib.run

variable {σ ε : Type}

/-- Every step of the run that `events` drives from `s` meets the condition in
the state it is taken in. -/
def AllSteps (step : σ → ε → σ) (P : σ → ε → Prop) : σ → List ε → Prop
  | _, [] => True
  | s, e :: events => P s e ∧ AllSteps step P (step s e) events

/-- What every step meeting the condition preserves holds after the run. -/
theorem AllSteps.invariant {step : σ → ε → σ} {P : σ → ε → Prop} {Inv : σ → Prop}
    (hstep : ∀ s e, Inv s → P s e → Inv (step s e)) {s : σ} {events : List ε} (hinit : Inv s)
    (h : AllSteps step P s events) : Inv (events.foldl step s) := by
  induction events generalizing s with
  | nil => exact hinit
  | cons e events ih =>
    obtain ⟨hfirst, hrest⟩ := h
    exact ih (hstep s e hinit hfirst) hrest

/-- A condition that an invariant implies is met by every step. -/
theorem AllSteps.of_invariant {step : σ → ε → σ} {P : σ → ε → Prop} {D : ε → Prop} {Inv : σ → Prop}
    (hstep : ∀ s e, D e → Inv s → Inv (step s e)) (hmeets : ∀ s e, D e → Inv s → P s e) {s : σ} {events : List ε}
    (hinit : Inv s) (hevents : ∀ e ∈ events, D e) : AllSteps step P s events := by
  induction events generalizing s with
  | nil => trivial
  | cons e events ih =>
    have he : D e := hevents e (by simp)
    exact ⟨hmeets s e he hinit, ih (hstep s e he hinit) fun e he => hevents e (by simp [he])⟩

theorem AllSteps.append_iff {step : σ → ε → σ} {P : σ → ε → Prop} {s : σ} {first rest : List ε} :
    AllSteps step P s (first ++ rest) ↔ AllSteps step P s first ∧ AllSteps step P (first.foldl step s) rest := by
  induction first generalizing s with
  | nil => exact (and_iff_right trivial).symm
  | cons e first ih =>
    rw [List.cons_append, AllSteps, AllSteps, ih, and_assoc]
    rfl

instance decidableAllSteps (step : σ → ε → σ) (P : σ → ε → Prop) [∀ s e, Decidable (P s e)] (s : σ)
    (events : List ε) : Decidable (AllSteps step P s events) :=
  match events with
  | [] => .isTrue trivial
  | e :: events =>
    have := decidableAllSteps step P (step s e) events
    inferInstanceAs (Decidable (_ ∧ _))

section Reachable

/-- The states that steps lead to, where a step need not be possible. -/
inductive Reachable (step : σ → ε → Option σ) (start : σ) : σ → Prop where
  | start : Reachable step start start
  | step {s s' : σ} (e : ε) (h : Reachable step start s) (hstep : step s e = some s') : Reachable step start s'

variable {step : σ → ε → Option σ} {start s : σ}

/-- What holds at the start and is preserved by every step holds in every state
reached. -/
theorem Reachable.invariant {P : σ → Prop} (h : Reachable step start s) (hstart : P start)
    (hstep : ∀ s s' e, P s → step s e = some s' → P s') : P s := by
  induction h with
  | start => exact hstart
  | step e h hs ih => exact hstep _ _ e ih hs

theorem Reachable.trans {mid : σ} (h : Reachable step mid s) (hmid : Reachable step start mid) :
    Reachable step start s := by
  induction h with
  | start => exact hmid
  | step e h hs ih => exact .step e ih hs

/-- The state a sequence of steps leads to. -/
def steps (step : σ → ε → Option σ) : σ → List ε → Option σ
  | s, [] => some s
  | s, e :: events => (step s e).bind fun s => steps step s events

theorem Reachable.steps {events : List ε} {s' : σ} (h : Reachable step start s)
    (hsteps : steps step s events = some s') : Reachable step start s' := by
  induction events generalizing s with
  | nil => exact Option.some.inj hsteps ▸ h
  | cons e events ih =>
    obtain ⟨s₁, hs₁, hrest⟩ := Option.bind_eq_some_iff.mp hsteps
    exact ih (.step e h hs₁) hrest

end Reachable

section Threads

variable {θ β : Type} [DecidableEq θ] {f : θ → β} {P : θ → β → Prop}

/-- What holds of the other threads and of the new point of one of them. -/
theorem forall_update_of_ne {t : θ} {p : β} (hp : P t p) (h : ∀ u, u ≠ t → P u (f u)) :
    ∀ u, P u (Function.update f t p u) := by
  intro u
  by_cases hut : u = t
  · subst hut
    rwa [Function.update_self]
  · rw [Function.update_of_ne hut]
    exact h u hut

/-- What holds of every thread still does when one of them changes. -/
theorem forall_update (h : ∀ t, P t (f t)) {t : θ} {p : β} (hp : P t p) : ∀ u, P u (Function.update f t p u) :=
  forall_update_of_ne hp fun u _ => h u

section Counted

variable {n m : Nat} {f : Fin n → β} {Q : Fin n → β → Prop} {i : Fin n}

/-- What holds of the first threads, and of the next one. -/
theorem forall_lt_succ (h : ∀ j : Fin n, j < m → Q j (f j)) (hm : m = i) (hi : Q i (f i)) :
    ∀ j : Fin n, j < (i + 1 : Nat) → Q j (f j) := by
  intro j hj
  by_cases hji : j = i
  · rw [hji]
    exact hi
  · have hne : j.val ≠ i.val := fun heq => hji (Fin.ext heq)
    exact h j (by omega)

/-- What holds of the first threads holds of one more when that one is changed. -/
theorem forall_update_lt (h : ∀ j : Fin n, j < m → Q j (f j)) (hm : m = i) {p : β} (hp : Q i p) :
    ∀ j : Fin n, j < (i + 1 : Nat) → Q j (Function.update f i p j) := by
  refine forall_lt_succ (fun j hj => ?_) hm (by rwa [Function.update_self])
  have hji : j ≠ i := by
    rintro rfl
    omega
  rw [Function.update_of_ne hji]
  exact h j hj

/-- What holds of the other threads holds of those after the changed one. -/
theorem forall_update_ge (h : ∀ j : Fin n, m ≤ j → Q j (f j)) (hm : m = i) (p : β) :
    ∀ j : Fin n, (i + 1 : Nat) ≤ j → Q j (Function.update f i p j) := by
  intro j hj
  have hji : j ≠ i := by
    rintro rfl
    omega
  rw [Function.update_of_ne hji]
  exact h j (by omega)

end Counted

end Threads

section History

variable {step : σ → ε → σ} {D : ε → Prop} {Inv : List ε → σ → Prop}

/-- An invariant that speaks of the events so far holds after the run. -/
theorem foldl_history (hstep : ∀ past s e, D e → Inv past s → Inv (past ++ [e]) (step s e)) {past events : List ε}
    {s : σ} (hinit : Inv past s) (hevents : ∀ e ∈ events, D e) : Inv (past ++ events) (events.foldl step s) := by
  induction events generalizing past s with
  | nil => simpa using hinit
  | cons e events ih =>
    have hfirst := hstep past s e (hevents e (by simp)) hinit
    have hrest := ih hfirst fun e he => hevents e (by simp [he])
    simpa using hrest

/-- The same where a step need not be possible. -/
theorem steps_history {step : σ → ε → Option σ}
    (hstep : ∀ past s s' e, Inv past s → step s e = some s' → Inv (past ++ [e]) s') {past events : List ε} {s s' : σ}
    (hinit : Inv past s) (hsteps : steps step s events = some s') : Inv (past ++ events) s' := by
  induction events generalizing past s with
  | nil =>
    obtain rfl := Option.some.inj hsteps
    simpa using hinit
  | cons e events ih =>
    obtain ⟨s₁, hfirst, hrest⟩ := Option.bind_eq_some_iff.mp hsteps
    simpa using ih (hstep past s s₁ e hinit hfirst) hrest

/-- Where good steps keep an invariant and a bad step shows at once, the states
of a run are all as they should be exactly if no step is bad. -/
theorem forall_prefix_iff {P : σ → ε → Prop} {Good : List ε → σ → Prop}
    (hgood : ∀ past s, Inv past s → Good past s)
    (hstep : ∀ past s e, D e → Inv past s → P s e → Inv (past ++ [e]) (step s e))
    (hbad : ∀ past s e, D e → Inv past s → ¬ P s e → ¬ Good (past ++ [e]) (step s e)) {past events : List ε} {s : σ}
    (hinit : Inv past s) (hevents : ∀ e ∈ events, D e) :
    (∀ now, now <+: events → Good (past ++ now) (now.foldl step s)) ↔ AllSteps step P s events := by
  induction events generalizing past s with
  | nil =>
    refine iff_of_true ?_ trivial
    intro now hnow
    rw [List.prefix_nil.mp hnow, List.append_nil]
    exact hgood past s hinit
  | cons e events ih =>
    have he : D e := hevents e (by simp)
    have hrest : ∀ e ∈ events, D e := fun e he => hevents e (by simp [he])
    constructor
    · intro hall
      have hfirst : P s e := by
        by_contra hnot
        exact hbad past s e he hinit hnot (hall [e] ⟨events, rfl⟩)
      refine ⟨hfirst, (ih (hstep past s e he hinit hfirst) hrest).mp ?_⟩
      intro now hnow
      simpa using hall (e :: now) (List.prefix_cons_inj e |>.mpr hnow)
    · rintro ⟨hfirst, htail⟩ now hnow
      cases now with
      | nil => simpa using hgood past s hinit
      | cons e' now =>
        obtain ⟨rfl, htake⟩ := List.cons_prefix_cons.mp hnow
        simpa using (ih (hstep past s e' he hinit hfirst) hrest).mpr htail now htake

/-- Steps that are possible from where an invariant on the elements so far holds, and that
keep it, make a run over all of them. -/
theorem foldlM_history {m : Type → Type} [Monad m] [LawfulMonad m] {step : σ → ε → m σ} (Inv : List ε → σ → Prop)
    {events : List ε} {s : σ} (hinit : Inv [] s)
    (hstep : ∀ past e s, past ++ [e] <+: events → Inv past s → ∃ s', step s e = pure s' ∧ Inv (past ++ [e]) s') :
    ∃ s', events.foldlM step s = pure s' ∧ Inv events s' := by
  induction events using List.reverseRecOn with
  | nil => exact ⟨s, rfl, hinit⟩
  | append_singleton events e ih =>
    obtain ⟨s₁, hrun, h₁⟩ := ih fun past e' s hnow => hstep past e' s (hnow.trans (List.prefix_append _ _))
    obtain ⟨s₂, hlast, h₂⟩ := hstep events e s₁ (List.prefix_refl _) h₁
    refine ⟨s₂, ?_, h₂⟩
    rw [List.foldlM_append, hrun, pure_bind, List.foldlM_cons, hlast, pure_bind, List.foldlM_nil]

end History

section Measure

variable {step : σ → ε → Option σ} {Inv : σ → Prop} {μ : σ → Nat}

/-- A run is no longer than what its steps use up. -/
theorem steps_length_le {gain : ε → Nat} (hkeep : ∀ s s' e, Inv s → step s e = some s' → Inv s')
    (hcost : ∀ s s' e, Inv s → step s e = some s' → μ s' + 1 ≤ μ s + gain e) {s s' : σ} {events : List ε}
    (hinit : Inv s)
    (hsteps : steps step s events = some s') : events.length + μ s' ≤ μ s + (events.map gain).sum := by
  induction events generalizing s with
  | nil =>
    obtain rfl := Option.some.inj hsteps
    simp
  | cons e events ih =>
    obtain ⟨s₁, hfirst, hrest⟩ := Option.bind_eq_some_iff.mp hsteps
    have hle := ih (hkeep s s₁ e hinit hfirst) hrest
    have hone := hcost s s₁ e hinit hfirst
    rw [List.length_cons, List.map_cons, List.sum_cons]
    omega

/-- The same where only some of the steps add something, none more than `k`. -/
theorem steps_length_le_countP {p : ε → Bool} {k : Nat} (hkeep : ∀ s s' e, Inv s → step s e = some s' → Inv s')
    (hcost : ∀ s s' e, Inv s → step s e = some s' → μ s' + 1 ≤ μ s + if p e then k else 0) {s s' : σ}
    {events : List ε} (hinit : Inv s) (hsteps : steps step s events = some s') :
    events.length + μ s' ≤ μ s + k * events.countP p := by
  have hgain : (events.map fun e => if p e then k else 0).sum = k * events.countP p := by
    clear hsteps
    induction events with
    | nil => rfl
    | cons e events ih =>
      rw [List.map_cons, List.sum_cons, ih, List.countP_cons, Nat.mul_add, Nat.add_comm]
      split <;> simp
  exact hgain ▸ steps_length_le hkeep hcost hinit hsteps

/-- Where some steps only ever use something up, a state is reached that has none of
them left. -/
theorem exists_final {P : ε → Prop} (hkeep : ∀ s s' e, Inv s → step s e = some s' → Inv s')
    (hcost : ∀ s s' e, Inv s → P e → step s e = some s' → μ s' < μ s) {start s : σ} (h : Reachable step start s)
    (hinv : Inv s) : ∃ s', Reachable step start s' ∧ ∀ e, P e → step s' e = none := by
  induction hn : μ s using Nat.strongRecOn generalizing s with
  | ind n ih =>
    by_cases hfinal : ∀ e, P e → step s e = none
    · exact ⟨s, h, hfinal⟩
    · push Not at hfinal
      obtain ⟨e, hP, hsome⟩ := hfinal
      obtain ⟨s₁, hstep⟩ := Option.ne_none_iff_exists'.mp hsome
      exact ih (μ s₁) (hn ▸ hcost s s₁ e hinv hP hstep) (h.step e hstep) (hkeep s s₁ e hinv hstep) rfl

end Measure

section Calls

variable {ρ τ : Type}

/-- A sequence of calls and what they return, where a call may fail. -/
def exec (call : σ → ε → Option (σ × ρ)) : σ → List ε → Option (σ × List ρ)
  | s, [] => some (s, [])
  | s, e :: events => do
    let (s, result) ← call s e
    let (s, results) ← exec call s events
    some (s, result :: results)

/-- A sequence of calls that cannot fail. -/
def respond (call : τ → ε → τ × ρ) : τ → List ε → τ × List ρ
  | t, [] => (t, [])
  | t, e :: events =>
    let (t, result) := call t e
    let (t, results) := respond call t events
    (t, result :: results)

/-- Every call of the sequence meets the condition in the state it is made in. -/
def AllCalls (call : σ → ε → Option (σ × ρ)) (P : σ → ε → Prop) : σ → List ε → Prop
  | _, [] => True
  | s, e :: events => P s e ∧
    match call s e with
    | some (s', _) => AllCalls call P s' events
    | none => True

instance decidableAllCalls (call : σ → ε → Option (σ × ρ)) (P : σ → ε → Prop) [∀ s e, Decidable (P s e)] (s : σ)
    (events : List ε) : Decidable (AllCalls call P s events) :=
  match events with
  | [] => .isTrue trivial
  | e :: events =>
    have : Decidable (match call s e with
        | some (s', _) => AllCalls call P s' events
        | none => True) :=
      match call s e with
      | some (s', _) => decidableAllCalls call P s' events
      | none => .isTrue trivial
    inferInstanceAs (Decidable (_ ∧ _))

variable {call : σ → ε → Option (σ × ρ)} {spec : τ → ε → τ × ρ}

theorem exec_cons {s s' : σ} {e : ε} {result : ρ} (hcall : call s e = some (s', result)) (events : List ε) :
    exec call s (e :: events) = (exec call s' events).map fun (s, results) => (s, result :: results) := by
  rw [exec, hcall, Option.bind_eq_bind, Option.bind_some]
  dsimp only
  cases exec call s' events <;> rfl

/-- What every call preserves holds after the calls. -/
theorem exec_invariant {P : σ → Prop} (hstep : ∀ s s' e result, P s → call s e = some (s', result) → P s') {s s' : σ}
    {events : List ε} {results : List ρ} (hinit : P s) (hexec : exec call s events = some (s', results)) : P s' := by
  induction events generalizing s results with
  | nil =>
    obtain ⟨rfl, -⟩ := Prod.mk.inj (Option.some.inj hexec)
    exact hinit
  | cons e events ih =>
    rw [exec, Option.bind_eq_bind] at hexec
    obtain ⟨⟨s₁, result⟩, hcall, hexec⟩ := Option.bind_eq_some_iff.mp hexec
    obtain ⟨⟨s₂, results'⟩, hrest, hexec⟩ := Option.bind_eq_some_iff.mp hexec
    obtain ⟨rfl, -⟩ := Prod.mk.inj (Option.some.inj hexec)
    exact ih (hstep s s₁ e result hinit hcall) hrest

/-- Calls that keep an invariant on the state and on a record of the calls and their
results never fail. -/
theorem exec_record (D : ε → Prop) (Inv : τ → σ → Prop) (record : τ → ε × ρ → τ)
    (hstep : ∀ t s e, D e → Inv t s → ∃ s' result, call s e = some (s', result) ∧ Inv (record t (e, result)) s')
    (t : τ) {s : σ} {events : List ε} (hinit : Inv t s) (hevents : ∀ e ∈ events, D e) :
    ∃ s' results, exec call s events = some (s', results) ∧ Inv ((events.zip results).foldl record t) s' := by
  induction events generalizing t s with
  | nil => exact ⟨s, [], rfl, hinit⟩
  | cons e events ih =>
    obtain ⟨s₁, result, hcall, hfirst⟩ := hstep t s e (hevents e List.mem_cons_self) hinit
    obtain ⟨s₂, results, hexec, hrest⟩ := ih _ hfirst fun e he => hevents e (List.mem_cons_of_mem _ he)
    refine ⟨s₂, result :: results, ?_, hrest⟩
    rw [exec_cons hcall, hexec]
    rfl

/-- Calls that keep an invariant on the state never fail. -/
theorem exec_total (D : ε → Prop) (P : σ → Prop)
    (hstep : ∀ s e, D e → P s → ∃ s' result, call s e = some (s', result) ∧ P s') {s : σ} {events : List ε}
    (hinit : P s) (hevents : ∀ e ∈ events, D e) : ∃ s' results, exec call s events = some (s', results) ∧ P s' :=
  exec_record D (fun _ => P) (fun (_ : Unit) _ => ()) (fun _ => hstep) () hinit hevents

theorem exec_append {s s' : σ} {events : List ε} {results : List ρ} (hexec : exec call s events = some (s', results))
    (e : ε) : exec call s (events ++ [e]) = (call s' e).map fun (s, result) => (s, results ++ [result]) := by
  induction events generalizing s results with
  | nil =>
    obtain ⟨rfl, rfl⟩ := Prod.mk.inj (Option.some.inj hexec)
    simp only [List.nil_append, exec, Option.bind_eq_bind]
    cases call s e <;> rfl
  | cons e' events ih =>
    rw [exec, Option.bind_eq_bind] at hexec
    obtain ⟨⟨s₁, result⟩, hcall, hexec⟩ := Option.bind_eq_some_iff.mp hexec
    obtain ⟨⟨s₂, results'⟩, hrest, hexec⟩ := Option.bind_eq_some_iff.mp hexec
    obtain ⟨rfl, rfl⟩ := Prod.mk.inj (Option.some.inj hexec)
    rw [List.cons_append, exec_cons hcall, ih hrest]
    cases call s₂ e <;> rfl

theorem respond_append (t : τ) (events : List ε) (e : ε) :
    respond spec t (events ++ [e]) =
      ((spec (respond spec t events).1 e).1, (respond spec t events).2 ++ [(spec (respond spec t events).1 e).2]) := by
  induction events generalizing t with
  | nil => rfl
  | cons e' events ih =>
    simp only [List.cons_append, respond]
    rw [ih]

theorem AllCalls.take {P : σ → ε → Prop} {s : σ} {events now : List ε} (h : AllCalls call P s events)
    (hnow : now <+: events) : AllCalls call P s now := by
  induction now generalizing s events with
  | nil => trivial
  | cons e now ih =>
    obtain ⟨rest, rfl⟩ := hnow
    obtain ⟨hfirst, hrest⟩ := h
    refine ⟨hfirst, ?_⟩
    cases hcall : call s e with
    | none => trivial
    | some out =>
      rw [hcall] at hrest
      exact ih hrest ⟨rest, rfl⟩

/-- Calls that each simulate a call of the specification return what it returns. -/
theorem AllCalls.simulate {P : σ → ε → Prop} {D : ε → Prop} {R : σ → τ → Prop}
    (hstep : ∀ s t e, D e → R s t → P s e → ∃ s', call s e = some (s', (spec t e).2) ∧ R s' (spec t e).1)
    {s : σ} {t : τ} {events : List ε} (hinit : R s t) (hevents : ∀ e ∈ events, D e) (h : AllCalls call P s events) :
    ∃ s', exec call s events = some (s', (respond spec t events).2) ∧ R s' (respond spec t events).1 := by
  induction events generalizing s t with
  | nil => exact ⟨s, rfl, hinit⟩
  | cons e events ih =>
    obtain ⟨hfirst, hrest⟩ := h
    obtain ⟨s₁, hcall, hrelated⟩ := hstep s t e (hevents e (by simp)) hinit hfirst
    rw [hcall] at hrest
    obtain ⟨s₂, hexec, hrelated'⟩ := ih hrelated (fun e he => hevents e (by simp [he])) hrest
    refine ⟨s₂, ?_, hrelated'⟩
    rw [exec_cons hcall, hexec]
    rfl

/-- Calls related step by step return the same. -/
theorem respond_simulate {call : σ → ε → σ × ρ} {spec : τ → ε → τ × ρ} {R : σ → τ → Prop}
    (hstep : ∀ s t e, R s t → R (call s e).1 (spec t e).1 ∧ (call s e).2 = (spec t e).2) {s : σ} {t : τ}
    (events : List ε) (hinit : R s t) :
    R (respond call s events).1 (respond spec t events).1 ∧
      (respond call s events).2 = (respond spec t events).2 := by
  induction events generalizing s t with
  | nil => exact ⟨hinit, rfl⟩
  | cons e events ih =>
    obtain ⟨hrelated, hresult⟩ := hstep s t e hinit
    obtain ⟨hfinal, hresults⟩ := ih hrelated
    exact ⟨hfinal, congrArg₂ List.cons hresult hresults⟩

/-- Two sequences of calls return the same exactly if each call does after those before it. -/
theorem respond_eq_iff {call : σ → ε → σ × ρ} {spec : τ → ε → τ × ρ} {s : σ} {t : τ} {events : List ε} :
    (respond call s events).2 = (respond spec t events).2 ↔ ∀ past e, past ++ [e] <+: events →
      (call (respond call s past).1 e).2 = (spec (respond spec t past).1 e).2 := by
  induction events generalizing s t with
  | nil => exact iff_of_true rfl fun past e h => by simp at h
  | cons e events ih =>
    have hcons : (respond call s (e :: events)).2 = (respond spec t (e :: events)).2 ↔
        (call s e).2 = (spec t e).2 ∧
          (respond call (call s e).1 events).2 = (respond spec (spec t e).1 events).2 := List.cons_eq_cons
    rw [hcons, ih]
    constructor
    · rintro ⟨hfirst, hrest⟩ past e' hprefix
      cases past with
      | nil =>
        obtain ⟨rfl, -⟩ := List.cons_prefix_cons.mp hprefix
        exact hfirst
      | cons first past =>
        obtain ⟨rfl, hlater⟩ := List.cons_prefix_cons.mp hprefix
        exact hrest past e' hlater
    · intro hall
      exact ⟨hall [] e (by simp), fun past e' hprefix => hall (e :: past) e' (List.cons_prefix_cons.mpr ⟨rfl, hprefix⟩)⟩

end Calls

end clib.run
