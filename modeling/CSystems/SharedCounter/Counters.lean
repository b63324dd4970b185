import Mathlib.Algebra.BigOperators.Fin
import Mathlib.Data.Fintype.BigOperators
import Mathlib.Tactic.Ring
import CSystems.Lib.BoundedBuffer
import CSystems.Lib.Bytes
import CSystems.Lib.Run

open clib.bounded_buffer clib.cint clib.run

namespace csystems.shared_counter

/-- The numbers that the user enters, after the checks of `main`. -/
structure config where
  num_workers : Nat
  increments : Nat

/-- Where a worker is; `j` counts the increments it has completed. -/
inductive point_t where
  /-- Not forked, or not yet. -/
  | absent
  | loop (j : Nat)
  /-- It has the semaphore, inside the increment of the shared total. -/
  | locked (j : Nat)
  | loaded (j : Nat) (total : Int)
  | stored (j : Nat)
  | exited
  /-- `wait` has returned it. -/
  | reaped
  deriving DecidableEq

/-- Where `main` is: how many calls of `fork` or of `wait` it has made. -/
inductive main_t where
  | fork (i : Nat)
  | wait (i : Nat)
  | printed (total : Int)
  deriving DecidableEq

structure state (c : config) where
  semaphore : Nat
  shared_total : Int
  point : Fin c.num_workers → point_t
  main : main_t

variable {c : config}

def start (c : config) : state c where
  semaphore := 1
  shared_total := 0
  point _ := .absent
  main := .fork 0

def state.goto (s : state c) (i : Fin c.num_workers) (p : point_t) : state c :=
  { s with point := Function.update s.point i p }

/-- Whose turn it is: `main` with the outcome of `fork`, with the child that `wait`
returns or without either, or a worker. -/
inductive action_t (c : config) where
  | fork (ok : Bool)
  | reap (i : Fin c.num_workers)
  | main
  | run (i : Fin c.num_workers)

/-- The next step of a worker. -/
def worker (s : state c) (i : Fin c.num_workers) : Option (state c) :=
  match s.point i with
  | .absent | .exited | .reaped => none
  | .loop j =>
    if j < c.increments then
      -- `lock`
      if 0 < s.semaphore then some ({ s with semaphore := s.semaphore - 1 }.goto i (.locked j)) else none
    else some (s.goto i .exited)
  | .locked j => some (s.goto i (.loaded j s.shared_total))
  | .loaded j total => do
    let total ← int (total + 1)
    some ({ s with shared_total := total }.goto i (.stored j))
  | .stored j => some ({ s with semaphore := s.semaphore + 1 }.goto i (.loop (j + 1)))

def step (s : state c) : action_t c → Option (state c)
  | .fork ok =>
    match s.main with
    | .fork i =>
      if h : i < c.num_workers then
        let s := { s with main := .fork (i + 1) }
        -- the result of `fork` is only compared with zero
        some (if ok then s.goto ⟨i, h⟩ (.loop 0) else s)
      else none
    | _ => none
  | .reap i =>
    match s.main with
    | .wait k =>
      if k < c.num_workers ∧ s.point i = .exited then some ({ s with main := .wait (k + 1) }.goto i .reaped) else none
    | _ => none
  | .main =>
    match s.main with
    | .fork i => if i < c.num_workers then none else some { s with main := .wait 0 }
    | .wait k =>
      if k < c.num_workers then
        -- `wait` fails at once where there is no child left
        if ∀ i, s.point i = .absent ∨ s.point i = .reaped then some { s with main := .wait (k + 1) } else none
      else some { s with main := .printed s.shared_total }
    | .printed _ => none
  | .run i => worker s i

/-- What a step can do. -/
inductive Move (s : state c) : state c → Prop where
  | forked (i : Fin c.num_workers) (hmain : s.main = .fork i.val) :
    Move s ({ s with main := .fork (i.val + 1) }.goto i (.loop 0))
  | unforked (i : Fin c.num_workers) (hmain : s.main = .fork i.val) : Move s { s with main := .fork (i.val + 1) }
  | forks_done {i : Nat} (hmain : s.main = .fork i) (hi : c.num_workers ≤ i) : Move s { s with main := .wait 0 }
  | reaped {k : Nat} (i : Fin c.num_workers) (hmain : s.main = .wait k) (hk : k < c.num_workers)
    (hpoint : s.point i = .exited) : Move s ({ s with main := .wait (k + 1) }.goto i .reaped)
  | childless {k : Nat} (hmain : s.main = .wait k) (hk : k < c.num_workers)
    (hnone : ∀ i, s.point i = .absent ∨ s.point i = .reaped) : Move s { s with main := .wait (k + 1) }
  | print {k : Nat} (hmain : s.main = .wait k) (hk : c.num_workers ≤ k) :
    Move s { s with main := .printed s.shared_total }
  | exit {i : Fin c.num_workers} {j : Nat} (hpoint : s.point i = .loop j) (hj : c.increments ≤ j) :
    Move s (s.goto i .exited)
  | acquire {i : Fin c.num_workers} {j : Nat} (hpoint : s.point i = .loop j) (hj : j < c.increments)
    (hsem : 0 < s.semaphore) : Move s ({ s with semaphore := s.semaphore - 1 }.goto i (.locked j))
  | load {i : Fin c.num_workers} {j : Nat} (hpoint : s.point i = .locked j) :
    Move s (s.goto i (.loaded j s.shared_total))
  | store {i : Fin c.num_workers} {j : Nat} {total : Int} (hpoint : s.point i = .loaded j total)
    (hint : int (total + 1) = some (total + 1)) : Move s ({ s with shared_total := total + 1 }.goto i (.stored j))
  | release {i : Fin c.num_workers} {j : Nat} (hpoint : s.point i = .stored j) :
    Move s ({ s with semaphore := s.semaphore + 1 }.goto i (.loop (j + 1)))

theorem worker_move {s s' : state c} {i : Fin c.num_workers} (hstep : worker s i = some s') : Move s s' := by
  unfold worker at hstep
  split at hstep
  · cases hstep
  · cases hstep
  · cases hstep
  · next j hpoint =>
    split at hstep
    · next hj =>
      obtain ⟨hsem, hsome⟩ := Option.ite_none_right_eq_some.mp hstep
      obtain rfl := Option.some.inj hsome
      exact .acquire hpoint hj hsem
    · next hj =>
      obtain rfl := Option.some.inj hstep
      exact .exit hpoint (Nat.le_of_not_lt hj)
  · next j hpoint =>
    obtain rfl := Option.some.inj hstep
    exact .load hpoint
  · next j total hpoint =>
    obtain ⟨value, hint, hsome⟩ := Option.bind_eq_some_iff.mp hstep
    obtain ⟨-, rfl⟩ := int_eq_some.mp hint
    obtain rfl := Option.some.inj hsome
    exact .store hpoint hint
  · next j hpoint =>
    obtain rfl := Option.some.inj hstep
    exact .release hpoint

theorem step_move {s s' : state c} {a : action_t c} (hstep : step s a = some s') : Move s s' := by
  cases a with
  | fork ok =>
    simp only [step] at hstep
    split at hstep
    · next i hmain =>
      split at hstep
      · next hi =>
        obtain rfl := Option.some.inj hstep
        cases ok with
        | true => exact .forked ⟨i, hi⟩ hmain
        | false => exact .unforked ⟨i, hi⟩ hmain
      · cases hstep
    · cases hstep
  | reap i =>
    simp only [step] at hstep
    split at hstep
    · next k hmain =>
      obtain ⟨⟨hk, hpoint⟩, hsome⟩ := Option.ite_none_right_eq_some.mp hstep
      obtain rfl := Option.some.inj hsome
      exact .reaped i hmain hk hpoint
    · cases hstep
  | main =>
    simp only [step] at hstep
    split at hstep
    · next i hmain =>
      obtain ⟨hi, hsome⟩ := Option.ite_none_left_eq_some.mp hstep
      obtain rfl := Option.some.inj hsome
      exact .forks_done hmain (Nat.le_of_not_lt hi)
    · next k hmain =>
      split at hstep
      · next hk =>
        obtain ⟨hnone, hsome⟩ := Option.ite_none_right_eq_some.mp hstep
        obtain rfl := Option.some.inj hsome
        exact .childless hmain hk hnone
      · next hk =>
        obtain rfl := Option.some.inj hstep
        exact .print hmain (Nat.le_of_not_lt hk)
    · cases hstep
  | run i => exact worker_move hstep

section Invariant

/-- The increments of the worker that the shared total has. -/
def point_t.done (increments : Nat) : point_t → Nat
  | .absent => 0
  | .loop j | .locked j | .loaded j _ => j
  | .stored j => j + 1
  | .exited | .reaped => increments

/-- Whether the worker has the semaphore. -/
def point_t.held : point_t → Nat
  | .locked _ | .loaded _ _ | .stored _ => 1
  | .absent | .loop _ | .exited | .reaped => 0

/-- Whether `wait` has still to return the worker. -/
def point_t.child : point_t → Nat
  | .absent | .reaped => 0
  | _ => 1

def point_t.Bounded (increments : Nat) : point_t → Prop
  | .loop j => j ≤ increments
  | .locked j | .loaded j _ | .stored j => j < increments
  | _ => True

/-- How `main` stands to its children. -/
def main_t.Follows (s : state c) : main_t → Prop
  | .fork k => ∀ i : Fin c.num_workers, k ≤ i.val → s.point i = .absent
  | .wait k => ∑ i, (s.point i).child + k ≤ c.num_workers
  | .printed total => (∀ i, (s.point i).child = 0) ∧ total = s.shared_total

/-- What holds in every state the program reaches. -/
structure Inv (s : state c) : Prop where
  total : s.shared_total = ((∑ i, (s.point i).done c.increments : Nat) : Int)
  semaphore : s.semaphore + ∑ i, (s.point i).held = 1
  bounded : ∀ i, (s.point i).Bounded c.increments
  loaded : ∀ i j total, s.point i = .loaded j total → total = s.shared_total
  fits : s.shared_total ≤ 2147483647
  main : s.main.Follows s

variable {s s' : state c} {i : Fin c.num_workers}

theorem sum_goto (g : point_t → Nat) (s : state c) (i : Fin c.num_workers) (p : point_t) :
    ∑ u, g ((s.goto i p).point u) + g (s.point i) = ∑ u, g (s.point u) + g p := by
  have hmap : (fun u => g ((s.goto i p).point u)) = Function.update (fun u => g (s.point u)) i (g p) :=
    funext fun u => Function.apply_update (fun _ => g) s.point i p u
  rw [hmap]
  exact total_update (fun u => g (s.point u)) i (g p)

theorem goto_of_ne {u : Fin c.num_workers} (hu : u ≠ i) (p : point_t) : (s.goto i p).point u = s.point u :=
  Function.update_of_ne hu ..

/-- Two workers do not have the semaphore at once. -/
theorem Inv.holder_unique (h : Inv s) {u : Fin c.num_workers} (hi : (s.point i).held = 1) (hu : (s.point u).held = 1) :
    u = i := by
  by_contra hne
  have hpair : ∑ v ∈ ({i, u} : Finset _), (s.point v).held ≤ ∑ v, (s.point v).held :=
    Finset.sum_le_sum_of_subset (Finset.subset_univ _)
  rw [Finset.sum_pair (Ne.symm hne), hi, hu] at hpair
  have hsemaphore := h.semaphore
  omega

theorem start_inv (c : config) : Inv (start c) where
  total := by simp [start, point_t.done]
  semaphore := by simp [start, point_t.held]
  bounded _ := trivial
  loaded i j total h := by cases h
  fits := (by decide : (0 : Int) ≤ 2147483647)
  main _ _ := rfl

/-- One worker goes on: what it adds to the total and to the semaphore it has in its place
in the program, and the total changes only where it has the semaphore. -/
theorem Inv.goto (h : Inv s) {p : point_t} (hpoint : s'.point = (s.goto i p).point)
    (htotal : s'.shared_total + (s.point i).done c.increments = s.shared_total + p.done c.increments)
    (hsemaphore : s'.semaphore + p.held = s.semaphore + (s.point i).held) (hbounded : p.Bounded c.increments)
    (hloaded : ∀ j total, p = .loaded j total → total = s'.shared_total)
    (hothers : s'.shared_total = s.shared_total ∨ (s.point i).held = 1) (hfits : s'.shared_total ≤ 2147483647)
    (hmain : s'.main.Follows s') : Inv s' := by
  have hdone := sum_goto (point_t.done c.increments) s i p
  have hheld := sum_goto point_t.held s i p
  have hold := h.total
  have hone := h.semaphore
  refine ⟨?_, ?_, ?_, ?_, hfits, hmain⟩
  · rw [hpoint]
    omega
  · rw [hpoint]
    omega
  · rw [hpoint]
    exact forall_update h.bounded hbounded
  · intro u j total hu
    rw [hpoint] at hu
    by_cases hne : u = i
    · subst hne
      have hself : (s.goto u p).point u = p := Function.update_self ..
      exact hloaded j total (hself.symm.trans hu)
    · rw [goto_of_ne hne] at hu
      obtain hkept | hholds := hothers
      · rw [hkept]
        exact h.loaded u j total hu
      · -- no other worker is between its load and its store
        exact absurd (h.holder_unique hholds (by rw [hu]; rfl)) hne

theorem Inv.set_main (h : Inv s) {main : main_t} (hmain : main.Follows { s with main := main }) :
    Inv { s with main := main } :=
  ⟨h.total, h.semaphore, h.bounded, h.loaded, h.fits, hmain⟩

/-- `main` stands to a worker that runs as it did. -/
theorem Inv.follows_goto (h : Inv s) {p : point_t} (hp : p.child = 1) (hpoint : (s.point i).child = 1) {s₁ : state c}
    (hmain₁ : s₁.main = s.main) (hpoint₁ : s₁.point = (s.goto i p).point) : s₁.main.Follows s₁ := by
  have hfollows := h.main
  have hsum := sum_goto point_t.child s i p
  rw [hmain₁]
  cases hcases : s.main with
  | fork k =>
    rw [hcases] at hfollows
    intro u hu
    have hold := hfollows u hu
    have hne : u ≠ i := by
      rintro rfl
      rw [hold] at hpoint
      cases hpoint
    rw [hpoint₁, goto_of_ne hne, hold]
  | wait k =>
    rw [hcases] at hfollows
    simp only [main_t.Follows, hpoint₁] at hfollows ⊢
    omega
  | printed total =>
    rw [hcases] at hfollows
    have hzero := hfollows.1 i
    omega

theorem Inv.move (h : Inv s) (hmove : Move s s') : Inv s' := by
  have hfollows := h.main
  have hfits := h.fits
  cases hmove with
  | forked i hmain =>
    rw [hmain] at hfollows
    have habsent := hfollows i (Nat.le_refl _)
    refine h.goto rfl (by rw [habsent]; rfl) (by rw [habsent]; rfl) (Nat.zero_le _) (by simp) (Or.inl rfl) hfits
      fun u hu => ?_
    have hne : u ≠ i := by
      rintro rfl
      omega
    exact (goto_of_ne hne _).trans (hfollows u (by omega))
  | unforked i hmain =>
    rw [hmain] at hfollows
    exact h.set_main fun u hu => hfollows u (by omega)
  | forks_done hmain hi =>
    refine h.set_main ?_
    have hle : ∑ u, (s.point u).child ≤ ∑ _u : Fin c.num_workers, 1 :=
      Finset.sum_le_sum fun u _ => by cases s.point u <;> simp [point_t.child]
    simpa [main_t.Follows] using hle
  | @reaped k i hmain hk hpoint =>
    rw [hmain] at hfollows
    have hsum := sum_goto point_t.child s i .reaped
    refine h.goto rfl (by rw [hpoint]; rfl) (by rw [hpoint]; rfl) (by trivial) (by simp) (Or.inl rfl) hfits ?_
    rw [hpoint] at hsum
    change ∑ u, ((s.goto i .reaped).point u).child + 1 = ∑ u, (s.point u).child + 0 at hsum
    change ∑ u, ((s.goto i .reaped).point u).child + (k + 1) ≤ c.num_workers
    change ∑ u, (s.point u).child + k ≤ c.num_workers at hfollows
    omega
  | @childless k hmain hk hnone =>
    refine h.set_main ?_
    have hzero : ∑ u, (s.point u).child = 0 := by
      refine Finset.sum_eq_zero fun u _ => ?_
      obtain hu | hu := hnone u <;> rw [hu] <;> rfl
    change ∑ u, (s.point u).child + (k + 1) ≤ c.num_workers
    omega
  | @print k hmain hk =>
    rw [hmain] at hfollows
    change ∑ u, (s.point u).child + k ≤ c.num_workers at hfollows
    refine h.set_main ⟨fun u => ?_, rfl⟩
    have hle : (s.point u).child ≤ ∑ u, (s.point u).child :=
      Finset.single_le_sum (f := fun u => (s.point u).child) (fun _ _ => Nat.zero_le _) (Finset.mem_univ u)
    change (s.point u).child = 0
    omega
  | @exit i j hpoint hj =>
    have hbounded := h.bounded i
    rw [hpoint] at hbounded
    obtain rfl : j = c.increments := Nat.le_antisymm hbounded hj
    exact h.goto rfl (by rw [hpoint]; rfl) (by rw [hpoint]; rfl) (by trivial) (by simp) (Or.inl rfl) hfits
      (h.follows_goto rfl (by rw [hpoint]; rfl) rfl rfl)
  | @acquire i j hpoint hj hsem =>
    refine h.goto rfl (by rw [hpoint]; rfl) ?_ hj (by simp) (Or.inl rfl) hfits
      (h.follows_goto rfl (by rw [hpoint]; rfl) rfl rfl)
    rw [hpoint]
    exact Nat.sub_add_cancel hsem
  | @load i j hpoint =>
    have hbounded := h.bounded i
    rw [hpoint] at hbounded
    exact h.goto rfl (by rw [hpoint]; rfl) (by rw [hpoint]; rfl) hbounded
      (fun j' total heq => (point_t.loaded.inj heq).2.symm) (Or.inl rfl) hfits
      (h.follows_goto rfl (by rw [hpoint]; rfl) rfl rfl)
  | @store i j total hpoint hint =>
    have hbounded := h.bounded i
    have hvalue := h.loaded i j total hpoint
    obtain ⟨⟨-, hstored⟩, -⟩ := int_eq_some.mp hint
    rw [hpoint] at hbounded
    refine h.goto rfl ?_ (by rw [hpoint]; rfl) hbounded (by simp) (Or.inr (by rw [hpoint]; rfl)) hstored
      (h.follows_goto rfl (by rw [hpoint]; rfl) rfl rfl)
    rw [hpoint, hvalue]
    change s.shared_total + 1 + (j : Int) = s.shared_total + ((j + 1 : Nat) : Int)
    omega
  | @release i j hpoint =>
    have hbounded := h.bounded i
    rw [hpoint] at hbounded
    exact h.goto rfl (by rw [hpoint]; rfl) (by rw [hpoint]; rfl) hbounded (by simp) (Or.inl rfl) hfits
      (h.follows_goto rfl (by rw [hpoint]; rfl) rfl rfl)

theorem reachable_inv (h : Reachable step (start c) s) : Inv s :=
  h.invariant (start_inv c) fun _ _ _ hinv hstep => hinv.move (step_move hstep)

end Invariant

section Progress

variable {s s' : state c} {i : Fin c.num_workers}

/-- A worker is about to store a value that is no `int`. -/
def Undefined (s : state c) : Prop := ∃ i j total, s.point i = .loaded j total ∧ int (total + 1) = none

/-- The workers that were forked. -/
def forked (s : state c) : Finset (Fin c.num_workers) := Finset.univ.filter fun i => s.point i ≠ .absent

/-- The steps that a worker has still to take, at most. -/
def point_t.weight (increments : Nat) : point_t → Nat
  | .absent => 4 * increments + 2
  | .loop j => 4 * (increments - j) + 2
  | .locked j => 4 * (increments - j) + 1
  | .loaded j _ => 4 * (increments - j)
  | .stored j => 4 * (increments - j) - 1
  | .exited => 1
  | .reaped => 0

def main_t.weight (num_workers : Nat) : main_t → Nat
  | .fork i => num_workers - i + (num_workers + 2)
  | .wait i => num_workers + 1 - i
  | .printed _ => 0

def state.weight (s : state c) : Nat := s.main.weight c.num_workers + ∑ i, (s.point i).weight c.increments

theorem weight_goto {p : point_t} (hpoint : s'.point = (s.goto i p).point)
    (hless : s'.main.weight c.num_workers + p.weight c.increments <
      s.main.weight c.num_workers + (s.point i).weight c.increments) : s'.weight < s.weight := by
  have hsum := sum_goto (point_t.weight c.increments) s i p
  unfold state.weight
  rw [hpoint]
  omega

/-- Every step uses up some of what is left to do. -/
theorem Move.weight_lt (hmove : Move s s') (hinv : Inv s) : s'.weight < s.weight := by
  have hfollows := hinv.main
  cases hmove with
  | forked i hmain =>
    rw [hmain] at hfollows
    refine weight_goto rfl ?_
    have hi := i.isLt
    rw [hmain, hfollows i (Nat.le_refl _)]
    simp only [state.goto, main_t.weight, point_t.weight]
    omega
  | unforked i hmain =>
    have hi := i.isLt
    simp only [state.weight, hmain, main_t.weight]
    omega
  | @forks_done k hmain hk =>
    simp only [state.weight, hmain, main_t.weight]
    omega
  | @reaped k i hmain hk hpoint =>
    refine weight_goto rfl ?_
    rw [hmain, hpoint]
    simp only [state.goto, main_t.weight, point_t.weight]
    omega
  | @childless k hmain hk hnone =>
    simp only [state.weight, hmain, main_t.weight]
    omega
  | @print k hmain hk =>
    rw [hmain] at hfollows
    change ∑ u, (s.point u).child + k ≤ c.num_workers at hfollows
    simp only [state.weight, hmain, main_t.weight]
    omega
  | @exit i j hpoint hj =>
    refine weight_goto rfl ?_
    rw [hpoint]
    simp only [state.goto, point_t.weight]
    omega
  | @acquire i j hpoint hj hsem =>
    refine weight_goto rfl ?_
    rw [hpoint]
    simp only [state.goto, point_t.weight]
    omega
  | @load i j hpoint =>
    refine weight_goto rfl ?_
    rw [hpoint]
    simp only [state.goto, point_t.weight]
    omega
  | @store i j total hpoint hint =>
    have hbounded := hinv.bounded i
    rw [hpoint] at hbounded
    change j < c.increments at hbounded
    refine weight_goto rfl ?_
    rw [hpoint]
    simp only [state.goto, point_t.weight]
    omega
  | @release i j hpoint =>
    have hbounded := hinv.bounded i
    rw [hpoint] at hbounded
    change j < c.increments at hbounded
    refine weight_goto rfl ?_
    rw [hpoint]
    simp only [state.goto, point_t.weight]
    omega

/-- The program goes on until it has printed, unless the total overflows. -/
theorem Inv.progress (h : Inv s) :
    (∃ a, a ≠ .fork false ∧ step s a ≠ none) ∨ Undefined s ∨ ∃ total, s.main = .printed total := by
  have hfollows := h.main
  cases hmain : s.main with
  | printed total => exact Or.inr (Or.inr ⟨total, rfl⟩)
  | fork k =>
    refine Or.inl ?_
    by_cases hk : k < c.num_workers
    · exact ⟨.fork true, by simp, by simp [step, hmain, hk]⟩
    · exact ⟨.main, by simp, by simp [step, hmain, hk]⟩
  | wait k =>
    by_cases hk : k < c.num_workers
    · by_cases hnone : ∀ i, s.point i = .absent ∨ s.point i = .reaped
      · exact Or.inl ⟨.main, by simp, by simp [step, hmain, hk, hnone]⟩
      · by_cases hholder : ∃ i, (s.point i).held = 1
        · obtain ⟨i, hi⟩ := hholder
          cases hpoint : s.point i with
          | locked j => exact Or.inl ⟨.run i, by simp, by simp [step, worker, hpoint]⟩
          | loaded j total =>
            cases hint : int (total + 1) with
            | none => exact Or.inr (Or.inl ⟨i, j, total, hpoint, hint⟩)
            | some value => exact Or.inl ⟨.run i, by simp, by simp [step, worker, hpoint, hint]⟩
          | stored j => exact Or.inl ⟨.run i, by simp, by simp [step, worker, hpoint]⟩
          | _ =>
            rw [hpoint] at hi
            cases hi
        · -- nobody has the semaphore, so a child that has not exited may take it
          have hzero : ∑ i, (s.point i).held = 0 := by
            refine Finset.sum_eq_zero fun i _ => ?_
            by_contra hne
            refine hholder ⟨i, ?_⟩
            cases hpoint : s.point i <;> rw [hpoint] at hne <;> first | rfl | exact absurd rfl hne
          have hsemaphore := h.semaphore
          rw [hzero, Nat.add_zero] at hsemaphore
          push Not at hnone
          obtain ⟨i, habsent, hreaped⟩ := hnone
          refine Or.inl ?_
          cases hpoint : s.point i with
          | absent => exact absurd hpoint habsent
          | reaped => exact absurd hpoint hreaped
          | exited => exact ⟨.reap i, by simp, by simp [step, hmain, hk, hpoint]⟩
          | loop j =>
            refine ⟨.run i, by simp, ?_⟩
            by_cases hj : j < c.increments
            · simp [step, worker, hpoint, hj, hsemaphore]
            · simp [step, worker, hpoint, hj]
          | _ =>
            refine absurd ⟨i, ?_⟩ hholder
            rw [hpoint]
            rfl
    · exact Or.inl ⟨.main, by simp, by simp [step, hmain, hk]⟩

/-- What is printed is the total of the workers that were forked. -/
theorem Inv.printed_eq (h : Inv s) {total : Int} (hmain : s.main = .printed total) :
    total = (forked s).card * c.increments := by
  have hfollows := h.main
  rw [hmain] at hfollows
  obtain ⟨hchildren, rfl⟩ := hfollows
  have hdone (i : Fin c.num_workers) :
      (s.point i).done c.increments = if s.point i ≠ .absent then c.increments else 0 := by
    have hchild := hchildren i
    cases hpoint : s.point i <;> rw [hpoint] at hchild <;> first | rfl | cases hchild
  rw [h.total, Finset.sum_congr rfl fun i _ => hdone i, ← Finset.sum_filter, Finset.sum_const, smul_eq_mul,
    Nat.cast_mul]
  rfl

/-- In every interleaving, with whatever calls of `fork` fail: the printed total is the
increments of all workers that were forked, the run is no longer than their steps, and
it only ends by printing or where the total overflows. -/
theorem counters_total {actions : List (action_t c)} (hsteps : steps step (start c) actions = some s) :
    (∀ total, s.main = .printed total → total = (forked s).card * c.increments) ∧
      actions.length ≤ c.num_workers * (4 * c.increments + 4) + 2 ∧
      ((∀ a, step s a = none) → Undefined s ∨ ∃ total, s.main = .printed total) := by
  have hinv : Inv s := reachable_inv (Reachable.start.steps hsteps)
  refine ⟨fun total hmain => hinv.printed_eq hmain, ?_, fun hend => ?_⟩
  · have hle : actions.length + s.weight ≤ (start c).weight + (actions.map fun _ => 0).sum :=
      steps_length_le (fun _ _ _ h hstep => h.move (step_move hstep))
        (fun _ _ _ h hstep => (step_move hstep).weight_lt h)
        (start_inv c) hsteps
    have hstart : (start c).weight = c.num_workers + (c.num_workers + 2) + c.num_workers * (4 * c.increments + 2) := by
      simp [state.weight, start, main_t.weight, point_t.weight]
    have hgain : (actions.map fun _ => 0).sum = 0 := by simp
    rw [hstart, hgain, Nat.add_zero] at hle
    have hexpand : c.num_workers * (4 * c.increments + 4) =
        c.num_workers * (4 * c.increments + 2) + 2 * c.num_workers := by
      ring
    omega
  · obtain ⟨a, -, ha⟩ | hend' := hinv.progress
    · exact absurd (hend a) ha
    · exact hend'

/-- The second call of `fork` fails, and the other two workers take turns. -/
def two_of_three (c : config) (i j : Fin c.num_workers) : List (action_t c) :=
  [.fork true, .fork false, .fork true, .main] ++ List.replicate 4 (.run i) ++ List.replicate 9 (.run j) ++
    List.replicate 5 (.run i) ++ [.reap j, .reap i, .main, .main]

theorem counters_total_two : ∃ s, steps step (start ⟨3, 2⟩) (two_of_three ⟨3, 2⟩ 0 2) = some s ∧ s.main = .printed 4 ∧
    (4 : Int) = (forked s).card * (2 : Nat) ∧ (two_of_three ⟨3, 2⟩ 0 2).length ≤ 3 * (4 * 2 + 4) + 2 := by
  obtain ⟨s, hsteps, hmain⟩ : ∃ s, steps step (start ⟨3, 2⟩) (two_of_three ⟨3, 2⟩ 0 2) = some s ∧ s.main = .printed 4 :=
    ⟨_, rfl, rfl⟩
  obtain ⟨htotal, hlength, -⟩ := counters_total hsteps
  exact ⟨s, hsteps, hmain, htotal 4 hmain, hlength⟩

/-- The steps of a run in which every call of `fork` succeeds. -/
def forking_step (s : state c) (a : action_t c) : Option (state c) :=
  match a with
  | .fork false => none
  | a => step s a

theorem step_of_forking {a : action_t c} (hstep : forking_step s a = some s') : step s a = some s' := by
  unfold forking_step at hstep
  split at hstep
  · cases hstep
  · exact hstep

theorem forking_of_ne {a : action_t c} (ha : a ≠ .fork false) : forking_step s a = step s a := by
  unfold forking_step
  split
  · exact absurd rfl ha
  · rfl

/-- Every worker before the next one is forked. -/
def Forking (s : state c) : Prop := ∀ i, s.point i = .absent → ∃ k, s.main = .fork k ∧ k ≤ i.val

theorem worker_goto (hstep : worker s i = some s') :
    s'.main = s.main ∧ ∃ p, p ≠ .absent ∧ s'.point = (s.goto i p).point := by
  unfold worker at hstep
  split at hstep
  · cases hstep
  · cases hstep
  · cases hstep
  · split at hstep
    · obtain ⟨-, hsome⟩ := Option.ite_none_right_eq_some.mp hstep
      obtain rfl := Option.some.inj hsome
      exact ⟨rfl, _, by simp, rfl⟩
    · obtain rfl := Option.some.inj hstep
      exact ⟨rfl, _, by simp, rfl⟩
  · obtain rfl := Option.some.inj hstep
    exact ⟨rfl, _, by simp, rfl⟩
  · obtain ⟨value, -, hsome⟩ := Option.bind_eq_some_iff.mp hstep
    obtain rfl := Option.some.inj hsome
    exact ⟨rfl, _, by simp, rfl⟩
  · obtain rfl := Option.some.inj hstep
    exact ⟨rfl, _, by simp, rfl⟩

/-- A worker that another one's step leaves absent was absent. -/
theorem absent_of_goto {p : point_t} (hp : p ≠ .absent) {u : Fin c.num_workers} (hu : (s.goto i p).point u = .absent) :
    u ≠ i ∧ s.point u = .absent := by
  by_cases hne : u = i
  · subst hne
    have hself : (s.goto u p).point u = p := Function.update_self ..
    exact absurd (hself.symm.trans hu) hp
  · exact ⟨hne, (goto_of_ne hne p).symm.trans hu⟩

theorem Forking.step {a : action_t c} (h : Forking s) (hstep : forking_step s a = some s') : Forking s' := by
  intro u hu
  cases a with
  | fork ok =>
    cases ok with
    | false => cases hstep
    | true =>
      simp only [forking_step, shared_counter.step] at hstep
      split at hstep
      · next k hmain =>
        split at hstep
        · next hk =>
          obtain rfl := Option.some.inj hstep
          obtain ⟨hne, habsent⟩ := absent_of_goto (by simp) hu
          obtain ⟨k', hmain', hle⟩ := h u habsent
          obtain rfl := main_t.fork.inj (hmain.symm.trans hmain')
          have hval : u.val ≠ k := fun heq => hne (Fin.ext heq)
          exact ⟨k + 1, rfl, by omega⟩
        · cases hstep
      · cases hstep
  | reap i =>
    simp only [forking_step, shared_counter.step] at hstep
    split at hstep
    · next k hmain =>
      obtain ⟨-, hsome⟩ := Option.ite_none_right_eq_some.mp hstep
      obtain rfl := Option.some.inj hsome
      obtain ⟨k', hmain', -⟩ := h u (absent_of_goto (by simp) hu).2
      exact absurd (hmain.symm.trans hmain') (by simp)
    · cases hstep
  | main =>
    simp only [forking_step, shared_counter.step] at hstep
    split at hstep
    · next k hmain =>
      obtain ⟨hk, hsome⟩ := Option.ite_none_left_eq_some.mp hstep
      obtain rfl := Option.some.inj hsome
      obtain ⟨k', hmain', hle⟩ := h u hu
      obtain rfl := main_t.fork.inj (hmain.symm.trans hmain')
      have hlt := u.isLt
      omega
    · next k hmain =>
      have habsent : s.point u = .absent := by
        split at hstep
        · obtain ⟨-, hsome⟩ := Option.ite_none_right_eq_some.mp hstep
          obtain rfl := Option.some.inj hsome
          exact hu
        · obtain rfl := Option.some.inj hstep
          exact hu
      obtain ⟨k', hmain', -⟩ := h u habsent
      exact absurd (hmain.symm.trans hmain') (by simp)
    · cases hstep
  | run i =>
    obtain ⟨hmain, p, hp, hpoint⟩ := worker_goto hstep
    rw [hpoint] at hu
    obtain ⟨k, hfork, hle⟩ := h u (absent_of_goto hp hu).2
    exact ⟨k, hmain.trans hfork, hle⟩

/-- No run overflows exactly if the increments of all workers are within an `int`. -/
theorem counters_defined_iff (c : config) :
    (∀ s, Reachable step (start c) s → ¬ Undefined s) ↔ c.num_workers * c.increments ≤ 2147483647 := by
  constructor
  · intro hdefined
    have hkeep (s s' : state c) (a : action_t c) (h : Inv s ∧ Forking s) (hstep : forking_step s a = some s') :
        Inv s' ∧ Forking s' := ⟨h.1.move (step_move (step_of_forking hstep)), h.2.step hstep⟩
    have hcost (s s' : state c) (a : action_t c) (h : Inv s ∧ Forking s) (_ : True)
        (hstep : forking_step s a = some s') :
        s'.weight < s.weight := (step_move (step_of_forking hstep)).weight_lt h.1
    have hstart : Inv (start c) ∧ Forking (start c) := ⟨start_inv c, fun i _ => ⟨0, rfl, Nat.zero_le _⟩⟩
    -- a run with all workers comes to its end, and prints their increments
    obtain ⟨s, hforking, hend⟩ := exists_final (P := fun _ => True) hkeep hcost .start hstart
    obtain ⟨hinv, hall⟩ := hforking.invariant hstart fun s s' a => hkeep s s' a
    have hreachable : Reachable step (start c) s := by
      clear hend hinv hall
      induction hforking with
      | start => exact .start
      | step a _ hstep ih => exact .step a ih (step_of_forking hstep)
    obtain ⟨a, ha, hsome⟩ | hundefined | ⟨total, hmain⟩ := hinv.progress
    · exact absurd ((forking_of_ne ha).symm.trans (hend a trivial)) hsome
    · exact absurd hundefined (hdefined s hreachable)
    · have hforked : forked s = Finset.univ := by
        refine Finset.filter_true_of_mem fun i _ habsent => ?_
        obtain ⟨k, hfork, -⟩ := hall i habsent
        exact absurd (hmain.symm.trans hfork) (by simp)
      have htotal := hinv.printed_eq hmain
      have hfollows := hinv.main
      have hfits := hinv.fits
      rw [hmain] at hfollows
      rw [hforked, Finset.card_univ, Fintype.card_fin, hfollows.2] at htotal
      rw [htotal] at hfits
      exact_mod_cast hfits
  · intro hfits s hreachable
    rintro ⟨i, j, total, hpoint, hnone⟩
    have hinv := reachable_inv hreachable
    have hvalue := hinv.loaded i j total hpoint
    have hle (u : Fin c.num_workers) : (s.point u).done c.increments ≤ c.increments := by
      have hbounded := hinv.bounded u
      cases hu : s.point u <;> rw [hu] at hbounded <;> simp only [point_t.done, point_t.Bounded] at hbounded ⊢ <;> omega
    have hlt : (s.point i).done c.increments < c.increments := by
      have hbounded := hinv.bounded i
      rw [hpoint] at hbounded ⊢
      exact hbounded
    have hsum : ∑ u, (s.point u).done c.increments < ∑ _u : Fin c.num_workers, c.increments :=
      Finset.sum_lt_sum (fun u _ => hle u) ⟨i, Finset.mem_univ i, hlt⟩
    rw [Finset.sum_const, Finset.card_univ, Fintype.card_fin, smul_eq_mul] at hsum
    have htotal := hinv.total
    rw [int_eq (by omega) (by omega)] at hnone
    cases hnone

end Progress

end csystems.shared_counter
