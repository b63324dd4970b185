import Mathlib.Algebra.BigOperators.Ring.Finset
import CSystems.Lib.BoundedBuffer

namespace clib.condition

/-! Condition variables, for threads given as a map to how far each of them is. -/

section Count

variable {θ β : Type} [Fintype θ] {p : β → Bool} {f : θ → β}

/-- The number of threads that are at a certain point. -/
def count (p : β → Bool) (f : θ → β) : Int := (Finset.univ.filter fun t => p (f t) = true).card

theorem count_eq_sum (p : β → Bool) (f : θ → β) : count p f = ∑ t, if p (f t) = true then 1 else 0 := by
  exact Finset.natCast_card_filter _ _

theorem count_nonneg (p : β → Bool) (f : θ → β) : 0 ≤ count p f := Int.natCast_nonneg _

theorem count_pos_iff : 0 < count p f ↔ ∃ t, p (f t) = true := by
  rw [count, Int.natCast_pos, Finset.card_pos, Finset.filter_nonempty_iff]
  simp

theorem count_eq_card (h : ∀ t, p (f t) = true) : count p f = Fintype.card θ := by
  rw [count, Finset.filter_true_of_mem fun t _ => h t, Finset.card_univ]

theorem count_lt_card {t : θ} (h : p (f t) = false) : count p f < Fintype.card θ := by
  have hstrict : (Finset.univ.filter fun t => p (f t) = true) ⊂ Finset.univ := by
    rw [Finset.filter_ssubset]
    exact ⟨t, Finset.mem_univ t, by simp [h]⟩
  have hlt := Finset.card_lt_card hstrict
  rw [Finset.card_univ] at hlt
  exact Int.ofNat_lt.mpr hlt

theorem count_congr {g : θ → β} (h : ∀ t, p (f t) = p (g t)) : count p f = count p g := by
  unfold count
  simp only [h]

/-- A thread that moves on leaves one point and comes to another. -/
theorem count_update [DecidableEq θ] (p : β → Bool) (f : θ → β) (t : θ) (a : β) :
    count p (Function.update f t a) =
      count p f - (if p (f t) = true then 1 else 0) + (if p a = true then 1 else 0) := by
  rw [count_eq_sum, count_eq_sum]
  exact clib.bounded_buffer.sum_update (fun b => if p b = true then 1 else 0) f t a

end Count

section Wake

variable {θ β : Type} {sleeps : β → Bool} {wake : β → β} {f g : θ → β}

/-- Some threads stop sleeping. -/
def wake_up [DecidableEq θ] (wake : β → β) (woken : Finset θ) (f : θ → β) (t : θ) : β :=
  if t ∈ woken then wake (f t) else f t

/-- A signal wakes at least one of the threads that sleep, if there is any. -/
def signal [Fintype θ] [DecidableEq θ] (sleeps : β → Bool) (wake : β → β) (woken : Finset θ) (f : θ → β) :
    Option (θ → β) :=
  if (∀ t ∈ woken, sleeps (f t) = true) ∧ (woken.Nonempty ∨ ∀ t, sleeps (f t) = false) then
    some (wake_up wake woken f)
  else none

/-- A broadcast wakes every thread that sleeps. -/
def broadcast (sleeps : β → Bool) (wake : β → β) (f : θ → β) (t : θ) : β :=
  if sleeps (f t) = true then wake (f t) else f t

/-- `g` comes from `f` by waking threads that sleep. -/
def Wakes (sleeps : β → Bool) (wake : β → β) (f g : θ → β) : Prop :=
  ∀ t, g t = f t ∨ (sleeps (f t) = true ∧ g t = wake (f t))

theorem wakes_of_broadcast : Wakes sleeps wake f (broadcast sleeps wake f) := by
  intro t
  unfold broadcast
  split
  · exact Or.inr ⟨by assumption, rfl⟩
  · exact Or.inl rfl

/-- What a thread keeps when it is woken is counted as before. -/
theorem Wakes.count_eq [Fintype θ] (h : Wakes sleeps wake f g) {p : β → Bool}
    (hp : ∀ b, sleeps b = true → p (wake b) = p b) : count p g = count p f := by
  apply count_congr
  intro t
  obtain heq | ⟨hsleeps, heq⟩ := h t
  · rw [heq]
  · rw [heq, hp _ hsleeps]

variable [Fintype θ] [DecidableEq θ] {woken : Finset θ}

theorem wakes_of_signal (h : signal sleeps wake woken f = some g) : Wakes sleeps wake f g := by
  unfold signal at h
  split at h
  case isTrue hwoken =>
    obtain rfl := Option.some.inj h
    intro t
    unfold wake_up
    split
    · exact Or.inr ⟨hwoken.1 t (by assumption), rfl⟩
    · exact Or.inl rfl
  case isFalse => cases h

/-- After a signal a thread has been woken, or none slept. -/
theorem signal_wakes (h : signal sleeps wake woken f = some g) :
    (∃ t, sleeps (f t) = true ∧ g t = wake (f t)) ∨ ∀ t, sleeps (f t) = false := by
  unfold signal at h
  split at h
  case isTrue hwoken =>
    obtain rfl := Option.some.inj h
    obtain ⟨t, ht⟩ | hnone := hwoken.2
    · exact Or.inl ⟨t, hwoken.1 t ht, if_pos ht⟩
    · exact Or.inr hnone
  case isFalse => cases h

end Wake

end clib.condition
