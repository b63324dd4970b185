import Mathlib.Algebra.BigOperators.Group.List.Basic
import Mathlib.Algebra.Order.BigOperators.Group.List
import Mathlib.Algebra.Order.Group.Nat
import Mathlib.Data.List.Sort
import Mathlib.Tactic.Ring

namespace clib.pair_count

variable {α : Type}

/-- How many pairs of positions hold related values, the first position being
the lower one. -/
def pairs (p : α → α → Bool) : List α → Nat
  | [] => 0
  | x :: xs => xs.countP (p x) + pairs p xs

/-- How many pairs of a value of `xs` and a value of `ys` are related. -/
def across (p : α → α → Bool) (xs ys : List α) : Nat := (xs.map fun x => ys.countP (p x)).sum

variable {p : α → α → Bool} {xs xs' ys ys' : List α} {q : α → Bool}

theorem across_cons (x : α) : across p (x :: xs) ys = ys.countP (p x) + across p xs ys := by
  rw [across, List.map_cons, List.sum_cons]
  rfl

theorem across_concat (x : α) : across p (xs ++ [x]) ys = across p xs ys + ys.countP (p x) := by
  rw [across, List.map_append, List.sum_append, List.map_singleton, List.sum_singleton]
  rfl

/-- A pair lies in the first part, in the second one or across. -/
theorem pairs_append : pairs p (xs ++ ys) = pairs p xs + pairs p ys + across p xs ys := by
  induction xs with
  | nil => simp [pairs, across]
  | cons x xs ih =>
    rw [List.cons_append, pairs, pairs, across_cons, List.countP_append, ih]
    ring

/-- Neither order matters to the pairs across. -/
theorem across_perm (hxs : xs.Perm xs') (hys : ys.Perm ys') : across p xs ys = across p xs' ys' := by
  have hcount : (fun x => ys.countP (p x)) = fun x => ys'.countP (p x) := funext fun x => hys.countP_eq (p x)
  rw [across, hcount]
  exact (hxs.map _).sum_eq

theorem across_le : across p xs ys ≤ xs.length * ys.length := by
  have hle := List.sum_le_card_nsmul (xs.map fun x => ys.countP (p x)) ys.length
    (by simpa using fun x _ => List.countP_le_length)
  rwa [List.length_map, nsmul_eq_mul, Nat.cast_id] at hle

theorem pairs_le : pairs p xs ≤ xs.length * xs.length := by
  induction xs with
  | nil => exact Nat.le_refl 0
  | cons x xs ih =>
    have hfirst : xs.countP (p x) ≤ xs.length := List.countP_le_length
    rw [pairs, List.length_cons]
    calc xs.countP (p x) + pairs p xs ≤ xs.length + xs.length * xs.length := Nat.add_le_add hfirst ih
      _ ≤ (xs.length + 1) * (xs.length + 1) := by ring_nf; omega

theorem drop_length_takeWhile (xs : List α) (q : α → Bool) : xs.drop (xs.takeWhile q).length = xs.dropWhile q := by
  have hsplit := congrArg (List.drop (xs.takeWhile q).length) (List.takeWhile_append_dropWhile (p := q) (l := xs))
  rw [List.drop_left] at hsplit
  exact hsplit.symm

section Sorted

variable {r : α → α → Prop}

theorem countP_eq_zero_of_head {y : α} (hy : ∀ z ∈ ys, r y z) (hq : ∀ a b, r a b → q b → q a) (hqy : ¬ q y) :
    ys.countP q = 0 := by
  rw [List.countP_eq_zero]
  intro z hz hqz
  exact hqy (hq y z (hy z hz) hqz)

/-- Below a bound lies a first part of a sorted list. -/
theorem length_takeWhile_eq_countP (hsorted : ys.Pairwise r) (hq : ∀ a b, r a b → q b → q a) :
    (ys.takeWhile q).length = ys.countP q := by
  induction ys with
  | nil => rfl
  | cons y ys ih =>
    obtain ⟨hy, hys⟩ := List.pairwise_cons.mp hsorted
    by_cases hqy : q y = true
    · rw [List.takeWhile_cons_of_pos hqy, List.countP_cons_of_pos hqy, List.length_cons, ih hys]
    · rw [List.takeWhile_cons_of_neg hqy, List.countP_cons_of_neg hqy, countP_eq_zero_of_head hy hq hqy,
        List.length_nil]

/-- The positions below a bound are those before its count. -/
theorem getElem_iff_lt_countP (hsorted : ys.Pairwise r) (hq : ∀ a b, r a b → q b → q a) {i : Nat}
    (hi : i < ys.length) : q ys[i] = true ↔ i < ys.countP q := by
  induction ys generalizing i with
  | nil => exact absurd hi (Nat.not_lt_zero i)
  | cons y ys ih =>
    obtain ⟨hy, hys⟩ := List.pairwise_cons.mp hsorted
    cases i with
    | zero =>
      rw [List.getElem_cons_zero]
      constructor
      · intro hqy
        rw [List.countP_cons_of_pos hqy]
        exact Nat.succ_pos _
      · intro hpos
        obtain ⟨z, hz, hqz⟩ := List.countP_pos_iff.mp hpos
        obtain rfl | hz := List.mem_cons.mp hz
        · exact hqz
        · exact hq y z (hy z hz) hqz
    | succ i =>
      rw [List.getElem_cons_succ, ih hys]
      by_cases hqy : q y = true
      · rw [List.countP_cons_of_pos hqy]
        omega
      · rw [List.countP_cons_of_neg hqy, countP_eq_zero_of_head hy hq hqy]
        omega

end Sorted

/-- A weaker condition that holds of one more value holds of more values. -/
theorem countP_lt_countP {q' : α → Bool} (himp : ∀ x ∈ xs, q x → q' x) {x : α} (hx : x ∈ xs) (hq' : q' x)
    (hq : ¬ q x) : xs.countP q < xs.countP q' := by
  induction xs with
  | nil => cases hx
  | cons y xs ih =>
    have hrest : ∀ z ∈ xs, q z → q' z := fun z hz => himp z (List.mem_cons_of_mem y hz)
    have hmono := List.countP_mono_left hrest
    rw [List.countP_cons, List.countP_cons]
    obtain rfl | hx := List.mem_cons.mp hx
    · rw [if_neg hq, if_pos hq']
      omega
    · have hlt := ih hrest hx
      by_cases hy : q y = true
      · rw [if_pos hy, if_pos (himp y List.mem_cons_self hy)]
        omega
      · rw [if_neg hy]
        omega

variable [LinearOrder α]

/-- A merge takes what is below the first value of the first list from the
second one, and then that value. -/
theorem merge_cons_eq (x : α) :
    (x :: xs).merge ys (fun a b => decide (a ≤ b)) =
      ys.takeWhile (fun y => decide (y < x)) ++
        x :: xs.merge (ys.dropWhile fun y => decide (y < x)) (fun a b => decide (a ≤ b)) := by
  induction ys with
  | nil => simp
  | cons y ys ih =>
    by_cases hlt : y < x
    · have hle : ¬ decide (x ≤ y) = true := by simpa using hlt
      rw [List.cons_merge_cons_neg _ _ _ hle, ih, List.takeWhile_cons, if_pos (decide_eq_true hlt),
        List.dropWhile_cons, if_pos (decide_eq_true hlt), List.cons_append]
    · have hle : decide (x ≤ y) = true := decide_eq_true (not_lt.mp hlt)
      rw [List.cons_merge_cons_pos _ _ _ hle, List.takeWhile_cons, if_neg (by simpa using hlt),
        List.dropWhile_cons, if_neg (by simpa using hlt), List.nil_append]

end clib.pair_count
