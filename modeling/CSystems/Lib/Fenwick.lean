import Mathlib.Algebra.BigOperators.Intervals
import Mathlib.Data.Nat.Bitwise

namespace clib.fenwick

/-- The largest power of two that divides `n`. -/
def lowbit (n : Nat) : Nat :=
  if n = 0 then 0 else if n % 2 = 1 then 1 else 2 * lowbit (n / 2)

variable {n p i : Nat}

@[simp] theorem lowbit_zero : lowbit 0 = 0 := by rw [lowbit, if_pos rfl]

theorem lowbit_odd (h : n % 2 = 1) : lowbit n = 1 := by rw [lowbit, if_neg (by omega), if_pos h]

theorem lowbit_double (h : 0 < n) : lowbit (2 * n) = 2 * lowbit n := by
  rw [lowbit, if_neg (by omega), if_neg (by omega), Nat.mul_div_cancel_left n (by decide)]

theorem lowbit_pos (h : 0 < n) : 0 < lowbit n := by
  induction n using Nat.strongRecOn with
  | ind n ih =>
    rcases Nat.even_or_odd' n with ⟨m, rfl | rfl⟩
    · have hm := ih m (by omega) (by omega)
      rw [lowbit_double (by omega)]
      omega
    · rw [lowbit_odd (by omega)]
      exact Nat.one_pos

theorem lowbit_le (n : Nat) : lowbit n ≤ n := by
  induction n using Nat.strongRecOn with
  | ind n ih =>
    rcases Nat.eq_zero_or_pos n with rfl | hpos
    · rw [lowbit_zero]
    rcases Nat.even_or_odd' n with ⟨m, rfl | rfl⟩
    · have hm := ih m (by omega)
      rw [lowbit_double (by omega)]
      omega
    · rw [lowbit_odd (by omega)]
      omega

theorem lowbit_two_pow (k : Nat) : lowbit (2 ^ k) = 2 ^ k := by
  induction k with
  | zero => exact lowbit_odd rfl
  | succ k ih => rw [Nat.pow_succ', lowbit_double (Nat.two_pow_pos k), ih]

section Bits

/-- A number has no bit in common with its complement. -/
theorem and_complement {w : Nat} (h : n < 2 ^ w) : n &&& (2 ^ w - (n + 1)) = 0 := by
  apply Nat.eq_of_testBit_eq
  intro j
  rw [Nat.testBit_and, Nat.testBit_two_pow_sub_succ h, Nat.zero_testBit]
  cases n.testBit j <;> simp

/-- The bits of a number and its negation in `w` bits meet in the lowest one. -/
theorem and_neg {w : Nat} (hpos : 0 < n) (h : n < 2 ^ w) : n &&& (2 ^ w - n) = lowbit n := by
  induction w generalizing n with
  | zero => omega
  | succ w ih =>
    rw [Nat.pow_succ'] at h ⊢
    rcases Nat.even_or_odd' n with ⟨m, rfl | rfl⟩
    · have hm := ih (n := m) (by omega) (by omega)
      have hneg : 2 * 2 ^ w - 2 * m = 2 * (2 ^ w - m) := by omega
      have hdouble := Nat.land_bit false m false (2 ^ w - m)
      simp only [Nat.bit_val, Bool.toNat_false, Bool.and_false, Nat.add_zero] at hdouble
      rw [lowbit_double (by omega), ← hm, hneg, hdouble]
    · have hm := and_complement (n := m) (w := w) (by omega)
      have hneg : 2 * 2 ^ w - (2 * m + 1) = 2 * (2 ^ w - (m + 1)) + 1 := by omega
      have hodd := Nat.land_bit true m true (2 ^ w - (m + 1))
      simp only [Nat.bit_val, Bool.toNat_true, Bool.and_true, hm] at hodd
      rw [lowbit_odd (by omega), hneg, hodd]

end Bits

/-- The node `i` of a tree counts the position `p`. -/
def Covers (i p : Nat) : Prop := i - lowbit i < p ∧ p ≤ i

instance (i p : Nat) : Decidable (Covers i p) := inferInstanceAs (Decidable (_ ∧ _))

theorem not_covers_of_lt (h : i < p) : ¬ Covers i p := fun hcovers => absurd hcovers.2 (by omega)

/-- The nodes that count a position are the one at the position and those that
count the next one on its way up. -/
theorem covers_iff (hp : 0 < p) : Covers i p ↔ i = p ∨ Covers i (p + lowbit p) := by
  induction p using Nat.strongRecOn generalizing i with
  | ind p ih =>
    simp only [Covers] at ih ⊢
    rcases Nat.even_or_odd' p with ⟨q, rfl | rfl⟩
    · have hq := lowbit_pos (n := q) (by omega)
      have hrec := @ih q (by omega)
      rw [lowbit_double (by omega)]
      rcases Nat.even_or_odd' i with ⟨j, rfl | rfl⟩
      · rcases Nat.eq_zero_or_pos j with rfl | hj
        · simp only [Nat.mul_zero, lowbit_zero]
          omega
        have hj := @hrec j (by omega)
        have hle := lowbit_le j
        rw [lowbit_double (by omega)]
        omega
      · rw [lowbit_odd (n := 2 * j + 1) (by omega)]
        omega
    · rw [lowbit_odd (n := 2 * q + 1) (by omega)]
      rcases Nat.even_or_odd' i with ⟨j, rfl | rfl⟩
      · rcases Nat.eq_zero_or_pos j with rfl | hj
        · simp only [Nat.mul_zero, lowbit_zero]
          omega
        have hle := lowbit_le j
        rw [lowbit_double (by omega)]
        omega
      · rw [lowbit_odd (n := 2 * j + 1) (by omega)]
        omega

/-- The nodes that a sum up to `i` is made of, on the way down from `i`. -/
def down (i : Nat) : List Nat :=
  if h : 0 < i then i :: down (i - lowbit i) else []
termination_by i
decreasing_by
  have hpos := lowbit_pos h
  omega

@[simp] theorem down_zero : down 0 = [] := by rw [down, dif_neg (Nat.lt_irrefl 0)]

theorem down_of_pos (h : 0 < i) : down i = i :: down (i - lowbit i) := by rw [down, dif_pos h]

theorem le_of_mem_down {j : Nat} (h : j ∈ down i) : j ≤ i := by
  induction i using Nat.strongRecOn with
  | ind i ih =>
    rcases Nat.eq_zero_or_pos i with rfl | hpos
    · rw [down_zero] at h
      cases h
    rw [down_of_pos hpos] at h
    rcases List.mem_cons.mp h with rfl | h
    · exact Nat.le_refl j
    · have hlow := lowbit_pos hpos
      have hle := ih (i - lowbit i) (by omega) h
      omega

section Sums

variable {M : Type} [AddCommMonoid M] (f : Nat → M)

/-- What the node `i` of the tree of `f` stores. -/
def node (i : Nat) : M := ∑ p ∈ Finset.Ioc (i - lowbit i) i, f p

/-- The sum of the first `i` values of `f`. -/
def total (i : Nat) : M := ∑ p ∈ Finset.Ioc 0 i, f p

@[simp] theorem total_zero : total f 0 = 0 := by rw [total, Finset.Ioc_self, Finset.sum_empty]

/-- A sum up to a node is the node and the sum up to the next one on its way
down. -/
theorem total_eq (i : Nat) : total f i = node f i + total f (i - lowbit i) := by
  rw [total, total, node, add_comm]
  exact (Finset.sum_Ioc_consecutive f (Nat.zero_le _) (Nat.sub_le i (lowbit i))).symm

/-- A new value at a position changes the nodes that count the position. -/
theorem node_add_single (p : Nat) (v : M) (i : Nat) :
    node (f + Pi.single p v) i = node f i + if Covers i p then v else 0 := by
  have hsingle : ∑ q ∈ Finset.Ioc (i - lowbit i) i, (Pi.single p v : Nat → M) q = if Covers i p then v else 0 := by
    rw [Finset.sum_pi_single']
    exact if_congr Finset.mem_Ioc rfl rfl
  rw [node, node, ← hsingle]
  exact Finset.sum_add_distrib

theorem total_add_single (p : Nat) (v : M) (i : Nat) :
    total (f + Pi.single p v) i = total f i + if 0 < p ∧ p ≤ i then v else 0 := by
  have hsingle : ∑ q ∈ Finset.Ioc 0 i, (Pi.single p v : Nat → M) q = if 0 < p ∧ p ≤ i then v else 0 := by
    rw [Finset.sum_pi_single']
    simp only [Finset.mem_Ioc]
  rw [total, total, ← hsingle]
  exact Finset.sum_add_distrib

end Sums

end clib.fenwick
