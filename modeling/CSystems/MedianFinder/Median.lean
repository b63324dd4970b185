import Mathlib.Data.Rat.Defs
import CSystems.MedianFinder.OrderStatistics

open clib.cint

namespace csystems.median_finder

/-- What the even case divides by `2.0`. -/
def numerator (obj : MedianFinder) : Int32 :=
  let k1 := obj.total / 2
  let k2 := obj.total / 2 + 1
  kth obj.root k1 + kth obj.root k2

/-- A `double` holds every `int` and the half of every `int` exactly. -/
def medianFinderFindMedian (obj : MedianFinder) : Rat :=
  if obj.total % 2 == 1 then
    let k := obj.total / 2 + 1
    (kth obj.root k).toInt
  else (numerator obj).toInt / 2

/-- The sum of the two middle elements of an even number of numbers. -/
def middle_sum (nums : List Int32) : Int :=
  let sorted := nums.mergeSort (· ≤ ·)
  (sorted.getD (nums.length / 2 - 1) 0).toInt + (sorted.getD (nums.length / 2) 0).toInt

theorem toInt_half {n : Int32} (h : 0 ≤ n.toInt) : (n / 2).toInt = n.toInt / 2 := by
  have htwo : (2 : Int32).toInt = 2 := rfl
  rw [Int32.toInt_div_of_ne_right _ _ (by decide), htwo, Int.tdiv_eq_ediv_of_nonneg h]

theorem toInt_half_succ {n : Int32} (h : 0 ≤ n.toInt) : (n / 2 + 1).toInt = n.toInt / 2 + 1 := by
  have hlt := Int32.toInt_lt n
  have hhalf := toInt_half h
  rw [toInt_succ (by omega), hhalf]

section Sound

variable {nums : List Int32} {obj : MedianFinder} (h : Sound nums obj)

include h

/-- `kth` reads the sorted numbers. -/
theorem Sound.kth_eq_getD (hroom : nums.length < 2147483648) {k : Int32} (hlow : 1 ≤ k.toInt)
    (hhigh : k.toInt ≤ nums.length) :
    kth obj.root k = (nums.mergeSort (· ≤ ·)).getD (k.toInt.toNat - 1) 0 := by
  have htotal := h.total
  have hget := (h.answers hroom).kth_eq k (Int32.le_iff_toInt_le.mpr (by simpa using hlow))
    (Int32.le_iff_toInt_le.mpr (by omega))
  rw [List.getD_eq_getElem?_getD, hget, Option.getD_some]

/-- Up to overflow the two middle elements are added. -/
theorem Sound.numerator_toInt (hroom : nums.length < 2147483648) (hsome : nums ≠ []) (heven : nums.length % 2 = 0) :
    (numerator obj).toInt = (middle_sum nums).bmod (2 ^ 32) := by
  have hpos := List.length_pos_iff.mpr hsome
  have htotal := h.total
  have hlow := toInt_half (n := obj.total) (by omega)
  have hhigh := toInt_half_succ (n := obj.total) (by omega)
  have hlowIndex : (obj.total / 2).toInt.toNat - 1 = nums.length / 2 - 1 := by omega
  have hhighIndex : (obj.total / 2 + 1).toInt.toNat - 1 = nums.length / 2 := by omega
  have hfirst := h.kth_eq_getD hroom (k := obj.total / 2) (by omega) (by omega)
  have hsecond := h.kth_eq_getD hroom (k := obj.total / 2 + 1) (by omega) (by omega)
  rw [hlowIndex] at hfirst
  rw [hhighIndex] at hsecond
  simp only [numerator, middle_sum]
  rw [hfirst, hsecond, Int32.toInt_add]

/-- The median of an odd number of numbers is the middle element. -/
theorem Sound.findMedian_odd (hroom : nums.length < 2147483648) (hodd : nums.length % 2 = 1) :
    medianFinderFindMedian obj = ((nums.mergeSort (· ≤ ·)).getD (nums.length / 2) 0).toInt := by
  have htotal := h.total
  have hhigh := toInt_half_succ (n := obj.total) (by omega)
  have hindex : (obj.total / 2 + 1).toInt.toNat - 1 = nums.length / 2 := by omega
  have hbranch : obj.total % 2 = 1 := by
    apply Int32.toInt_inj.mp
    have htwo : (2 : Int32).toInt = 2 := rfl
    rw [Int32.toInt_mod, htwo, Int.tmod_eq_emod_of_nonneg (by omega), Int32.toInt_one]
    omega
  have hkth := h.kth_eq_getD hroom (k := obj.total / 2 + 1) (by omega) (by omega)
  rw [hindex] at hkth
  simp only [medianFinderFindMedian, hbranch, hkth, beq_self_eq_true, if_true]

/-- The median of an even number of numbers is the mean of the two middle
elements, if an `int` holds their sum. -/
theorem Sound.findMedian_even (hroom : nums.length < 2147483648) (hsome : nums ≠ []) (heven : nums.length % 2 = 0)
    (hlow : -2147483648 ≤ middle_sum nums) (hhigh : middle_sum nums ≤ 2147483647) :
    medianFinderFindMedian obj = middle_sum nums / 2 := by
  have htotal := h.total
  have hbranch : ¬ obj.total % 2 = 1 := by
    intro heq
    have hvalue := congrArg Int32.toInt heq
    have htwo : (2 : Int32).toInt = 2 := rfl
    rw [Int32.toInt_mod, htwo, Int.tmod_eq_emod_of_nonneg (by omega), Int32.toInt_one] at hvalue
    omega
  have hsum := h.numerator_toInt hroom hsome heven
  rw [Int.bmod_eq_of_le (by omega) (by omega)] at hsum
  simp only [medianFinderFindMedian, hbranch, hsum, beq_iff_eq, if_false]

end Sound

/-- The numbers are counted and the two middle ones added without overflow,
exactly if an `int` can count the numbers and hold that sum. -/
theorem numerator_exact_iff (nums : List Int32) (hsome : nums ≠ []) (heven : nums.length % 2 = 0) :
    (∃ obj, nums.foldlM medianFinderAddNum medianFinderCreate = some obj ∧ obj.total.toInt = nums.length ∧
      (numerator obj).toInt = middle_sum nums) ↔
      nums.length ≤ 2147483647 ∧ -2147483648 ≤ middle_sum nums ∧ middle_sum nums ≤ 2147483647 := by
  constructor
  · rintro ⟨obj, -, htotal, hsum⟩
    have hcount := Int32.toInt_lt obj.total
    have hlow := Int32.le_toInt (numerator obj)
    have hhigh := Int32.toInt_lt (numerator obj)
    omega
  · rintro ⟨hroom, hlow, hhigh⟩
    obtain ⟨obj, hrun, hsound⟩ := run_sound (Nat.lt_succ_of_le hroom)
    refine ⟨obj, hrun, hsound.total, ?_⟩
    rw [hsound.numerator_toInt (by omega) hsome heven]
    exact Int.bmod_eq_of_le (by omega) (by omega)

theorem numerator_exact_one_two :
    (∃ obj, [1, 2].foldlM medianFinderAddNum medianFinderCreate = some obj ∧ obj.total.toInt = [1, 2].length ∧
      (numerator obj).toInt = middle_sum [1, 2]) ↔
      [1, 2].length ≤ 2147483647 ∧ -2147483648 ≤ middle_sum [1, 2] ∧ middle_sum [1, 2] ≤ 2147483647 :=
  numerator_exact_iff [1, 2] (by decide) (by decide)

/-- Twice the largest `int`: the sum wraps around to `-2`. -/
theorem numerator_overflow :
    ¬ ∃ obj, [2147483647, 2147483647].foldlM medianFinderAddNum medianFinderCreate = some obj ∧
      (numerator obj).toInt = middle_sum [2147483647, 2147483647] := by
  have hsum : middle_sum [2147483647, 2147483647] = 4294967294 := by simp [middle_sum, List.mergeSort]
  rintro ⟨obj, -, hexact⟩
  have hhigh := Int32.toInt_lt (numerator obj)
  omega

end csystems.median_finder
