import CSystems.CountRange.Counting

open clib.array clib.cint clib.pair_count

namespace csystems.count_range

/-- The sum of the first `i` numbers. -/
def sum_to (nums : List Int32) (i : Nat) : Int := ((nums.take i).map Int32.toInt).sum

theorem prefix_sums_eq (nums : List Int32) : prefix_sums nums = (List.range (nums.length + 1)).map (sum_to nums) := rfl

@[simp] theorem length_prefix_sums (nums : List Int32) : (prefix_sums nums).length = nums.length + 1 := by
  rw [prefix_sums_eq, List.length_map, List.length_range]

variable {nums : List Int32} {i : Nat}

theorem sum_to_succ (hi : i < nums.length) : sum_to nums (i + 1) = sum_to nums i + nums[i].toInt := by
  rw [sum_to, List.take_add_one, List.getElem?_eq_getElem hi, List.map_append, List.sum_append]
  simp [sum_to]

/-- A number moves the sum by at most `2^31`. -/
theorem sum_to_bounds (hi : i ≤ nums.length) :
    -(2147483648 * i) ≤ sum_to nums i ∧ sum_to nums i ≤ 2147483648 * i := by
  induction i with
  | zero => simp [sum_to]
  | succ i ih =>
    have hlow := Int32.le_toInt nums[i]
    have hhigh := Int32.toInt_lt nums[i]
    have hprevious := ih (by omega)
    rw [sum_to_succ hi]
    omega

/-- The loop over `nums`. -/
theorem fill_run {sums : Slots Int} (hroom : nums.length < 2147483647)
    (hsums : Holds sums (nums.length + 1) [sum_to nums 0]) (hi : i ≤ nums.length) :
    ∃ sums', for_up (sum_step nums) i sums = some sums' ∧
      Holds sums' (nums.length + 1) ((List.range (i + 1)).map (sum_to nums)) := by
  induction i with
  | zero => exact ⟨sums, rfl, hsums⟩
  | succ i ih =>
    obtain ⟨sums₁, hrun, hsums₁⟩ := ih (by omega)
    have hlength : ((List.range (i + 1)).map (sum_to nums)).length = i + 1 := by
      rw [List.length_map, List.length_range]
    have hlast : ((List.range (i + 1)).map (sum_to nums))[i]? = some (sum_to nums i) := by
      rw [List.getElem?_map, List.getElem?_range (Nat.lt_succ_self i), Option.map_some]
    obtain ⟨sums₂, hwrite, hsums₂⟩ := hsums₁.write_end (by omega) (sum_to nums (i + 1))
    have hbounds := sum_to_bounds hi
    have hlong := long_eq (n := sum_to nums (i + 1)) (by omega) (by omega)
    rw [sum_to_succ hi] at hlong
    rw [hlength, sum_to_succ hi] at hwrite
    refine ⟨sums₂, ?_, ?_⟩
    · simp only [for_up, hrun, sum_step, hsums₁.read_eq hlast, List.getElem?_eq_getElem hi, hlong, hwrite,
        Option.bind_eq_bind, Option.bind_some]
    · rw [List.range_succ, List.map_append, List.map_singleton]
      exact hsums₂

theorem fill_sums_eq (hroom : nums.length < 2147483647) : fill_sums nums = some ((prefix_sums nums).map some) := by
  obtain ⟨sums, hwrite, hsums⟩ :=
    (holds_nil (length_uninit (α := Int) (nums.length + 1))).write_end (Nat.succ_pos _) (sum_to nums 0)
  obtain ⟨sums', hrun, hsums'⟩ := fill_run hroom hsums (Nat.le_refl nums.length)
  rw [← prefix_sums_eq] at hsums'
  have hall := (length_prefix_sums nums ▸ hsums').eq_map
  have hzero : sum_to nums 0 = 0 := rfl
  rw [hzero, List.length_nil] at hwrite
  rw [fill_sums, if_neg (by omega), hwrite, Option.bind_eq_bind, Option.bind_some, hrun, hall]

theorem small_prefix_sums (hroom : nums.length < 1073741824) : Small (prefix_sums nums) := by
  intro x hx
  obtain ⟨i, hi, rfl⟩ := List.mem_map.mp hx
  rw [List.mem_range] at hi
  have hbounds : -(2147483648 * i) ≤ sum_to nums i ∧ sum_to nums i ≤ 2147483648 * i := sum_to_bounds (by omega)
  change -2305843009213693952 ≤ sum_to nums i ∧ sum_to nums i ≤ 2305843009213693952
  omega

/-- The call on the prefix sums of fewer than `2^30` numbers. -/
theorem count_prefix_sums (hroom : nums.length < 1073741824) {lower upper : Int} (hle : lower ≤ upper) :
    countWhileMergeSort ((prefix_sums nums).map some) 0 (nums.length + 1) lower upper =
      some ((pairs (in_range lower upper) (prefix_sums nums) : Int),
        ((prefix_sums nums).mergeSort (· ≤ ·)).map some) := by
  have hcall := countWhileMergeSort_eq hle [] (prefix_sums nums) [] (by simp; omega) (small_prefix_sums hroom)
  simpa using hcall

/-- In a larger array the midpoint of the last two positions is not an `int`, and
the halves to the right lead there. -/
theorem countWhileMergeSort_overflow {right : Nat} (hright : 1073741824 < right) (lower upper : Int) {d : Nat}
    (hd : 2 ≤ d) (sums : Slots Int) (left : Nat) (hleft : left + d = right) :
    countWhileMergeSort sums left right lower upper = none := by
  induction d using Nat.strongRecOn generalizing sums left with
  | ind d ih =>
    rw [countWhileMergeSort, if_neg (by omega)]
    by_cases hover : 2147483647 < left + right
    · rw [if_pos hover]
    · rw [if_neg hover]
      have hrest (sums : Slots Int) := ih (right - (left + right) / 2) (by omega) (by omega) sums
        ((left + right) / 2) (by omega)
      simp only [hrest, Option.bind_eq_bind, Option.bind_none, Option.bind_fun_none]

/-- `countRangeSum` counts the pairs, modulo what an `int` holds. -/
theorem countRangeSum_eq (hroom : nums.length < 1073741824) {lower upper : Int32} (hle : lower ≤ upper) :
    countRangeSum nums lower upper =
      some (Int32.ofInt (pairs (in_range lower.toInt upper.toInt) (prefix_sums nums))) := by
  rw [countRangeSum, fill_sums_eq (by omega), Option.bind_eq_bind, Option.bind_some,
    count_prefix_sums hroom (Int32.le_iff_toInt_le.mp hle)]
  rfl

/-- The call on the prefix sums counts the pairs of positions whose difference is
in the range and leaves the prefix sums sorted. -/
def Counts (nums : List Int32) (lower upper : Int32) : Prop :=
  ∃ (sums : Slots Int) (ys : List Int), fill_sums nums = some sums ∧ sums = (prefix_sums nums).map some ∧
    countWhileMergeSort sums 0 (nums.length + 1) lower.toInt upper.toInt =
      some ((pairs (in_range lower.toInt upper.toInt) (prefix_sums nums) : Int), ys.map some) ∧
    ys.Perm (prefix_sums nums) ∧ ys.Pairwise (· ≤ ·)

theorem not_counts_of_overflow (hlarge : 1073741824 ≤ nums.length) (lower upper : Int32) :
    ¬ Counts nums lower upper := by
  rintro ⟨sums, ys, -, -, hcall, -⟩
  rw [countWhileMergeSort_overflow (by omega) _ _ (d := nums.length + 1) (by omega) sums 0 (by omega)] at hcall
  cases hcall

/-- Pairs are counted and prefix sums sorted exactly for fewer than `2^30`
numbers. -/
theorem counts_iff (nums : List Int32) (lower upper : Int32) (hle : lower ≤ upper) :
    Counts nums lower upper ↔ nums.length < 1073741824 := by
  constructor
  · intro hcounts
    by_contra hlarge
    exact not_counts_of_overflow (by omega) lower upper hcounts
  · intro hroom
    exact ⟨_, _, fill_sums_eq (by omega), rfl, count_prefix_sums hroom (Int32.le_iff_toInt_le.mp hle),
      List.mergeSort_perm _ _, List.pairwise_mergeSort' (· ≤ ·) _⟩

theorem counts_three_numbers : Counts [-2, 5, -1] (-2) 2 ↔ [-2, 5, -1].length < 1073741824 :=
  counts_iff [-2, 5, -1] (-2) 2 (by decide)

/-- `2^30` zeros: `left + right` overflows in the call on the last two positions. -/
theorem counts_overflow : ¬ Counts (List.replicate 1073741824 0) 0 0 :=
  not_counts_of_overflow (Nat.le_of_eq List.length_replicate.symm) 0 0

end csystems.count_range
