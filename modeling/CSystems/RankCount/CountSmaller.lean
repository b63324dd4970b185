import CSystems.RankCount.Compression

open clib.array clib.cint clib.fenwick

namespace csystems.rank_count

/-- The body of the loop from the last number to the first one. -/
def smaller_step (rank : List Nat) (size i : Nat) (s : Slots Int × Slots Int) : Option (Slots Int × Slots Int) := do
  let r ← rank[i]?
  let v ← query s.2 (r - 1)
  let result ← write s.1 i v
  let bit ← update s.2 r 1 size
  some (result, bit)

/-- The returned array and `*returnSize`. -/
def countSmaller (qsort : List Int32 → List Int32) (nums : List Int32) : Option (Slots Int × Nat) :=
  if nums.length = 0 then some (uninit nums.length, 0)
  else do
    let rank ← ranks (qsort nums) nums
    let maxRank := nums.length + 2
    -- `maxRank` is an `int`.
    if 2147483647 < maxRank then none
    else do
      let (result, _) ← for_down (fun j => smaller_step rank (maxRank - 1) (j - 1)) 0 nums.length
        (uninit nums.length, empty_bit maxRank)
      some (result, nums.length)

/-- For each number, how many smaller ones come after it. -/
def smaller_after (nums : List Int32) : List Nat :=
  (List.range nums.length).map fun i => (nums.drop (i + 1)).countP fun y => decide (y < nums.getD i 0)

variable {nums : List Int32} {result bit : Slots Int} {i : Nat}

/-- What the returned array holds in the end. -/
def counted (nums : List Int32) : Slots Int := (smaller_after nums).map fun c : Nat => some (c : Int)

theorem length_counted (nums : List Int32) : (counted nums).length = nums.length := by
  rw [counted, List.length_map, smaller_after, List.length_map, List.length_range]

theorem counted_drop {x : Int32} (hx : nums[i]? = some x) :
    (counted nums).drop i =
      some (((nums.drop (i + 1)).countP fun y => decide (y < x) : Nat) : Int) :: (counted nums).drop (i + 1) := by
  obtain ⟨hi, rfl⟩ := List.getElem?_eq_some_iff.mp hx
  rw [List.drop_eq_getElem_cons (by rw [length_counted]; exact hi)]
  simp [counted, smaller_after, hi]

/-- Filling an array from its end. -/
theorem write_before {front rest : Slots Int} (hfront : front.length = i + 1) (v : Int) :
    write (front ++ rest) i v = some (front.take i ++ some v :: rest) := by
  rw [write, if_pos (by rw [List.length_append]; omega), List.set_append_left _ _ (by omega),
    List.set_eq_take_append_cons_drop, if_pos (by omega), List.drop_eq_nil_of_le (by omega), List.append_assoc,
    List.cons_append, List.nil_append]

theorem smaller_step_eq (hroom : nums.length ≤ 1073741822) {x : Int32} (hx : nums[i]? = some x) {front : Slots Int}
    (hfront : front.length = i + 1)
    (hbit : Stores bit (nums.length + 1) (node (weight ((nums.drop (i + 1)).map (rank nums))))) :
    ∃ bit', smaller_step (nums.map (rank nums)) (nums.length + 1) i (front ++ (counted nums).drop (i + 1), bit) =
        some (front.take i ++ (counted nums).drop i, bit') ∧
      Stores bit' (nums.length + 1) (node (weight ((nums.drop i).map (rank nums)))) := by
  obtain ⟨hi, hxi⟩ := List.getElem?_eq_some_iff.mp hx
  have hrank : (nums.map (rank nums))[i]? = some (rank nums x) := by rw [List.getElem?_map, hx, Option.map_some]
  have hle := rank_le nums x
  have hentered : ((nums.drop (i + 1)).map (rank nums)).length ≤ nums.length := by
    rw [List.length_map, List.length_drop]
    omega
  have hquery := query_weight (by omega) hbit (by omega) (i := rank nums x - 1) (by omega)
  rw [countP_ranks_lt fun y hy => List.mem_of_mem_drop hy] at hquery
  obtain ⟨bit', hupdate, hbit'⟩ := update_weight (by omega) hbit (by omega) (rank_pos nums x)
  refine ⟨bit', ?_, ?_⟩
  · simp only [smaller_step, hrank, hquery, write_before hfront, hupdate, counted_drop hx, Option.bind_eq_bind,
      Option.bind_some]
  · rwa [List.drop_eq_getElem_cons hi, hxi, List.map_cons]

/-- The loop over the numbers before `i`, if the ranks of the later ones are in
the tree. -/
theorem smaller_run (hroom : nums.length ≤ 1073741822) (hi : i ≤ nums.length) {front : Slots Int}
    (hfront : front.length = i)
    (hbit : Stores bit (nums.length + 1) (node (weight ((nums.drop i).map (rank nums))))) :
    ∃ bit', for_down (fun j => smaller_step (nums.map (rank nums)) (nums.length + 1) (j - 1)) 0 i
      (front ++ (counted nums).drop i, bit) = some (counted nums, bit') := by
  induction i generalizing front bit with
  | zero =>
    obtain rfl := List.eq_nil_of_length_eq_zero hfront
    exact ⟨bit, rfl⟩
  | succ i ih =>
    obtain ⟨bit₁, hstep, hbit₁⟩ := smaller_step_eq hroom (List.getElem?_eq_getElem hi) hfront hbit
    have hlength : (front.take i).length = i := by
      rw [List.length_take]
      omega
    obtain ⟨bit₂, hrun⟩ := ih (by omega) hlength hbit₁
    refine ⟨bit₂, ?_⟩
    rw [for_down, Nat.zero_add, Nat.add_sub_cancel, hstep, Option.bind_eq_bind, Option.bind_some, hrun]

section Sorts

variable {qsort : List Int32 → List Int32} (hqsort : SortsBy qsort) (hfits : DifferencesFit nums)

include hqsort hfits

theorem countSmaller_eq (hroom : nums.length ≤ 1073741822) :
    countSmaller qsort nums = some (counted nums, nums.length) := by
  by_cases hempty : nums.length = 0
  · obtain rfl := List.eq_nil_of_length_eq_zero hempty
    rfl
  have hranks := ranks_eq (hqsort.pairwise hfits) (hqsort nums hfits).1 (by omega)
  have hdrop : (counted nums).drop nums.length = [] := List.drop_eq_nil_of_le (Nat.le_of_eq (length_counted nums))
  have hbit : Stores (empty_bit (nums.length + 2)) (nums.length + 1)
      (node (weight ((nums.drop nums.length).map (rank nums)))) := by
    rw [List.drop_length]
    exact stores_empty (nums.length + 1)
  obtain ⟨bit', hrun⟩ := smaller_run hroom (Nat.le_refl nums.length) (length_uninit nums.length) hbit
  rw [hdrop, List.append_nil] at hrun
  rw [countSmaller, if_neg hempty, hranks, Option.bind_eq_bind, Option.bind_some]
  simp only [if_neg (show ¬ 2147483647 < nums.length + 2 by omega),
    show nums.length + 2 - 1 = nums.length + 1 from rfl, hrun, Option.bind_eq_bind, Option.bind_some]

/-- In a larger array the update for the least number overflows. -/
theorem countSmaller_overflow (hlarge : 1073741822 < nums.length) : countSmaller qsort nums = none := by
  rw [countSmaller, if_neg (by omega)]
  cases hranks : ranks (qsort nums) nums with
  | none => rfl
  | some rank =>
    obtain ⟨i, hi, hone, hupdate⟩ := hqsort.exists_overflow hfits hlarge hranks
    rw [Option.bind_eq_bind, Option.bind_some]
    by_cases hmax : 2147483647 < nums.length + 2
    · exact if_pos hmax
    · have hfail (s : Slots Int × Slots Int) : smaller_step rank (nums.length + 1) (i + 1 - 1) s = none := by
        rw [Nat.add_sub_cancel]
        simp only [smaller_step, hone, hupdate, Option.bind_eq_bind, Option.bind_some, Option.bind_none,
          Option.bind_fun_none]
      have hloop := for_down_eq_none (f := fun j => smaller_step rank (nums.length + 1) (j - 1)) (n := nums.length)
        (Nat.succ_pos i) (by omega) hfail (uninit nums.length, empty_bit (nums.length + 2))
      simp only [if_neg hmax, show nums.length + 2 - 1 = nums.length + 1 from rfl, hloop, Option.bind_eq_bind,
        Option.bind_none]

end Sorts

/-- For each number the smaller ones after it are counted, exactly for fewer
than `2^30 - 1` numbers. -/
theorem countSmaller_iff {qsort : List Int32 → List Int32} (hqsort : SortsBy qsort) (nums : List Int32)
    (hfits : DifferencesFit nums) :
    countSmaller qsort nums = some ((smaller_after nums).map fun c : Nat => some (c : Int), nums.length) ↔
      nums.length ≤ 1073741822 := by
  constructor
  · intro hrun
    by_contra hlarge
    rw [countSmaller_overflow hqsort hfits (by omega)] at hrun
    cases hrun
  · exact countSmaller_eq hqsort hfits

theorem countSmaller_four :
    countSmaller merge_sort [5, 2, 6, 1] = some ((smaller_after [5, 2, 6, 1]).map fun c : Nat => some (c : Int), 4) ↔
      [(5 : Int32), 2, 6, 1].length ≤ 1073741822 :=
  countSmaller_iff sortsBy_merge_sort [5, 2, 6, 1] (by decide)

/-- `2^30 - 1` equal numbers: the index of an update overflows. -/
theorem countSmaller_overflows :
    ¬ ∀ qsort, SortsBy qsort → ∀ nums, DifferencesFit nums →
      countSmaller qsort nums = some ((smaller_after nums).map fun c : Nat => some (c : Int), nums.length) := by
  intro hall
  have hlength := List.length_replicate (n := 1073741823) (a := (0 : Int32))
  have hfits : DifferencesFit (List.replicate 1073741823 0) := differencesFit_replicate 1073741823 0
  have hrun := hall merge_sort sortsBy_merge_sort _ hfits
  rw [countSmaller_overflow sortsBy_merge_sort hfits (by omega)] at hrun
  cases hrun

end csystems.rank_count
