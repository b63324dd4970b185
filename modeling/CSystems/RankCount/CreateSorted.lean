import CSystems.RankCount.Compression

open clib.array clib.cint clib.fenwick

namespace csystems.rank_count

/-- The body of the loop over the instructions. -/
def cost_step (rank : List Nat) (size i : Nat) (s : Int × Slots Int) : Option (Int × Slots Int) := do
  let r ← rank[i]?
  let leftCount ← query s.2 (r - 1)
  let upTo ← query s.2 r
  let rightCount ← int (i - upTo)
  let cost ← long (s.1 + if leftCount < rightCount then leftCount else rightCount)
  let bit ← update s.2 r 1 size
  some (cost.tmod 1000000007, bit)

def createSortedArray (qsort : List Int32 → List Int32) (instructions : List Int32) : Option Int32 :=
  if instructions.length = 0 then some 0
  else do
    let rank ← ranks (qsort instructions) instructions
    let maxRank := instructions.length + 2
    -- `maxRank` is an `int`.
    if 2147483647 < maxRank then none
    else do
      let (cost, _) ← for_up (cost_step rank (maxRank - 1)) instructions.length (0, empty_bit maxRank)
      some (Int32.ofInt cost)

/-- How many of the numbers before position `i` are smaller than the one at it,
or how many are greater, whichever is less. -/
def cost_at (instructions : List Int32) (i : Nat) : Nat :=
  let x := instructions.getD i 0
  min ((instructions.take i).countP fun y => decide (y < x)) ((instructions.take i).countP fun y => decide (x < y))

/-- The cost of inserting the first `n` numbers. -/
def insertion_cost (instructions : List Int32) (n : Nat) : Nat := ((List.range n).map (cost_at instructions)).sum

theorem insertion_cost_succ (nums : List Int32) (n : Nat) :
    insertion_cost nums (n + 1) = insertion_cost nums n + cost_at nums n := by
  rw [insertion_cost, List.range_succ, List.map_append, List.sum_append, List.map_singleton, List.sum_singleton]
  rfl

/-- The cost of the first `n` numbers as the code returns it. -/
def cost_mod (instructions : List Int32) (n : Nat) : Int := (insertion_cost instructions n % 1000000007 : Nat)

variable {nums : List Int32} {bit : Slots Int} {i : Nat} {x : Int32}

/-- The ranks in the tree before step `i`. -/
def entered (nums : List Int32) (i : Nat) : List Nat := (nums.take i).reverse.map (rank nums)

theorem length_entered_le (nums : List Int32) (i : Nat) : (entered nums i).length ≤ nums.length := by
  rw [entered, List.length_map, List.length_reverse, List.length_take]
  exact Nat.min_le_right i nums.length

theorem entered_succ (hx : nums[i]? = some x) : entered nums (i + 1) = rank nums x :: entered nums i := by
  rw [entered, List.take_add_one, hx, Option.toList_some, List.reverse_append]
  rfl

theorem cost_step_eq (hroom : nums.length ≤ 1073741822) (hx : nums[i]? = some x)
    (hbit : Stores bit (nums.length + 1) (node (weight (entered nums i)))) :
    ∃ bit', cost_step (nums.map (rank nums)) (nums.length + 1) i (cost_mod nums i, bit) =
        some (cost_mod nums (i + 1), bit') ∧
      Stores bit' (nums.length + 1) (node (weight (entered nums (i + 1)))) := by
  obtain ⟨hi, hxi⟩ := List.getElem?_eq_some_iff.mp hx
  have hrank : (nums.map (rank nums))[i]? = some (rank nums x) := by rw [List.getElem?_map, hx, Option.map_some]
  have hle := rank_le nums x
  have hfew := length_entered_le nums i
  have hlow := query_weight (by omega) hbit (by omega) (i := rank nums x - 1) (by omega)
  have hhigh := query_weight (by omega) hbit (by omega) (i := rank nums x) hle
  obtain ⟨bit', hupdate, hbit'⟩ := update_weight (by omega) hbit (by omega) (rank_pos nums x)
  rw [← entered_succ hx] at hbit'
  refine ⟨bit', ?_, hbit'⟩
  have hsmaller : (entered nums i).countP (fun r => decide (0 < r ∧ r ≤ rank nums x - 1)) =
      (nums.take i).countP fun y => decide (y < x) := by
    rw [entered, countP_ranks_lt (by
      intro y hy
      exact List.mem_of_mem_take (List.mem_reverse.mp hy)), List.countP_reverse]
  have hupTo : (entered nums i).countP (fun r => decide (0 < r ∧ r ≤ rank nums x)) +
      (nums.take i).reverse.countP (fun y => decide (x < y)) = (nums.take i).reverse.length :=
    countP_ranks_le (List.mem_of_getElem? hx)
  rw [List.countP_reverse, List.length_reverse, List.length_take, Nat.min_eq_left (by omega)] at hupTo
  rw [hsmaller] at hlow
  have hcost := insertion_cost_succ nums i
  rw [cost_at, List.getD_eq_getElem?_getD, hx, Option.getD_some] at hcost
  generalize (nums.take i).countP (fun y => decide (y < x)) = a at *
  generalize (nums.take i).countP (fun y => decide (x < y)) = b at *
  generalize (entered nums i).countP (fun r => decide (0 < r ∧ r ≤ rank nums x)) = c at *
  have hright : int ((i : Int) - c) = some (b : Int) := by
    rw [int_eq (by omega) (by omega)]
    congr 1
    omega
  have hmin : (if (a : Int) < b then (a : Int) else b) = (min a b : Nat) := by
    split <;> omega
  have hlong : long (cost_mod nums i + (min a b : Nat)) = some (cost_mod nums i + (min a b : Nat)) := by
    unfold cost_mod
    exact long_eq (by omega) (by omega)
  have hmod : (cost_mod nums i + (min a b : Nat)).tmod 1000000007 = cost_mod nums (i + 1) := by
    unfold cost_mod
    rw [Int.tmod_eq_emod_of_nonneg (by omega), hcost]
    omega
  simp only [cost_step, hrank, hlow, hhigh, hright, hmin, hlong, hmod, hupdate, Option.bind_eq_bind, Option.bind_some]

/-- The loop over the instructions. -/
theorem cost_run (hroom : nums.length ≤ 1073741822) (hi : i ≤ nums.length)
    (hbit : Stores bit (nums.length + 1) (node (weight (entered nums 0)))) :
    ∃ bit', for_up (cost_step (nums.map (rank nums)) (nums.length + 1)) i (cost_mod nums 0, bit) =
        some (cost_mod nums i, bit') ∧
      Stores bit' (nums.length + 1) (node (weight (entered nums i))) := by
  induction i with
  | zero => exact ⟨bit, rfl, hbit⟩
  | succ i ih =>
    obtain ⟨bit₁, hrun, hbit₁⟩ := ih (by omega)
    obtain ⟨bit₂, hstep, hbit₂⟩ := cost_step_eq hroom (List.getElem?_eq_getElem hi) hbit₁
    refine ⟨bit₂, ?_, hbit₂⟩
    rw [for_up, hrun, Option.bind_eq_bind, Option.bind_some, hstep]

section Sorts

variable {qsort : List Int32 → List Int32} (hqsort : SortsBy qsort) (hfits : DifferencesFit nums)

include hqsort hfits

theorem createSortedArray_eq (hroom : nums.length ≤ 1073741822) :
    createSortedArray qsort nums = some (Int32.ofInt (cost_mod nums nums.length)) := by
  by_cases hempty : nums.length = 0
  · obtain rfl := List.eq_nil_of_length_eq_zero hempty
    rfl
  have hranks := ranks_eq (hqsort.pairwise hfits) (hqsort nums hfits).1 (by omega)
  obtain ⟨bit', hrun, -⟩ := cost_run hroom (Nat.le_refl nums.length) (stores_empty (nums.length + 1))
  change for_up _ _ (0, _) = _ at hrun
  rw [createSortedArray, if_neg hempty, hranks, Option.bind_eq_bind, Option.bind_some]
  simp only [if_neg (show ¬ 2147483647 < nums.length + 2 by omega),
    show nums.length + 2 - 1 = nums.length + 1 from rfl, hrun, Option.bind_eq_bind, Option.bind_some]

/-- In a larger array the update for the least number overflows. -/
theorem createSortedArray_overflow (hlarge : 1073741822 < nums.length) : createSortedArray qsort nums = none := by
  rw [createSortedArray, if_neg (by omega)]
  cases hranks : ranks (qsort nums) nums with
  | none => rfl
  | some rank =>
    obtain ⟨i, hi, hone, hupdate⟩ := hqsort.exists_overflow hfits hlarge hranks
    rw [Option.bind_eq_bind, Option.bind_some]
    by_cases hmax : 2147483647 < nums.length + 2
    · exact if_pos hmax
    · have hfail (s : Int × Slots Int) : cost_step rank (nums.length + 1) i s = none := by
        simp only [cost_step, hone, hupdate, Option.bind_eq_bind, Option.bind_some, Option.bind_none,
          Option.bind_fun_none]
      have hloop := for_up_eq_none hi hfail (0, empty_bit (nums.length + 2))
      simp only [if_neg hmax, show nums.length + 2 - 1 = nums.length + 1 from rfl, hloop, Option.bind_eq_bind,
        Option.bind_none]

end Sorts

/-- The cost of inserting the instructions is returned, exactly for fewer than
`2^30 - 1` instructions. -/
theorem createSortedArray_iff {qsort : List Int32 → List Int32} (hqsort : SortsBy qsort) (instructions : List Int32)
    (hfits : DifferencesFit instructions) :
    (∃ cost, createSortedArray qsort instructions = some cost ∧
      cost.toInt = insertion_cost instructions instructions.length % 1000000007) ↔
      instructions.length ≤ 1073741822 := by
  constructor
  · rintro ⟨cost, hrun, -⟩
    by_contra hlarge
    rw [createSortedArray_overflow hqsort hfits (by omega)] at hrun
    cases hrun
  · intro hroom
    refine ⟨_, createSortedArray_eq hqsort hfits hroom, ?_⟩
    have hsize : (Int32.size : Int) = 4294967296 := rfl
    rw [Int32.toInt_ofInt, cost_mod, Int.bmod_eq_of_le (by omega) (by omega)]
    omega

theorem createSortedArray_four :
    (∃ cost, createSortedArray merge_sort [1, 5, 6, 2] = some cost ∧
      cost.toInt = insertion_cost [1, 5, 6, 2] [1, 5, 6, 2].length % 1000000007) ↔
      [(1 : Int32), 5, 6, 2].length ≤ 1073741822 :=
  createSortedArray_iff sortsBy_merge_sort [1, 5, 6, 2] (by decide)

/-- `2^30 - 1` equal instructions: the index of an update overflows. -/
theorem createSortedArray_overflows :
    ¬ ∀ qsort, SortsBy qsort → ∀ instructions, DifferencesFit instructions →
      ∃ cost, createSortedArray qsort instructions = some cost ∧
        cost.toInt = insertion_cost instructions instructions.length % 1000000007 := by
  intro hall
  have hlength := List.length_replicate (n := 1073741823) (a := (0 : Int32))
  have hfits : DifferencesFit (List.replicate 1073741823 0) := differencesFit_replicate 1073741823 0
  obtain ⟨cost, hrun, -⟩ := hall merge_sort sortsBy_merge_sort _ hfits
  rw [createSortedArray_overflow sortsBy_merge_sort hfits (by omega)] at hrun
  cases hrun

end csystems.rank_count
