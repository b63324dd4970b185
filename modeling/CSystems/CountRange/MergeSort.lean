import CSystems.Lib.CArray
import CSystems.Lib.Bytes
import CSystems.Lib.Pairs

open clib.array clib.cint clib.pair_count

namespace csystems.count_range

/-- The loop `while (k < right && p(sums[k])) k++`. -/
def advance (sums : Slots Int) (right : Nat) (p : Int → Option Bool) (k : Nat) : Option Nat :=
  if k < right then do
    let y ← read sums k
    let go ← p y
    if go then advance sums right p (k + 1) else some k
  else some k
termination_by right - k

/-- The loop `while (t < right && sums[t] < x) cache[r++] = sums[t++]`. -/
def drain (sums : Slots Int) (right : Nat) (x : Int) (t r : Nat) (cache : Slots Int) :
    Option (Nat × Nat × Slots Int) :=
  if t < right then do
    let y ← read sums t
    if y < x then do
      let cache ← write cache r y
      drain sums right x (t + 1) (r + 1) cache
    else some (t, r, cache)
  else some (t, r, cache)
termination_by right - t

structure merge_t where
  j : Nat
  k : Nat
  t : Nat
  r : Nat
  count : Int
  cache : Slots Int

/-- The body of the loop over the left half. It does not write `sums`, so that
`sums[i]` is read once. -/
def merge_step (sums : Slots Int) (right : Nat) (lower upper : Int) (i : Nat) (s : merge_t) : Option merge_t := do
  let x ← read sums i
  let k ← advance sums right (fun y => (long (y - x)).map fun d => decide (d < lower)) s.k
  let j ← advance sums right (fun y => (long (y - x)).map fun d => decide (d ≤ upper)) s.j
  let count ← long (s.count + (j - k))
  let (t, r, cache) ← drain sums right x s.t s.r s.cache
  let cache ← write cache r x
  some { j, k, t, r := r + 1, count, cache }

/-- The body `sums[left + i] = cache[i]`. -/
def copy_back (cache : Slots Int) (left i : Nat) (sums : Slots Int) : Option (Slots Int) := do
  let v ← read cache i
  write sums (left + i) v

/-- `none` if an addition overflows or an access is out of bounds. The two calls
work on separate parts of the array, so that their order does not matter. -/
def countWhileMergeSort (sums : Slots Int) (left right : Nat) (lower upper : Int) : Option (Int × Slots Int) :=
  if right - left ≤ 1 then some (0, sums)
  -- `left + right` is an `int`.
  else if 2147483647 < left + right then none
  else do
    let mid := (left + right) / 2
    let (a, sums) ← countWhileMergeSort sums left mid lower upper
    let (b, sums) ← countWhileMergeSort sums mid right lower upper
    let count ← long (a + b)
    let s ← for_up (fun i => merge_step sums right lower upper (left + i)) (mid - left)
      { j := mid, k := mid, t := mid, r := 0, count, cache := uninit (right - left) }
    let sums ← for_up (copy_back s.cache left) (s.t - left) sums
    some (s.count, sums)
termination_by right - left

/-- The body `sums[i + 1] = sums[i] + nums[i]`. -/
def sum_step (nums : List Int32) (i : Nat) (sums : Slots Int) : Option (Slots Int) := do
  let s ← read sums i
  let x ← nums[i]?
  let s ← long (s + x.toInt)
  write sums (i + 1) s

/-- The array that `countRangeSum` fills. -/
def fill_sums (nums : List Int32) : Option (Slots Int) :=
  -- `numsSize + 1` is an `int`.
  if 2147483647 < nums.length + 1 then none
  else do
    let sums ← write (uninit (nums.length + 1)) 0 0
    for_up (sum_step nums) nums.length sums

/-- The `long` is converted to an `int` on return. -/
def countRangeSum (nums : List Int32) (lower upper : Int32) : Option Int32 := do
  let sums ← fill_sums nums
  let (count, _) ← countWhileMergeSort sums 0 (nums.length + 1) lower.toInt upper.toInt
  some (Int32.ofInt count)

/-- The sums of the first `0`, `1`, .. numbers. -/
def prefix_sums (nums : List Int32) : List Int :=
  (List.range (nums.length + 1)).map fun i => ((nums.take i).map Int32.toInt).sum

/-- The later value exceeds the earlier one by an amount in the range. -/
def in_range (lower upper x y : Int) : Bool := decide (lower ≤ y - x ∧ y - x ≤ upper)

end csystems.count_range
