import Mathlib.Order.Basic
import CSystems.Lib.Pairs
import CSystems.RankCount.Tree

open clib.cint clib.pair_count

namespace csystems.rank_count

/-- How many values lie below `x`. -/
def below (nums : List Int32) (x : Int32) : Nat := nums.countP fun y => decide (y < x)

variable {sorted nums : List Int32} {x y : Int32}

theorem lt_of_le_of_lt_int {a b : Int32} (hab : a ≤ b) (hb : decide (b < x) = true) : decide (a < x) = true :=
  decide_eq_true (Int32.lt_of_le_of_lt hab (of_decide_eq_true hb))

/-- The middles that a binary search for the position `k` goes through. -/
def probes (k left : Nat) (right : Int) : List Nat :=
  if left ≤ right then
    let mid := (left + right.toNat) / 2
    mid :: if mid < k then probes k (mid + 1) right else probes k left (mid - 1)
  else []
termination_by (right + 1 - left).toNat

theorem le_of_mem_probes {k m left : Nat} {right : Int} (hm : m ∈ probes k left right) : (m : Int) ≤ right := by
  induction hn : (right + 1 - left).toNat using Nat.strongRecOn generalizing left right with
  | ind n ih =>
    rw [probes] at hm
    split at hm
    · obtain rfl | hm := List.mem_cons.mp hm
      · omega
      · split at hm
        · exact ih _ (by omega) hm rfl
        · have hle := ih _ (by omega) hm rfl
          omega
    · cases hm

/-- The binary search counts the values below `x`, unless the sum of its two bounds
overflows on the way. -/
theorem search_eq (hsorted : sorted.Pairwise (· ≤ ·)) {left : Nat} {right : Int} (hlow : left ≤ below sorted x)
    (hhigh : below sorted x ≤ right + 1) (hright : right + 1 ≤ sorted.length) :
    search sorted x left right left =
      if ∀ m ∈ probes (below sorted x) left right, m < 1073741824 then some (below sorted x) else none := by
  induction hn : (right + 1 - left).toNat using Nat.strongRecOn generalizing left right with
  | ind n ih =>
    rw [search, probes]
    by_cases hle : (left : Int) ≤ right
    · simp only [if_pos hle, List.forall_mem_cons, ite_and]
      generalize hm : (left + right.toNat) / 2 = mid
      have hmid : mid < sorted.length := by omega
      have hside : decide (sorted[mid] < x) = true ↔ mid < below sorted x :=
        getElem_iff_lt_countP hsorted (fun a b => lt_of_le_of_lt_int) hmid
      by_cases hover : 2147483647 < left + right
      · rw [if_pos hover, if_neg (by omega)]
      · simp only [if_neg hover, if_pos (show mid < 1073741824 by omega), List.getElem?_eq_getElem hmid,
          Option.bind_eq_bind, Option.bind_some]
        by_cases hlt : sorted[mid] < x
        · have hbelow := hside.mp (decide_eq_true hlt)
          rw [if_pos hlt]
          simp only [if_pos hbelow]
          exact ih _ (by omega) hbelow hhigh hright rfl
        · have habove := mt hside.mpr (by simpa using hlt)
          rw [if_neg hlt]
          simp only [if_neg habove]
          exact ih _ (by omega) hlow (by omega) (by omega) rfl
    · rw [if_neg hle, if_neg hle, if_pos (List.forall_mem_nil _), Option.some_inj]
      omega

/-- Whatever the array, a value that nothing lies below is found at the front. -/
theorem search_least (hleast : ∀ y ∈ sorted, ¬ y < x) {left r n : Nat} {right : Int}
    (hrun : search sorted x left right r = some n) : n = r := by
  induction hm : (right + 1 - left).toNat using Nat.strongRecOn generalizing left right with
  | ind m ih =>
    rw [search] at hrun
    split at hrun
    · next hle =>
      split at hrun
      · cases hrun
      · simp only [Option.bind_eq_bind, Option.bind_eq_some_iff] at hrun
        obtain ⟨y, hy, hrun⟩ := hrun
        rw [if_neg (hleast y (List.mem_of_getElem? hy))] at hrun
        exact ih _ (by omega) hrun rfl
    · exact (Option.some_inj.mp hrun).symm

/-- The rank of a value. -/
def rank (nums : List Int32) (x : Int32) : Nat := below nums x + 1

theorem rank_pos (nums : List Int32) (x : Int32) : 0 < rank nums x := Nat.succ_pos _

theorem rank_le (nums : List Int32) (x : Int32) : rank nums x ≤ nums.length + 1 :=
  Nat.succ_le_succ List.countP_le_length

theorem mapM_eq_map_iff {α β : Type} {f : α → Option β} {g : α → β} {xs : List α} :
    xs.mapM f = some (xs.map g) ↔ ∀ x ∈ xs, f x = some (g x) := by
  induction xs with
  | nil => simp
  | cons x xs ih => simp [List.mapM_cons, Option.bind_eq_some_iff, ih]

theorem mapM_getElem? {α β : Type} {f : α → Option β} {xs : List α} {ys : List β} (h : xs.mapM f = some ys) {i : Nat}
    {x : α} (hx : xs[i]? = some x) : ∃ y, f x = some y ∧ ys[i]? = some y := by
  induction xs generalizing ys i with
  | nil => cases hx
  | cons z xs ih =>
    rw [List.mapM_cons] at h
    simp only [Option.bind_eq_bind, Option.bind_eq_some_iff, Option.pure_def, Option.some_inj] at h
    obtain ⟨y, hy, ys, hys, rfl⟩ := h
    cases i with
    | zero => exact ⟨y, Option.some_inj.mp hx ▸ hy, rfl⟩
    | succ i => exact ih hys hx

/-- Every value gets its rank, unless a binary search overflows. -/
theorem ranks_eq_iff (hsorted : sorted.Pairwise (· ≤ ·)) (hperm : sorted.Perm nums) :
    ranks sorted nums = some (nums.map (rank nums)) ↔
      ∀ x ∈ nums, ∀ m ∈ probes (below nums x) 0 (nums.length - 1), m < 1073741824 := by
  refine mapM_eq_map_iff.trans (forall₂_congr fun x _ => ?_)
  have hlength := hperm.length_eq
  have hbelow : below sorted x = below nums x := hperm.countP_eq _
  have hle : below sorted x ≤ sorted.length := List.countP_le_length
  have hfound : search sorted x 0 ((nums.length : Int) - 1) 0 = _ :=
    search_eq hsorted (Nat.zero_le _) (by omega) (by omega)
  rw [hfound, hbelow]
  split
  · next hfits => exact iff_of_true rfl hfits
  · next hover => exact iff_of_false nofun hover

/-- Every value gets its rank. -/
theorem ranks_eq (hsorted : sorted.Pairwise (· ≤ ·)) (hperm : sorted.Perm nums) (hroom : nums.length ≤ 1073741824) :
    ranks sorted nums = some (nums.map (rank nums)) := by
  refine (ranks_eq_iff hsorted hperm).mpr fun x _ m hm => ?_
  have hle := le_of_mem_probes hm
  omega

/-- Ranks are ordered as the values are. -/
theorem rank_lt_iff (hy : y ∈ nums) : rank nums y < rank nums x ↔ y < x := by
  constructor
  · intro hlt
    by_contra hnot
    have hxy := Int32.not_lt.mp hnot
    have hmono : below nums x ≤ below nums y := by
      refine List.countP_mono_left fun z _ hz => decide_eq_true ?_
      exact Int32.lt_of_lt_of_le (of_decide_eq_true hz) hxy
    have := Nat.lt_of_succ_lt_succ hlt
    omega
  · intro hlt
    refine Nat.succ_lt_succ (countP_lt_countP ?_ hy (decide_eq_true hlt) (by simp))
    intro z _ hz
    exact decide_eq_true (Int32.lt_trans (of_decide_eq_true hz) hlt)

/-- Equal numbers have differences that fit. -/
theorem differencesFit_replicate (n : Nat) (x : Int32) : DifferencesFit (List.replicate n x) := by
  intro a ha b hb
  rw [List.eq_of_mem_replicate ha, List.eq_of_mem_replicate hb, cmp, Int.sub_self]
  rfl

theorem cmp_nonpos_iff {d : Int} (h : cmp x y = some d) : d ≤ 0 ↔ x ≤ y := by
  obtain ⟨-, rfl⟩ := int_eq_some.mp h
  rw [Int32.le_iff_toInt_le]
  omega

/-- A sort that is as `qsort` is assumed to be. -/
def merge_sort (nums : List Int32) : List Int32 := nums.mergeSort fun a b => decide (a ≤ b)

theorem sortsBy_merge_sort : SortsBy merge_sort := by
  intro nums hfits
  have hperm : (merge_sort nums).Perm nums := List.mergeSort_perm _ _
  have hsorted : (merge_sort nums).Pairwise fun a b => decide (a ≤ b) = true := by
    refine List.pairwise_mergeSort ?_ ?_ nums
    · intro a b c hab hbc
      exact decide_eq_true (Int32.le_trans (of_decide_eq_true hab) (of_decide_eq_true hbc))
    · intro a b
      simpa using Int32.le_total a b
  refine ⟨hperm, List.Pairwise.imp_of_mem ?_ hsorted⟩
  intro a b ha hb hle
  obtain ⟨d, hd⟩ := Option.isSome_iff_exists.mp (hfits a (hperm.subset ha) b (hperm.subset hb))
  exact ⟨d, hd, (cmp_nonpos_iff hd).mpr (of_decide_eq_true hle)⟩

/-- The numbers below `x`, counted by ranks. -/
theorem countP_ranks_lt {rest : List Int32} (hrest : ∀ y ∈ rest, y ∈ nums) :
    ((rest.map (rank nums)).countP fun r => decide (0 < r ∧ r ≤ rank nums x - 1)) =
      rest.countP fun y => decide (y < x) := by
  rw [List.countP_map]
  refine List.countP_congr fun y hy => ?_
  have hlt := rank_lt_iff (x := x) (hrest y hy)
  have hpos := rank_pos nums y
  simp only [Function.comp_apply, decide_eq_true_eq, ← hlt]
  omega

/-- The numbers up to `x`, counted by ranks, and the numbers above it. -/
theorem countP_ranks_le {rest : List Int32} (hx : x ∈ nums) :
    ((rest.map (rank nums)).countP fun r => decide (0 < r ∧ r ≤ rank nums x)) +
      (rest.countP fun y => decide (x < y)) = rest.length := by
  have hsplit := List.length_eq_countP_add_countP (fun y => decide (x < y)) (l := rest)
  have hcount : ((rest.map (rank nums)).countP fun r => decide (0 < r ∧ r ≤ rank nums x)) =
      rest.countP fun y => decide ¬ decide (x < y) = true := by
    rw [List.countP_map]
    refine List.countP_congr fun y _ => ?_
    have hlt := rank_lt_iff (x := y) hx
    have hpos := rank_pos nums y
    simp only [Function.comp_apply, decide_eq_true_eq, ← hlt]
    omega
  omega

section Sorts

variable {qsort : List Int32 → List Int32} (hqsort : SortsBy qsort)

include hqsort

theorem SortsBy.pairwise (hfits : DifferencesFit nums) : (qsort nums).Pairwise (· ≤ ·) := by
  refine (hqsort nums hfits).2.imp ?_
  rintro a b ⟨d, hd, hle⟩
  exact (cmp_nonpos_iff hd).mp hle

/-- The first value of the sorted array is in the array, and nothing lies below it. -/
theorem SortsBy.exists_least (hfits : DifferencesFit nums) (hsome : nums ≠ []) :
    ∃ (i : Nat) (x : Int32), nums[i]? = some x ∧ ∀ y ∈ qsort nums, ¬ y < x := by
  have hperm := (hqsort nums hfits).1
  have hsorted := hqsort.pairwise hfits
  cases hq : qsort nums with
  | nil =>
    rw [hq] at hperm
    exact absurd hperm.symm.eq_nil hsome
  | cons x rest =>
    rw [hq] at hperm hsorted
    obtain ⟨i, hi, hx⟩ := List.getElem_of_mem (hperm.subset List.mem_cons_self)
    refine ⟨i, x, by rw [List.getElem?_eq_getElem hi, hx], ?_⟩
    intro y hy
    obtain rfl | hy := List.mem_cons.mp hy
    · exact Int32.lt_irrefl
    · exact Int32.not_lt.mpr ((List.pairwise_cons.mp hsorted).1 y hy)

/-- Whatever the length, one of the ranks is `1`. -/
theorem SortsBy.exists_rank_one (hfits : DifferencesFit nums) (hsome : nums ≠ []) {rank : List Nat}
    (hrun : ranks (qsort nums) nums = some rank) : ∃ i, i < nums.length ∧ rank[i]? = some 1 := by
  obtain ⟨i, x, hx, hleast⟩ := hqsort.exists_least hfits hsome
  obtain ⟨n, hn, hrank⟩ := mapM_getElem? hrun hx
  obtain ⟨r, hr, hsucc⟩ := Option.bind_eq_some_iff.mp hn
  obtain rfl := search_least hleast hr
  obtain rfl := Option.some_inj.mp hsucc
  obtain ⟨hi, -⟩ := List.getElem?_eq_some_iff.mp hx
  exact ⟨i, hi, hrank⟩

/-- In a large array some rank cannot be entered. -/
theorem SortsBy.exists_overflow (hfits : DifferencesFit nums) (hlarge : 1073741822 < nums.length) {rank : List Nat}
    (hrun : ranks (qsort nums) nums = some rank) :
    ∃ i, i < nums.length ∧ rank[i]? = some 1 ∧ ∀ bit, update bit 1 1 (nums.length + 1) = none := by
  have hsome : nums ≠ [] := by
    rintro rfl
    simp at hlarge
  obtain ⟨i, hi, hone⟩ := hqsort.exists_rank_one hfits hsome hrun
  exact ⟨i, hi, hone, update_overflow (by omega) 1⟩

end Sorts

end csystems.rank_count
