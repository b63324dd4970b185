import Mathlib.Data.List.Sort
import CSystems.RankCount.Compression

open clib.cint

namespace csystems.rank_count

/-- `cmp` compiled to a subtraction that wraps. -/
def wrapping_cmp (a b : Int32) : Int32 := a - b

/-- Every order in which `cmp` reports no positive result is the usual one, and gives
every number its rank. -/
def RanksRight (nums : List Int32) : Prop :=
  ∀ sorted, sorted.Perm nums → sorted.Pairwise (fun a b => wrapping_cmp a b ≤ 0) →
    sorted.Pairwise (· ≤ ·) ∧ ranks sorted nums = some (nums.map (rank nums))

/-- `cmp` lets the number `s` be the first. -/
def First (nums : List Int32) (s : Int32) : Prop := s ∈ nums ∧ ∀ x ∈ nums, wrapping_cmp s x ≤ 0

variable {sorted nums : List Int32} {a b s x : Int32}

/-- The sign is wrong for differences out of range, and for `-2147483648` the other way round. -/
theorem wrapping_cmp_nonpos_iff : wrapping_cmp a b ≤ 0 ↔
    -2147483648 ≤ a.toInt - b.toInt ∧ a.toInt - b.toInt ≤ 0 ∨ 2147483648 ≤ a.toInt - b.toInt := by
  have hlow := a.le_toInt
  have hhigh := a.toInt_lt
  have hlow' := b.le_toInt
  have hhigh' := b.toInt_lt
  rw [Int32.le_iff_toInt_le, wrapping_cmp, Int32.toInt_sub, Int.bmod]
  simp only [Int32.toInt_zero]
  split <;> omega

theorem wrapping_cmp_self (a : Int32) : wrapping_cmp a a ≤ 0 :=
  wrapping_cmp_nonpos_iff.mpr (.inl (by omega))

/-- Where the difference is an `int`, nothing wraps. -/
theorem toInt_wrapping_cmp {d : Int} (h : cmp a b = some d) : (wrapping_cmp a b).toInt = d := by
  obtain ⟨⟨hlow, hhigh⟩, rfl⟩ := int_eq_some.mp h
  rw [wrapping_cmp, Int32.toInt_sub]
  exact Int.bmod_eq_of_le (by omega) (by omega)

section Orders

variable (hperm : sorted.Perm nums) (hcmp : sorted.Pairwise fun a b => wrapping_cmp a b ≤ 0)

include hperm hcmp

theorem first_getElem_zero (hlength : 0 < sorted.length) : First nums sorted[0] := by
  refine ⟨hperm.subset (List.getElem_mem hlength), fun x hx => ?_⟩
  obtain ⟨k, hk, rfl⟩ := List.getElem_of_mem (hperm.symm.subset hx)
  obtain rfl | hpos := Nat.eq_zero_or_pos k
  · exact wrapping_cmp_self _
  · exact List.pairwise_iff_getElem.mp hcmp 0 k hlength hk hpos

/-- After a least number the others are in the usual order, or one that comes too early
could be first as well: its difference from the least number is `2147483648`, and there is
no number between the two. -/
theorem first_of_lt {i j : Nat} (hij : i < j) (hj : j < sorted.length) (hleast : ∀ x ∈ nums, sorted[0] ≤ x)
    (hlt : sorted[j] < sorted[i]) : First nums sorted[i] := by
  have hi : i < sorted.length := by omega
  have hget := List.pairwise_iff_getElem.mp hcmp
  have hmin : ∀ k (hk : k < sorted.length), (sorted[0]).toInt ≤ (sorted[k]).toInt := fun k hk =>
    Int32.le_iff_toInt_le.mp (hleast _ (hperm.subset (List.getElem_mem hk)))
  rw [Int32.lt_iff_toInt_lt] at hlt
  have hpos : 0 < i := by
    by_contra hnot
    obtain rfl := Nat.eq_zero_of_not_pos hnot
    exact absurd (hmin j hj) (by omega)
  have hfar : (sorted[j]).toInt = (sorted[0]).toInt ∧ (sorted[i]).toInt = (sorted[0]).toInt + 2147483648 := by
    have hbefore := wrapping_cmp_nonpos_iff.mp (hget i j hi hj hij)
    have hafter := wrapping_cmp_nonpos_iff.mp (hget 0 i (by omega) hi hpos)
    have hle := hmin j hj
    omega
  refine ⟨hperm.subset (List.getElem_mem hi), fun x hx => ?_⟩
  obtain ⟨k, hk, rfl⟩ := List.getElem_of_mem (hperm.symm.subset hx)
  obtain hki | rfl | hki := Nat.lt_trichotomy k i
  · have hbefore := wrapping_cmp_nonpos_iff.mp (hget k j hk hj (by omega))
    have hle := hmin k hk
    have hlow := (sorted[0]).le_toInt
    have hhigh := (sorted[k]).toInt_lt
    rw [wrapping_cmp_nonpos_iff]
    omega
  · exact wrapping_cmp_self _
  · exact hget i k hi hk hki

/-- If only a least number can be first, `cmp` sorts into the usual order. -/
theorem pairwise_le (hleast : ∀ s, First nums s → ∀ x ∈ nums, s ≤ x) : sorted.Pairwise (· ≤ ·) := by
  rw [List.pairwise_iff_getElem]
  intro i j hi hj hij
  by_contra hnot
  have hmin := hleast _ (first_getElem_zero hperm hcmp (by omega))
  have hfirst := first_of_lt hperm hcmp hij hj hmin (Int32.not_le.mp hnot)
  exact hnot (hleast _ hfirst _ (hperm.subset (List.getElem_mem hj)))

end Orders

/-- How far up from `s` the number `x` lies, around the end of the type if need be. -/
def distance (s x : Int32) : Int := (x.toInt - s.toInt) % 4294967296

theorem First.distance_le (hs : First nums s) (hx : x ∈ nums) : distance s x ≤ 2147483648 := by
  have hcmp := wrapping_cmp_nonpos_iff.mp (hs.2 x hx)
  have hlow := x.le_toInt
  have hhigh := s.toInt_lt
  rw [distance]
  omega

theorem wrapping_cmp_of_distance (hle : distance s a ≤ distance s b) (hb : distance s b ≤ 2147483648) :
    wrapping_cmp a b ≤ 0 := by
  have hlow := a.le_toInt
  have hhigh := b.toInt_lt
  rw [wrapping_cmp_nonpos_iff]
  simp only [distance] at hle hb
  omega

/-- A number that can be first is first in some order: the others follow it in the order of
their distances. -/
theorem First.exists_sorted (hs : First nums s) :
    ∃ rest, (s :: rest).Perm nums ∧ (s :: rest).Pairwise fun a b => wrapping_cmp a b ≤ 0 := by
  let nearer := Order.Preimage (distance s) (· ≤ ·)
  have hperm : (s :: (nums.erase s).mergeSort (nearer · ·)).Perm nums :=
    ((List.mergeSort_perm _ _).cons s).trans (List.perm_cons_erase hs.1).symm
  have hmem : ∀ x ∈ (nums.erase s).mergeSort (nearer · ·), x ∈ nums := fun x hx =>
    hperm.subset (List.mem_cons_of_mem s hx)
  refine ⟨_, hperm, List.pairwise_cons.mpr ⟨fun x hx => hs.2 x (hmem x hx), ?_⟩⟩
  refine (List.pairwise_mergeSort' nearer (nums.erase s)).imp_of_mem ?_
  intro a b _ hb hle
  exact wrapping_cmp_of_distance hle (hs.distance_le (hmem b hb))

/-- The ranks are right where no difference overflows. -/
theorem ranksRight_of_differencesFit (hfits : DifferencesFit nums) (hroom : nums.length ≤ 1073741824) :
    RanksRight nums := by
  intro sorted hperm hcmp
  have hsorted := pairwise_le hperm hcmp fun s hs x hx => by
    obtain ⟨d, hd⟩ := Option.isSome_iff_exists.mp (hfits s hs.1 x hx)
    have hle := Int32.le_iff_toInt_le.mp (hs.2 x hx)
    rw [toInt_wrapping_cmp hd] at hle
    exact (cmp_nonpos_iff hd).mp hle
  exact ⟨hsorted, ranks_eq hsorted hperm hroom⟩

/-- When only a least number can be first, told from the ends of the range of the numbers. -/
theorem least_of_first_iff {low high : Int32} (hlow : low ∈ nums) (hhigh : high ∈ nums)
    (hrange : ∀ x ∈ nums, low ≤ x ∧ x ≤ high) : (∀ s, First nums s → ∀ x ∈ nums, s ≤ x) ↔
      high.toInt - low.toInt < 2147483648 ∨
      (high.toInt - low.toInt = 2147483648 ∧ ∃ m ∈ nums, low < m ∧ m < high) ∨ ∀ s, ¬ First nums s := by
  simp only [Int32.le_iff_toInt_le, Int32.lt_iff_toInt_lt] at hrange ⊢
  constructor
  · intro hleast
    obtain hnear | hfar | hfar := Int.lt_trichotomy (high.toInt - low.toInt) 2147483648
    · exact .inl hnear
    · refine .inr (.inl ⟨hfar, ?_⟩)
      by_contra hnone
      -- With no number in between the high one can be first.
      have hfirst : First nums high := by
        refine ⟨hhigh, fun x hx => wrapping_cmp_nonpos_iff.mpr ?_⟩
        have hx' := hrange x hx
        have hnot : ¬ (low.toInt < x.toInt ∧ x.toInt < high.toInt) := fun hbetween => hnone ⟨x, hx, hbetween⟩
        omega
      have hle := hleast high hfirst low hlow
      omega
    · refine .inr (.inr fun s hs => ?_)
      have hle := hleast s hs low hlow
      have hcmp := wrapping_cmp_nonpos_iff.mp (hs.2 high hhigh)
      omega
  · rintro (hnear | ⟨hfar, m, hm, hbetween⟩ | hnone) s hs x hx
    · have hs' := hrange s hs.1
      have hx' := hrange x hx
      have hcmp := wrapping_cmp_nonpos_iff.mp (hs.2 x hx)
      omega
    · have hs' := hrange s hs.1
      have hx' := hrange x hx
      have hcmp := wrapping_cmp_nonpos_iff.mp (hs.2 x hx)
      have hcmp' := wrapping_cmp_nonpos_iff.mp (hs.2 m hm)
      omega
    · exact absurd hs (hnone s)

/-- When the ranks are right: only a least number can be first for `cmp`, and no binary
search overflows. -/
theorem ranksRight_iff (nums : List Int32) : RanksRight nums ↔
    ∀ s, First nums s → (∀ x ∈ nums, s ≤ x) ∧
      ∀ x ∈ nums, ∀ m ∈ probes (below nums x) 0 (nums.length - 1), m < 1073741824 := by
  constructor
  · intro hright s hs
    obtain ⟨rest, hperm, hcmp⟩ := hs.exists_sorted
    obtain ⟨hsorted, hranks⟩ := hright _ hperm hcmp
    refine ⟨fun x hx => ?_, (ranks_eq_iff hsorted hperm).mp hranks⟩
    obtain rfl | hx := List.mem_cons.mp (hperm.symm.subset hx)
    · exact Int32.le_refl x
    · exact (List.pairwise_cons.mp hsorted).1 x hx
  · intro hfirst sorted hperm hcmp
    have hsorted := pairwise_le hperm hcmp fun s hs => (hfirst s hs).1
    refine ⟨hsorted, (ranks_eq_iff hsorted hperm).mpr fun x hx => ?_⟩
    have hlength := List.length_pos_of_mem (hperm.symm.subset hx)
    exact (hfirst _ (first_getElem_zero hperm hcmp hlength)).2 x hx

/-- `cmp` leaves the largest number before the smallest one, and both get the rank `1`. -/
theorem not_ranksRight_extremes : ¬ RanksRight [2147483647, -2147483648] ∧
    ranks [2147483647, -2147483648] [2147483647, -2147483648] = some [1, 1] ∧
    rank [2147483647, -2147483648] 2147483647 = 2 := by
  have hranks : ranks [2147483647, -2147483648] [2147483647, -2147483648] = some [1, 1] := by
    simp [ranks, search]
  refine ⟨fun hright => ?_, hranks, by decide⟩
  have hexpected := (hright _ (.refl _) (by decide)).2
  rw [hranks] at hexpected
  revert hexpected
  decide

end csystems.rank_count
