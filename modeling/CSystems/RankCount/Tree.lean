import Mathlib.Algebra.Order.BigOperators.Group.Finset
import Mathlib.Algebra.Order.Ring.Int
import CSystems.Lib.CArray
import CSystems.Lib.Bytes
import CSystems.Lib.Fenwick

open clib.array clib.cint clib.fenwick

namespace csystems.rank_count

def lowbit (x : Int32) : Int32 := x &&& -x

/-- `none` if an index is out of bounds or an addition overflows. -/
def update (bit : Slots Int) (idx : Nat) (val : Int) (size : Nat) : Option (Slots Int) :=
  if idx ≤ size then do
    let v ← read bit idx
    let v ← int (v + val)
    let bit ← write bit idx v
    let next := idx + (lowbit (Int32.ofNat idx)).toInt.toNat
    -- The next index is an `int`. The loop would stay at the index 0 for ever.
    if idx < next ∧ next ≤ 2147483647 then update bit next val size else none
  else some bit
termination_by size + 1 - idx
decreasing_by omega

/-- The loop of `query` from an index and a sum on. -/
def query_loop (bit : Slots Int) (idx : Nat) (sum : Int) : Option Int :=
  if 0 < idx then do
    let v ← read bit idx
    let sum ← int (sum + v)
    let next := idx - (lowbit (Int32.ofNat idx)).toInt.toNat
    if next < idx then query_loop bit next sum else none
  else some sum
termination_by idx
decreasing_by omega

def query (bit : Slots Int) (idx : Nat) : Option Int := query_loop bit idx 0

def cmp (a b : Int32) : Option Int := int (a.toInt - b.toInt)

/-- The loop `while (left <= right)` that looks for the first value of `sorted`
that is not below `x`. -/
def search (sorted : List Int32) (x : Int32) (left : Nat) (right : Int) (r : Nat) : Option Nat :=
  if left ≤ right then
    -- `left + right` is an `int`.
    if 2147483647 < left + right then none
    else do
      let mid := (left + right.toNat) / 2
      let y ← sorted[mid]?
      if y < x then search sorted x (mid + 1) right (mid + 1)
      else search sorted x left (mid - 1) r
  else some r
termination_by (right + 1 - left).toNat

/-- The array `rank`. -/
def ranks (sorted nums : List Int32) : Option (List Nat) :=
  nums.mapM fun x => do
    let r ← search sorted x 0 (nums.length - 1) 0
    some (r + 1)

/-- The array `bit` that `calloc` returns. -/
def empty_bit (maxRank : Nat) : Slots Int := (List.replicate maxRank 0).map some

/-- The differences that `cmp` computes are `int`s. -/
def DifferencesFit (nums : List Int32) : Prop := ∀ a ∈ nums, ∀ b ∈ nums, (cmp a b).isSome

instance (nums : List Int32) : Decidable (DifferencesFit nums) :=
  decidable_of_iff (nums.all fun a => nums.all fun b => (cmp a b).isSome) (by simp [DifferencesFit])

/-- What is assumed of `qsort`: it permutes an array so that its values are in
order for `cmp`, if `cmp` is defined on them. -/
def SortsBy (qsort : List Int32 → List Int32) : Prop :=
  ∀ nums, DifferencesFit nums → (qsort nums).Perm nums ∧ (qsort nums).Pairwise fun a b => ∃ d ∈ cmp a b, d ≤ 0

/-- On the indices of an array `x & -x` is the lowest bit. -/
theorem lowbit_eq {idx : Nat} (hpos : 0 < idx) (hidx : idx ≤ 2147483647) :
    (lowbit (Int32.ofNat idx)).toInt.toNat = clib.fenwick.lowbit idx := by
  have hlt : idx < 2 ^ 32 := by omega
  have hnat : (lowbit (Int32.ofNat idx)).toBitVec.toNat = clib.fenwick.lowbit idx := by
    rw [lowbit, Int32.toBitVec_and, Int32.toBitVec_neg, Int32.toBitVec_ofNat', BitVec.toNat_and, BitVec.toNat_neg,
      BitVec.toNat_ofNat, Nat.mod_eq_of_lt hlt, Nat.mod_eq_of_lt (by omega), and_neg hpos hlt]
  have hle := lowbit_le idx
  rw [← Int32.toInt_toBitVec, BitVec.toInt_eq_toNat_of_lt (by omega), hnat, Int.toNat_natCast]

/-- The values of an array with the indices `0`, .., `size`. -/
def Stores (bit : Slots Int) (size : Nat) (g : Nat → Int) : Prop :=
  bit.length = size + 1 ∧ ∀ i, i ≤ size → read bit i = some (g i)

variable {bit : Slots Int} {size idx : Nat} {g f : Nat → Int} {val : Int}

/-- The values of the cells `1`, .., `size` of an array. -/
def Cells (bit : Slots Int) (size : Nat) (g : Nat → Int) : Prop := ∀ i, 0 < i → i ≤ size → read bit i = some (g i)

/-- The arrays have the same cells outside of `1`, .., `size`. -/
structure SameOutside (size : Nat) (bit bit' : Slots Int) : Prop where
  length : bit'.length = bit.length
  cell : ∀ i, ¬ (0 < i ∧ i ≤ size) → bit'[i]? = bit[i]?

theorem SameOutside.refl (size : Nat) (bit : Slots Int) : SameOutside size bit bit := ⟨rfl, fun _ _ => rfl⟩

theorem SameOutside.trans {bit' bit'' : Slots Int} (h : SameOutside size bit bit') (h' : SameOutside size bit' bit'') :
    SameOutside size bit bit'' :=
  ⟨h'.length.trans h.length, fun i hi => (h'.cell i hi).trans (h.cell i hi)⟩

theorem Cells.write (h : Cells bit size g) (hidx : 0 < idx) (hle : idx ≤ size) (v : Int) :
    ∃ bit', clib.array.write bit idx v = some bit' ∧ Cells bit' size (Function.update g idx v) ∧
      SameOutside size bit bit' := by
  have hlt : idx < bit.length := by
    by_contra hnot
    have hread := h idx hidx hle
    rw [clib.array.read, List.getElem?_eq_none (Nat.le_of_not_lt hnot)] at hread
    cases hread
  refine ⟨bit.set idx (some v), if_pos hlt, fun i hi hsize => ?_, List.length_set, fun i hi => ?_⟩
  · rw [clib.array.read, List.getElem?_set]
    by_cases heq : idx = i
    · subst heq
      rw [if_pos rfl, if_pos hlt, Function.update_self]
      rfl
    · rw [if_neg heq, Function.update_of_ne (fun h => heq h.symm)]
      exact h i hi hsize
  · have hne : idx ≠ i := by
      rintro rfl
      exact hi ⟨hidx, hle⟩
    exact List.getElem?_set_ne hne

/-- The loop adds to the nodes that count its index, and leaves the cells outside of
`1`, .., `size`. -/
theorem update_eq (hsize : size < 1073741824) (hidx : 0 < idx) (h : Cells bit size g)
    (hfits : ∀ i, Covers i idx → i ≤ size → -2147483648 ≤ g i + val ∧ g i + val ≤ 2147483647) :
    ∃ bit', update bit idx val size = some bit' ∧
      (Cells bit' size fun i => g i + if Covers i idx then val else 0) ∧ SameOutside size bit bit' := by
  induction hn : size + 1 - idx using Nat.strongRecOn generalizing idx bit g with
  | ind n ih =>
    by_cases hle : idx ≤ size
    · have hpos := lowbit_pos hidx
      have hupper := lowbit_le idx
      have hbit := lowbit_eq hidx (by omega)
      obtain ⟨hlow, hhigh⟩ := hfits idx ((covers_iff hidx).mpr (Or.inl rfl)) hle
      obtain ⟨bit₁, hwrite, hbit₁, hsame⟩ := h.write hidx hle (g idx + val)
      obtain ⟨bit₂, hrun, hcells, hsame'⟩ := ih (size + 1 - (idx + clib.fenwick.lowbit idx)) (by omega) (by omega)
        hbit₁ (fun i hcovers hi => by
          have hne : i ≠ idx := fun heq => not_covers_of_lt (by omega) hcovers
          rw [Function.update_of_ne hne]
          exact hfits i ((covers_iff hidx).mpr (Or.inr hcovers)) hi) rfl
      refine ⟨bit₂, ?_, fun i hi hsize => ?_, hsame.trans hsame'⟩
      · rw [update, if_pos hle]
        simp only [h idx hidx hle, int_eq hlow hhigh, hwrite, hbit, Option.bind_eq_bind, Option.bind_some]
        rw [if_pos ⟨by omega, by omega⟩, hrun]
      · have hnext := @covers_iff idx i hidx
        rw [hcells i hi hsize]
        dsimp only
        by_cases heq : i = idx
        · subst heq
          rw [Function.update_self, if_neg (not_covers_of_lt (by omega)), if_pos (hnext.mpr (Or.inl rfl)),
            Int.add_zero]
        · rw [Function.update_of_ne heq, if_congr (hnext.trans (or_iff_right heq)) rfl rfl]
    · refine ⟨bit, ?_, fun i hi hsize => ?_, SameOutside.refl size bit⟩
      · rw [update, if_neg hle]
      · have hout : ¬ Covers i idx := not_covers_of_lt (by omega)
        simp only [if_neg hout, Int.add_zero]
        exact h i hi hsize

/-- The loop adds up the nodes on the way down from its index. -/
theorem query_loop_eq (hsize : size ≤ 2147483647) (h : Cells bit size (node f)) (hidx : idx ≤ size) {sum : Int}
    (hfits : ∀ j ∈ down idx, -2147483648 ≤ sum + (total f idx - total f (j - clib.fenwick.lowbit j)) ∧
      sum + (total f idx - total f (j - clib.fenwick.lowbit j)) ≤ 2147483647) :
    query_loop bit idx sum = some (sum + total f idx) := by
  induction idx using Nat.strongRecOn generalizing sum with
  | ind idx ih =>
    rw [query_loop]
    by_cases hpos : 0 < idx
    · have hstep := total_eq f idx
      have hbit := lowbit_eq hpos (by omega)
      have hlow := lowbit_pos hpos
      rw [down_of_pos hpos] at hfits
      have hfirst := hfits idx List.mem_cons_self
      have hnode : int (sum + node f idx) = some (sum + node f idx) := int_eq (by omega) (by omega)
      rw [if_pos hpos]
      simp only [h idx hpos hidx, hnode, hbit, Option.bind_eq_bind, Option.bind_some]
      rw [if_pos (by omega), ih _ (by omega) (by omega) fun j hj => ?_, hstep, Int.add_assoc]
      have hlater := hfits j (List.mem_cons_of_mem idx hj)
      omega
    · obtain rfl : idx = 0 := by omega
      rw [if_neg hpos, total_zero, Int.add_zero]

theorem Stores.cells (h : Stores bit size g) : Cells bit size g := fun i _ hi => h.2 i hi

section Weight

/-- How often each rank was entered. -/
def weight (entered : List Nat) (p : Nat) : Int := entered.count p

variable {entered : List Nat}

theorem weight_cons (r : Nat) (entered : List Nat) : weight (r :: entered) = weight entered + Pi.single r 1 := by
  funext p
  rw [weight, List.count_cons, Pi.add_apply, Pi.single_apply, weight]
  by_cases heq : p = r
  · simp [heq]
  · have hne : ¬ r = p := fun h => heq h.symm
    simp [heq, hne]

/-- A sum counts the ranks up to its index. -/
theorem total_weight (entered : List Nat) (i : Nat) :
    total (weight entered) i = entered.countP fun r => decide (0 < r ∧ r ≤ i) := by
  induction entered with
  | nil =>
    rw [total, List.countP_nil]
    exact Finset.sum_eq_zero fun p _ => rfl
  | cons r entered ih =>
    rw [weight_cons, total_add_single, ih, List.countP_cons]
    by_cases hr : 0 < r ∧ r ≤ i
    · rw [if_pos hr, if_pos (decide_eq_true hr)]
      rfl
    · rw [if_neg hr, if_neg (by simpa using hr)]
      rfl

theorem node_weight_nonneg (entered : List Nat) (i : Nat) : 0 ≤ node (weight entered) i :=
  Finset.sum_nonneg fun _ _ => Int.natCast_nonneg _

theorem total_weight_nonneg (entered : List Nat) (i : Nat) : 0 ≤ total (weight entered) i :=
  Finset.sum_nonneg fun _ _ => Int.natCast_nonneg _

theorem total_weight_mono (entered : List Nat) {i k : Nat} (h : k ≤ i) :
    total (weight entered) k ≤ total (weight entered) i := by
  rw [total_weight, total_weight]
  refine Int.ofNat_le.mpr (List.countP_mono_left fun r _ hr => decide_eq_true ?_)
  have hup := of_decide_eq_true hr
  omega

theorem total_weight_le (entered : List Nat) (i : Nat) : total (weight entered) i ≤ entered.length := by
  rw [total_weight]
  exact Int.ofNat_le.mpr List.countP_le_length

theorem node_weight_le (entered : List Nat) (i : Nat) : node (weight entered) i ≤ entered.length := by
  have hstep := total_eq (weight entered) i
  have hrest := total_weight_nonneg entered (i - clib.fenwick.lowbit i)
  have hle := total_weight_le entered i
  omega

theorem stores_empty (size : Nat) : Stores (empty_bit (size + 1)) size (node (weight [])) := by
  refine ⟨by rw [empty_bit, List.length_map, List.length_replicate], ?_⟩
  intro i hi
  have hzero : node (weight []) i = 0 := Finset.sum_eq_zero fun p _ => rfl
  rw [empty_bit, read_map_some, List.getElem?_replicate_of_lt (by omega), hzero]

/-- Entering a rank. -/
theorem update_weight (hsize : size < 1073741824) (h : Stores bit size (node (weight entered)))
    (hroom : entered.length < 2147483647) {r : Nat} (hr : 0 < r) :
    ∃ bit', update bit r 1 size = some bit' ∧ Stores bit' size (node (weight (r :: entered))) := by
  have hfits : ∀ i, Covers i r → i ≤ size →
      -2147483648 ≤ node (weight entered) i + 1 ∧ node (weight entered) i + 1 ≤ 2147483647 := by
    intro i _ _
    have hnonneg := node_weight_nonneg entered i
    have hle := node_weight_le entered i
    omega
  obtain ⟨bit', hrun, hcells, hsame⟩ := update_eq hsize hr h.cells hfits
  have hnode (i : Nat) :
      node (weight (r :: entered)) i = node (weight entered) i + if Covers i r then 1 else 0 := by
    rw [weight_cons, node_add_single]
  refine ⟨bit', hrun, hsame.length.trans h.1, fun i hi => ?_⟩
  rw [hnode]
  rcases Nat.eq_zero_or_pos i with rfl | hpos
  · -- no loop comes to the cell 0
    rw [if_neg (not_covers_of_lt hr), Int.add_zero, ← h.2 0 hi]
    exact congrArg Option.join (hsame.cell 0 (by omega))
  · exact hcells i hpos hi

/-- Counting the ranks up to an index. -/
theorem query_weight (hsize : size ≤ 2147483647) (h : Stores bit size (node (weight entered)))
    (hroom : entered.length ≤ 2147483647) {i : Nat} (hi : i ≤ size) :
    query bit i = some (entered.countP (fun r => decide (0 < r ∧ r ≤ i)) : Int) := by
  have hle := total_weight_le entered i
  rw [query, query_loop_eq hsize h.cells hi fun j hj => ?_, Int.zero_add, total_weight]
  have hrest := total_weight_nonneg entered (j - clib.fenwick.lowbit j)
  have hdown := le_of_mem_down hj
  have hmono : total (weight entered) (j - clib.fenwick.lowbit j) ≤ total (weight entered) i :=
    total_weight_mono entered (by omega)
  omega

end Weight

/-- In a larger tree the way up from the first position leaves the `int`s. -/
theorem update_overflow (hsize : 1073741824 ≤ size) (val : Int) (bit : Slots Int) : update bit 1 val size = none := by
  -- By induction on how many powers of two are left up to `2^30`.
  have hpath (j k : Nat) (hk : k + j = 30) (bit : Slots Int) : update bit (2 ^ k) val size = none := by
    induction j generalizing k bit with
    | zero =>
      obtain rfl : k = 30 := hk
      have hbit := lowbit_eq (show 0 < 2 ^ 30 by decide) (by decide)
      rw [lowbit_two_pow] at hbit
      have hout : ¬ (2 ^ 30 < 2 ^ 30 + 2 ^ 30 ∧ 2 ^ 30 + 2 ^ 30 ≤ 2147483647) := by omega
      rw [update, if_pos (by omega)]
      simp only [hbit, if_neg hout, Option.bind_eq_bind, Option.bind_fun_none]
    | succ j ih =>
      have hle : 2 ^ k ≤ 2 ^ 30 := Nat.pow_le_pow_right (by decide) (by omega)
      have hbit := lowbit_eq (Nat.two_pow_pos k) (by omega)
      rw [lowbit_two_pow] at hbit
      have hnext : 2 ^ k + 2 ^ k = 2 ^ (k + 1) := by rw [Nat.pow_succ']; omega
      have hrest (bit : Slots Int) := ih (k + 1) (by omega) bit
      rw [update, if_pos (by omega)]
      simp only [hbit, hnext, hrest, ite_self, Option.bind_eq_bind, Option.bind_fun_none]
  exact hpath 30 0 rfl bit

end csystems.rank_count
