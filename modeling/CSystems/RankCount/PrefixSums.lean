import CSystems.Lib.Run
import CSystems.RankCount.Tree

open clib.array clib.cint clib.fenwick clib.run

namespace csystems.rank_count

/-- The arguments `idx` and `val` of a call of `update`. -/
structure update_t where
  idx : Nat
  val : Int

/-- Calls of `update` for a tree of size `n`, one after the other. -/
def update_all (n : Nat) (bit : Slots Int) (calls : List update_t) : Option (Slots Int) :=
  calls.foldlM (fun bit c => update bit c.idx c.val n) bit

/-- The sum of the values of the calls whose index meets a condition. -/
def sum_of (calls : List update_t) (p : Nat → Prop) [DecidablePred p] : Int :=
  ((calls.filter fun c => p c.idx).map update_t.val).sum

/-- The sums that the calls and then `query` at `i` compute are `int`s: what each call
leaves in the cells, and what the query has added up after each cell. -/
structure Fits (n : Nat) (calls : List update_t) (i : Nat) : Prop where
  cells : ∀ past, past <+: calls → ∀ j, 0 < j → j ≤ n → (int (sum_of past (Covers j))).isSome
  sums : ∀ j ∈ down i, (int (sum_of calls fun p => j - clib.fenwick.lowbit j < p ∧ p ≤ i)).isSome

section Sums

variable {calls : List update_t} {p q : Nat → Prop} [DecidablePred p] [DecidablePred q]

theorem sum_of_cons (c : update_t) (calls : List update_t) (p : Nat → Prop) [DecidablePred p] :
    sum_of (c :: calls) p = sum_of calls p + if p c.idx then c.val else 0 := by
  by_cases hc : p c.idx
  · simp [sum_of, hc, Int.add_comm]
  · simp [sum_of, hc]

theorem sum_of_congr (h : ∀ c ∈ calls, p c.idx ↔ q c.idx) : sum_of calls p = sum_of calls q := by
  rw [sum_of, sum_of, List.filter_congr fun c hc => decide_eq_decide.mpr (h c hc)]

/-- A sum up to `i` in two parts. -/
theorem sum_of_add (calls : List update_t) {k i : Nat} (h : k ≤ i) :
    sum_of calls (fun p => 0 < p ∧ p ≤ k) + sum_of calls (fun p => k < p ∧ p ≤ i) =
      sum_of calls fun p => 0 < p ∧ p ≤ i := by
  induction calls with
  | nil => rfl
  | cons c calls ih =>
    rw [sum_of_cons, sum_of_cons, sum_of_cons, ← ih]
    split <;> split <;> split <;> omega

/-- What the calls add at each position. -/
def amount (calls : List update_t) : Nat → Int := (calls.map fun c => Pi.single c.idx c.val).sum

theorem amount_cons (c : update_t) (calls : List update_t) :
    amount (c :: calls) = amount calls + Pi.single c.idx c.val := by
  rw [amount, List.map_cons, List.sum_cons, add_comm, amount]

theorem amount_concat (calls : List update_t) (c : update_t) :
    amount (calls ++ [c]) = amount calls + Pi.single c.idx c.val := by
  rw [amount, List.map_append, List.sum_append, List.map_singleton, List.sum_singleton, amount]

theorem node_amount (calls : List update_t) (j : Nat) : node (amount calls) j = sum_of calls (Covers j) := by
  induction calls with
  | nil => exact Finset.sum_eq_zero fun p _ => rfl
  | cons c calls ih => rw [amount_cons, node_add_single, sum_of_cons, ih]

theorem total_amount (calls : List update_t) (i : Nat) :
    total (amount calls) i = sum_of calls fun p => 0 < p ∧ p ≤ i := by
  induction calls with
  | nil => exact Finset.sum_eq_zero fun p _ => rfl
  | cons c calls ih => rw [amount_cons, total_add_single, sum_of_cons, ih]

theorem total_amount_sub (calls : List update_t) {k i : Nat} (h : k ≤ i) :
    total (amount calls) i - total (amount calls) k = sum_of calls fun p => k < p ∧ p ≤ i := by
  have hsum := sum_of_add calls h
  rw [total_amount, total_amount]
  omega

end Sums

section Bounds

variable {calls : List update_t}

theorem natAbs_sum_of_le (calls : List update_t) (p : Nat → Prop) [DecidablePred p] :
    (sum_of calls p).natAbs ≤ (calls.map fun c => c.val.natAbs).sum := by
  induction calls with
  | nil => exact Nat.le_refl 0
  | cons c calls ih =>
    rw [sum_of_cons, List.map_cons, List.sum_cons]
    split <;> omega

/-- Values that are small altogether make no sum overflow. -/
theorem fits_of_le (n i : Nat) (hle : (calls.map fun c => c.val.natAbs).sum ≤ 2147483647) : Fits n calls i := by
  refine ⟨fun past hpast j _ _ => isSome_int.mpr ?_, fun j _ => isSome_int.mpr ?_⟩
  · have hsub := ((hpast.sublist).map fun c : update_t => c.val.natAbs).sum_le_sum fun _ _ => Nat.zero_le _
    have habs := natAbs_sum_of_le past (Covers j)
    omega
  · have habs := natAbs_sum_of_le calls fun p => j - clib.fenwick.lowbit j < p ∧ p ≤ i
    omega

end Bounds

section Runs

variable {n i : Nat} {bit : Slots Int} {calls : List update_t}

/-- After the calls every cell holds the sum of its node, and no other cell has changed. -/
theorem update_all_eq (hn : n < 1073741824) (hzero : ∀ j, 0 < j → j ≤ n → read bit j = some 0)
    (hidx : ∀ c ∈ calls, 0 < c.idx)
    (hfits : ∀ past, past <+: calls → ∀ j, 0 < j → j ≤ n → (int (sum_of past (Covers j))).isSome) :
    ∃ bit', update_all n bit calls = some bit' ∧ Cells bit' n (node (amount calls)) ∧ SameOutside n bit bit' := by
  have hinit : Cells bit n (node (amount [])) := fun j hj hle => (hzero j hj hle).trans
    (congrArg some (Finset.sum_eq_zero fun p _ => rfl).symm)
  refine foldlM_history (fun past bit' => Cells bit' n (node (amount past)) ∧ SameOutside n bit bit')
    ⟨hinit, SameOutside.refl n bit⟩ ?_
  rintro past c bit₁ hnow ⟨hcells, hsame⟩
  have hpos : 0 < c.idx := hidx c (hnow.subset (by simp))
  have hnode (j : Nat) :
      node (amount (past ++ [c])) j = node (amount past) j + if Covers j c.idx then c.val else 0 := by
    rw [amount_concat, node_add_single]
  obtain ⟨bit₂, hrun, hcells', hsame'⟩ := update_eq hn hpos hcells fun j hcovers hj => by
    have hj0 : 0 < j := Nat.lt_of_lt_of_le hpos hcovers.2
    have hstep := hnode j
    rw [if_pos hcovers, node_amount] at hstep
    rw [← hstep]
    exact isSome_int.mp (hfits _ hnow j hj0 hj)
  refine ⟨bit₂, hrun, fun j hj hle => ?_, hsame.trans hsame'⟩
  rw [hnode]
  exact hcells' j hj hle

/-- On an array whose cells `1`, .., `n` are zero the calls and a query after them run,
and the query returns the sum of the values with an index up to its own. The other cells
of the array may be missing or hold nothing, and stay what they are: no loop touches them. -/
theorem query_eq_sum (hn : n < 1073741824) (hzero : ∀ j, 0 < j → j ≤ n → read bit j = some 0)
    (hidx : ∀ c ∈ calls, 0 < c.idx) (hi : i ≤ n) (hfits : Fits n calls i) :
    ∃ bit', update_all n bit calls = some bit' ∧ query bit' i = some (sum_of calls (· ≤ i)) ∧
      SameOutside n bit bit' := by
  obtain ⟨bit', hrun, hcells, hsame⟩ := update_all_eq hn hzero hidx hfits.cells
  have hsum : total (amount calls) i = sum_of calls (· ≤ i) := by
    rw [total_amount]
    exact sum_of_congr fun c hc => and_iff_right (hidx c hc)
  refine ⟨bit', hrun, ?_, hsame⟩
  rw [query, query_loop_eq (by omega) hcells hi fun j hj => ?_, Int.zero_add, hsum]
  have hle := le_of_mem_down hj
  rw [Int.zero_add, total_amount_sub calls (Nat.le_trans (Nat.sub_le j _) hle)]
  exact isSome_int.mp (hfits.sums j hj)

theorem query_eq_sum_four :
    ∃ bit', update_all 4 [none, some 0, some 0, some 0, some 0] [⟨1, 5⟩, ⟨3, -2⟩, ⟨4, 1⟩] = some bit' ∧
      query bit' 3 = some 3 ∧ SameOutside 4 [none, some 0, some 0, some 0, some 0] bit' := by
  refine query_eq_sum (by decide) ?_ (by simp) (by decide) (fits_of_le 4 3 (by decide))
  intro j hj hle
  obtain rfl | rfl | rfl | rfl : j = 1 ∨ j = 2 ∨ j = 3 ∨ j = 4 := by omega
  all_goals rfl

end Runs

end csystems.rank_count
