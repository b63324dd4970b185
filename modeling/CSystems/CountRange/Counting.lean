import Mathlib.Data.List.TakeWhile
import CSystems.Lib.SortedList
import CSystems.CountRange.MergeSort

open clib.array clib.cint clib.pair_count clib.sorted_list

namespace csystems.count_range

section Pointers

variable {sums cache : Slots Int} {ys C : List Int} {q : Int → Bool} {p : Int → Option Bool} {k t n : Nat} {x y : Int}

/-- A pointer passes the values below its bound. -/
theorem advance_eq (h : Reads sums k ys) (hp : ∀ y ∈ ys, p y = some (q y)) :
    advance sums (k + ys.length) p k = some (k + (ys.takeWhile q).length) := by
  induction ys generalizing k with
  | nil => rw [advance, if_neg (by simp)]; rfl
  | cons y ys ih =>
    have hrest := ih h.tail fun z hz => hp z (List.mem_cons_of_mem y hz)
    have hlength : k + (y :: ys).length = k + 1 + ys.length := by
      rw [List.length_cons]
      omega
    rw [advance, if_pos (by simp), h.head, Option.bind_eq_bind, Option.bind_some, hp y List.mem_cons_self,
      Option.bind_eq_bind, Option.bind_some]
    by_cases hy : q y = true
    · rw [if_pos hy, hlength, hrest, List.takeWhile_cons_of_pos hy, List.length_cons, Option.some_inj]
      omega
    · rw [if_neg hy, List.takeWhile_cons_of_neg hy]
      rfl

/-- The values below `x` move behind those in the cache. -/
theorem drain_eq (h : Reads sums t ys) (hcache : Holds cache n C) (hroom : C.length + ys.length ≤ n) :
    ∃ cache', drain sums (t + ys.length) x t C.length cache =
        some (t + (ys.takeWhile fun y => decide (y < x)).length,
          C.length + (ys.takeWhile fun y => decide (y < x)).length, cache') ∧
      Holds cache' n (C ++ ys.takeWhile fun y => decide (y < x)) := by
  induction ys generalizing t cache C with
  | nil =>
    refine ⟨cache, ?_, by simpa using hcache⟩
    rw [drain, if_neg (by simp)]
    rfl
  | cons y ys ih =>
    rw [List.length_cons] at hroom
    have hlength : t + (y :: ys).length = t + 1 + ys.length := by
      rw [List.length_cons]
      omega
    by_cases hy : y < x
    · obtain ⟨cache₁, hwrite, hcache₁⟩ := hcache.write_end (by omega) y
      have hconcat : (C ++ [y]).length = C.length + 1 := List.length_append
      obtain ⟨cache₂, hrun, hcache₂⟩ := ih h.tail hcache₁ (by omega)
      refine ⟨cache₂, ?_, ?_⟩
      · rw [drain, if_pos (by simp), h.head, Option.bind_eq_bind, Option.bind_some, if_pos hy, hwrite,
          Option.bind_eq_bind, Option.bind_some, hlength, ← hconcat, hrun,
          List.takeWhile_cons_of_pos (p := fun y => decide (y < x)) (decide_eq_true hy), List.length_cons, hconcat]
        simp only [Option.some.injEq, Prod.mk.injEq, and_true]
        omega
      · rwa [List.takeWhile_cons_of_pos (p := fun y => decide (y < x)) (decide_eq_true hy), List.append_cons]
    · have hneg : ¬ decide (y < x) = true := by simpa using hy
      refine ⟨cache, ?_, by rwa [List.takeWhile_cons_of_neg (p := fun y => decide (y < x)) hneg, List.append_nil]⟩
      rw [drain, if_pos (by simp), h.head, Option.bind_eq_bind, Option.bind_some, if_neg hy,
        List.takeWhile_cons_of_neg (p := fun y => decide (y < x)) hneg]
      rfl

end Pointers

/-- A pointer into the right half that passed no value it must not pass for the
rest `xs` of the left half. -/
def Passed (q : Int → Int → Bool) (xs ys : List Int) (mid ptr : Nat) : Prop :=
  ∃ m, m ≤ ys.length ∧ ptr = mid + m ∧ ∀ x ∈ xs, ∀ y ∈ ys.take m, q x y = true

theorem Passed.advance {sums : Slots Int} {q : Int → Int → Bool} {p : Int → Option Bool} {xs ys : List Int}
    {x : Int} {mid ptr : Nat} (h : Passed q (x :: xs) ys mid ptr) (hreads : Reads sums mid ys)
    (hsorted : ys.Pairwise (· ≤ ·)) (hx : ∀ z ∈ xs, x ≤ z) (hp : ∀ y ∈ ys, p y = some (q x y))
    (hdown : ∀ y z, y ≤ z → q x z → q x y) (hup : ∀ y z, x ≤ z → q x y → q z y) :
    advance sums (mid + ys.length) p ptr = some (mid + ys.countP (q x)) ∧
      Passed q xs ys mid (mid + ys.countP (q x)) := by
  obtain ⟨m, hm, rfl, hpassed⟩ := h
  have hcount := length_takeWhile_eq_countP hsorted hdown
  constructor
  · have hrest := advance_eq (hreads.drop hm) fun y hy => hp y (List.mem_of_mem_drop hy)
    have hsplit : (ys.take m ++ ys.drop m).takeWhile (q x) = ys.take m ++ (ys.drop m).takeWhile (q x) :=
      List.takeWhile_append_of_pos (hpassed x List.mem_cons_self)
    have hlength := congrArg List.length hsplit
    rw [List.take_append_drop, List.length_append, List.length_take, Nat.min_eq_left hm, hcount] at hlength
    rw [List.length_drop, show mid + m + (ys.length - m) = mid + ys.length by omega] at hrest
    rw [hrest, hlength, Nat.add_assoc]
  · refine ⟨ys.countP (q x), List.countP_le_length, rfl, ?_⟩
    intro z hz y hy
    rw [← hcount, ← List.prefix_iff_eq_take.mp (List.takeWhile_prefix _)] at hy
    exact hup y z (hx z hz) (List.mem_takeWhile_imp hy)

/-- Between the two pointers lie the values in the range. -/
theorem countP_between {lower upper x : Int} (hle : lower ≤ upper) (ys : List Int) :
    (ys.countP fun y => decide (y - x ≤ upper)) =
      (ys.countP fun y => decide (y - x < lower)) + ys.countP (in_range lower upper x) := by
  induction ys with
  | nil => rfl
  | cons y ys ih =>
    rw [List.countP_cons, List.countP_cons, List.countP_cons, ih]
    by_cases hlow : y - x < lower
    · have hhigh : y - x ≤ upper := by omega
      have hout : in_range lower upper x y = false := decide_eq_false (by omega)
      rw [decide_eq_true hhigh, decide_eq_true hlow, hout, if_pos rfl, if_neg (by decide)]
      omega
    · rw [decide_eq_false hlow]
      by_cases hhigh : y - x ≤ upper
      · have hin : in_range lower upper x y = true := decide_eq_true ⟨by omega, hhigh⟩
        rw [decide_eq_true hhigh, hin, if_pos rfl, if_neg (by decide)]
        omega
      · have hout : in_range lower upper x y = false := decide_eq_false (by omega)
        rw [decide_eq_false hhigh, hout, if_neg (by decide)]
        omega

/-- Values whose differences a `long` holds. -/
def Small (xs : List Int) : Prop := ∀ x ∈ xs, -2305843009213693952 ≤ x ∧ x ≤ 2305843009213693952

/-- The loop over the left half `xs` before its step `i`. -/
structure Merging (xs ys : List Int) (lower upper : Int) (mid n : Nat) (start : Int) (i : Nat) (s : merge_t) :
    Prop where
  k : Passed (fun x y => decide (y - x < lower)) (xs.drop i) ys mid s.k
  j : Passed (fun x y => decide (y - x ≤ upper)) (xs.drop i) ys mid s.j
  merged : ∃ m C, m ≤ ys.length ∧ s.t = mid + m ∧ s.r = C.length ∧ C.length = i + m ∧ Holds s.cache n C ∧
    C ++ (xs.drop i).merge (ys.drop m) (fun a b => decide (a ≤ b)) = xs.merge ys fun a b => decide (a ≤ b)
  count : s.count = start + across (in_range lower upper) (xs.take i) ys

section Merging

variable {sums : Slots Int} {xs ys : List Int} {lower upper start : Int} {left mid n i : Nat} {s : merge_t}

theorem Merging.step (h : Merging xs ys lower upper mid (xs.length + ys.length) start i s) (hle : lower ≤ upper)
    (hi : i < xs.length) (hleft : Reads sums left xs) (hright : Reads sums mid ys) (hxs : xs.Pairwise (· ≤ ·))
    (hys : ys.Pairwise (· ≤ ·)) (hsmallx : Small xs) (hsmally : Small ys) (hstart : 0 ≤ start)
    (hroom : start + (xs.length * ys.length : Nat) ≤ 9223372036854775807) :
    ∃ s', merge_step sums (mid + ys.length) lower upper (left + i) s = some s' ∧
      Merging xs ys lower upper mid (xs.length + ys.length) start (i + 1) s' := by
  obtain ⟨hk, hj, ⟨m, C, hm, ht, hr, hC, hcache, hmerge⟩, hcount⟩ := h
  have hread := hleft i hi
  have hcons := List.drop_eq_getElem_cons hi
  rw [List.getElem?_eq_getElem hi] at hread
  rw [hcons] at hk hj hmerge
  generalize hx : xs[i] = x at *
  have hmem : x ∈ xs := hx ▸ List.getElem_mem hi
  have hrest : (x :: xs.drop (i + 1)).Pairwise (· ≤ ·) := hcons ▸ hxs.drop
  have hbelow := (List.pairwise_cons.mp hrest).1
  have hlong (y : Int) (hy : y ∈ ys) : long (y - x) = some (y - x) := by
    have hxs := hsmallx x hmem
    have hys := hsmally y hy
    exact long_eq (by omega) (by omega)
  obtain ⟨hadvk, hk'⟩ := hk.advance (p := fun y => (long (y - x)).map fun d => decide (d < lower)) hright hys hbelow
    (fun y hy => by rw [hlong y hy]; rfl) (fun y z hyz => by simp only [decide_eq_true_eq]; omega)
    (fun y z hxz => by simp only [decide_eq_true_eq]; omega)
  obtain ⟨hadvj, hj'⟩ := hj.advance (p := fun y => (long (y - x)).map fun d => decide (d ≤ upper)) hright hys hbelow
    (fun y hy => by rw [hlong y hy]; rfl) (fun y z hyz => by simp only [decide_eq_true_eq]; omega)
    (fun y z hxz => by simp only [decide_eq_true_eq]; omega)
  have htake : xs.take (i + 1) = xs.take i ++ [x] := by
    rw [List.take_add_one, List.getElem?_eq_getElem hi, hx]
    rfl
  have hacross : across (in_range lower upper) (xs.take i ++ [x]) ys =
      across (in_range lower upper) (xs.take i) ys + ys.countP (in_range lower upper x) := across_concat x
  have hbetween := countP_between (x := x) hle ys
  -- The count so far is at most the number of all pairs.
  have htotal : across (in_range lower upper) (xs.take (i + 1)) ys ≤ xs.length * ys.length := by
    refine across_le.trans (Nat.mul_le_mul_right _ ?_)
    rw [List.length_take]
    omega
  rw [htake, hacross] at htotal
  have hsum : s.count + (((mid + ys.countP fun y => decide (y - x ≤ upper) : Nat) : Int) -
      ((mid + ys.countP fun y => decide (y - x < lower) : Nat) : Int)) =
      start + across (in_range lower upper) (xs.take (i + 1)) ys := by
    rw [htake, hacross, hcount]
    omega
  have hlongSum := long_eq (n := start + across (in_range lower upper) (xs.take (i + 1)) ys)
    (by omega) (by rw [htake, hacross]; omega)
  have hdrain : (ys.drop m).length = ys.length - m := List.length_drop
  have htw : ((ys.drop m).takeWhile fun y => decide (y < x)).length ≤ ys.length - m := by
    rw [← hdrain]
    exact (List.takeWhile_prefix _).length_le
  obtain ⟨cache₁, hdrained, hcache₁⟩ := drain_eq (x := x) (hright.drop hm) hcache (by omega)
  obtain ⟨cache₂, hwrite, hcache₂⟩ := hcache₁.write_end (by rw [List.length_append]; omega) x
  rw [hdrain, show mid + m + (ys.length - m) = mid + ys.length by omega] at hdrained
  rw [List.length_append] at hwrite
  have hrun : merge_step sums (mid + ys.length) lower upper (left + i) s = some
      { j := mid + ys.countP fun y => decide (y - x ≤ upper), k := mid + ys.countP fun y => decide (y - x < lower),
        t := mid + m + ((ys.drop m).takeWhile fun y => decide (y < x)).length,
        r := C.length + ((ys.drop m).takeWhile fun y => decide (y < x)).length + 1,
        count := start + across (in_range lower upper) (xs.take (i + 1)) ys, cache := cache₂ } := by
    simp only [merge_step, hread, hadvk, hadvj, hsum, hlongSum, ht, hr, hdrained, hwrite, Option.bind_eq_bind,
      Option.bind_some]
  refine ⟨_, hrun, hk', hj', ?_, rfl⟩
  have hdrop : ys.drop (m + ((ys.drop m).takeWhile fun y => decide (y < x)).length) =
      (ys.drop m).dropWhile fun y => decide (y < x) := by
    rw [← List.drop_drop, drop_length_takeWhile]
  refine ⟨m + ((ys.drop m).takeWhile fun y => decide (y < x)).length, _, ?_, Nat.add_assoc _ _ _, ?_, ?_, hcache₂, ?_⟩
  · omega
  · simp only [List.length_append, List.length_singleton]
  · simp only [List.length_append, List.length_singleton]
    omega
  · rw [← hmerge, merge_cons_eq, List.append_assoc, List.append_assoc, List.singleton_append, hdrop]

theorem merging_start (cache : Slots Int) (hcache : cache.length = n) (start : Int) :
    Merging xs ys lower upper mid n start 0 { j := mid, k := mid, t := mid, r := 0, count := start, cache } := by
  refine ⟨⟨0, Nat.zero_le _, rfl, by simp⟩, ⟨0, Nat.zero_le _, rfl, by simp⟩, ?_, by simp [across]⟩
  exact ⟨0, [], Nat.zero_le _, rfl, rfl, rfl, holds_nil hcache, rfl⟩

/-- The loop over the left half. -/
theorem Merging.run (hle : lower ≤ upper) (hleft : Reads sums left xs) (hright : Reads sums mid ys)
    (hxs : xs.Pairwise (· ≤ ·)) (hys : ys.Pairwise (· ≤ ·)) (hsmallx : Small xs) (hsmally : Small ys)
    (hstart : 0 ≤ start) (hroom : start + (xs.length * ys.length : Nat) ≤ 9223372036854775807)
    (h : Merging xs ys lower upper mid (xs.length + ys.length) start 0 s) (hi : i ≤ xs.length) :
    ∃ s', for_up (fun i => merge_step sums (mid + ys.length) lower upper (left + i)) i s = some s' ∧
      Merging xs ys lower upper mid (xs.length + ys.length) start i s' := by
  induction i with
  | zero => exact ⟨s, rfl, h⟩
  | succ i ih =>
    obtain ⟨s', hrun, hs'⟩ := ih (by omega)
    obtain ⟨s'', hstep, hs''⟩ := hs'.step hle hi hleft hright hxs hys hsmallx hsmally hstart hroom
    refine ⟨s'', ?_, hs''⟩
    rw [for_up, hrun]
    exact hstep

end Merging

/-- The loop that copies the cache back over the first part of a segment. -/
theorem for_up_copy_back {cache : Slots Int} {n m : Nat} {C : List Int} (hcache : Holds cache n C)
    (pre xs post : List Int) (hm : m ≤ C.length) (hC : C.length ≤ xs.length) :
    for_up (copy_back cache pre.length) m ((pre ++ xs ++ post).map some) =
      some ((pre ++ (C.take m ++ xs.drop m) ++ post).map some) := by
  induction m with
  | zero => rw [List.take_zero, List.drop_zero, List.nil_append]; rfl
  | succ m ih =>
    have hget := List.getElem?_eq_getElem (Nat.lt_of_succ_le hm)
    have hwrite : write ((pre ++ (C.take m ++ xs.drop m) ++ post).map some) (pre.length + m) C[m] =
        some ((pre ++ (C.take (m + 1) ++ xs.drop (m + 1)) ++ post).map some) := by
      have hlength : (C.take m).length = m := by
        rw [List.length_take]
        omega
      rw [write_map_some (by simp; omega), List.append_assoc, List.set_append_right _ _ (by omega),
        Nat.add_sub_cancel_left, List.append_assoc, List.set_append_right _ _ (by omega), hlength, Nat.sub_self,
        List.drop_eq_getElem_cons (show m < xs.length by omega), List.cons_append, List.set_cons_zero,
        List.take_add_one, hget, Option.toList_some, List.append_assoc, List.append_assoc, List.append_assoc,
        List.singleton_append]
    rw [for_up, ih (by omega), Option.bind_eq_bind, Option.bind_some, copy_back, hcache.read_eq hget,
      Option.bind_eq_bind, Option.bind_some, hwrite]

theorem Small.perm {xs ys : List Int} (h : Small xs) (hperm : ys.Perm xs) : Small ys :=
  fun x hx => h x (hperm.subset hx)

/-- Two sorted halves are merged, and the pairs across them are added to the count. -/
theorem merge_halves_eq {lower upper start : Int} (hle : lower ≤ upper) (pre xs ys post : List Int)
    (hxs : xs.Pairwise (· ≤ ·)) (hys : ys.Pairwise (· ≤ ·)) (hsmallx : Small xs) (hsmally : Small ys)
    (hstart : 0 ≤ start) (hroom : start + (xs.length * ys.length : Nat) ≤ 9223372036854775807) :
    ∃ s, for_up (fun i => merge_step ((pre ++ xs ++ ys ++ post).map some) (pre.length + xs.length + ys.length) lower
        upper (pre.length + i)) xs.length
          { j := pre.length + xs.length, k := pre.length + xs.length, t := pre.length + xs.length, r := 0,
            count := start, cache := uninit (xs.length + ys.length) } = some s ∧
      s.count = start + across (in_range lower upper) xs ys ∧
      for_up (copy_back s.cache pre.length) (s.t - pre.length) ((pre ++ xs ++ ys ++ post).map some) =
        some ((pre ++ xs.merge ys (fun a b => decide (a ≤ b)) ++ post).map some) := by
  have hreadsx : Reads ((pre ++ xs ++ ys ++ post).map some) pre.length xs := by
    rw [List.append_assoc]
    exact reads_segment pre xs (ys ++ post)
  have hreadsy : Reads ((pre ++ xs ++ ys ++ post).map some) (pre.length + xs.length) ys := by
    have hreads := reads_segment (pre ++ xs) ys post
    rwa [List.length_append] at hreads
  obtain ⟨s, hmerge, -, -, ⟨m, C, hm, ht, -, hC, hcache, hmerged⟩, hcount⟩ := Merging.run hle hreadsx hreadsy hxs hys
    hsmallx hsmally hstart hroom (merging_start (uninit (xs.length + ys.length)) (length_uninit _) start)
    (Nat.le_refl xs.length)
  rw [List.drop_length, List.nil_merge] at hmerged
  rw [List.take_length] at hcount
  have hcopy := for_up_copy_back hcache pre (xs ++ ys) post (Nat.le_refl _) (by rw [List.length_append]; omega)
  have hrest : (xs ++ ys).drop C.length = ys.drop m := by rw [hC, List.drop_length_add_append]
  rw [List.take_length, hrest, hmerged, ← List.append_assoc pre xs ys] at hcopy
  have hcopied : s.t - pre.length = C.length := by omega
  exact ⟨s, hmerge, hcount, by rw [hcopied]; exact hcopy⟩

/-- A call sorts its segment and counts the pairs in it. -/
theorem countWhileMergeSort_eq {lower upper : Int} (hle : lower ≤ upper) (pre xs post : List Int)
    (hroom : pre.length + xs.length ≤ 1073741824) (hsmall : Small xs) :
    countWhileMergeSort ((pre ++ xs ++ post).map some) pre.length (pre.length + xs.length) lower upper =
      some ((pairs (in_range lower upper) xs : Int), (pre ++ xs.mergeSort (· ≤ ·) ++ post).map some) := by
  induction hn : xs.length using Nat.strongRecOn generalizing pre xs post with
  | ind n ih =>
    subst hn
    rw [countWhileMergeSort]
    by_cases hshort : pre.length + xs.length - pre.length ≤ 1
    · rw [if_pos hshort]
      cases xs with
      | nil => simp [pairs]
      | cons x xs =>
        obtain rfl : xs = [] := by
          rw [List.length_cons] at hshort
          exact List.eq_nil_of_length_eq_zero (by omega)
        simp [pairs]
    rw [if_neg hshort, if_neg (by omega)]
    obtain ⟨xs₀, ys₀, hsplit, hhalf⟩ : ∃ xs₀ ys₀, xs = xs₀ ++ ys₀ ∧ xs₀.length = xs.length / 2 :=
      ⟨xs.take (xs.length / 2), xs.drop (xs.length / 2), (List.take_append_drop _ _).symm,
        by rw [List.length_take]; omega⟩
    have hlength : xs.length = xs₀.length + ys₀.length := by rw [hsplit, List.length_append]
    have hxs₀ : Small xs₀ := fun x hx => hsmall x (by rw [hsplit]; exact List.mem_append_left _ hx)
    have hys₀ : Small ys₀ := fun x hx => hsmall x (by rw [hsplit]; exact List.mem_append_right _ hx)
    -- The two calls on the halves.
    have hfirst := ih xs₀.length (by omega) pre xs₀ (ys₀ ++ post) (by omega) hxs₀ rfl
    generalize hxs : xs₀.mergeSort (· ≤ ·) = xs' at hfirst
    have hpermx : xs'.Perm xs₀ := hxs ▸ List.mergeSort_perm xs₀ _
    have hsortedx : xs'.Pairwise (· ≤ ·) := hxs ▸ List.pairwise_mergeSort' (· ≤ ·) xs₀
    have hlengthx := hpermx.length_eq
    have hsecond := ih ys₀.length (by omega) (pre ++ xs') ys₀ post (by rw [List.length_append]; omega) hys₀ rfl
    generalize hys : ys₀.mergeSort (· ≤ ·) = ys' at hsecond
    have hpermy : ys'.Perm ys₀ := hys ▸ List.mergeSort_perm ys₀ _
    have hsortedy : ys'.Pairwise (· ≤ ·) := hys ▸ List.pairwise_mergeSort' (· ≤ ·) ys₀
    have hlengthy := hpermy.length_eq
    have hcount : pairs (in_range lower upper) xs = pairs (in_range lower upper) xs₀ +
        pairs (in_range lower upper) ys₀ + across (in_range lower upper) xs' ys' := by
      rw [hsplit, pairs_append, across_perm hpermx hpermy]
    have hfewx : pairs (in_range lower upper) xs₀ ≤ 1073741824 * 1073741824 :=
      pairs_le.trans (Nat.mul_le_mul (by omega) (by omega))
    have hfewy : pairs (in_range lower upper) ys₀ ≤ 1073741824 * 1073741824 :=
      pairs_le.trans (Nat.mul_le_mul (by omega) (by omega))
    have hfewxy : xs'.length * ys'.length ≤ 1073741824 * 1073741824 := Nat.mul_le_mul (by omega) (by omega)
    have hlong := long_eq (n := pairs (in_range lower upper) xs₀ + pairs (in_range lower upper) ys₀)
      (by omega) (by omega)
    have hstart : 0 ≤ (pairs (in_range lower upper) xs₀ + pairs (in_range lower upper) ys₀ : Int) := by omega
    obtain ⟨s, hmerge, htotal, hcopy⟩ := merge_halves_eq hle pre xs' ys' post hsortedx hsortedy (hxs₀.perm hpermx)
      (hys₀.perm hpermy) hstart (by omega)
    have hsorted : xs.mergeSort (· ≤ ·) = xs'.merge ys' fun a b => decide (a ≤ b) := by
      refine mergeSort_eq_of_perm (hsortedx.merge hsortedy) ?_
      rw [hsplit]
      exact (List.merge_perm_append _).trans (hpermx.append hpermy)
    -- The bounds of the segment in terms of the sorted halves.
    have hmid : (pre.length + (pre.length + xs.length)) / 2 = pre.length + xs'.length := by omega
    have hright : pre.length + xs.length = pre.length + xs'.length + ys'.length := by omega
    have hsize : pre.length + xs.length - pre.length = xs'.length + ys'.length := by omega
    have hsteps : pre.length + xs'.length - pre.length = xs'.length := by omega
    have hinput : pre ++ xs ++ post = pre ++ xs₀ ++ (ys₀ ++ post) := by rw [hsplit]; simp only [List.append_assoc]
    have hbetween : pre ++ xs' ++ (ys₀ ++ post) = pre ++ xs' ++ ys₀ ++ post := by simp only [List.append_assoc]
    rw [← hlengthx] at hfirst
    rw [List.length_append, ← hlengthy, ← hright] at hsecond
    rw [← hright] at hmerge
    rw [hmid, hinput, hsorted]
    simp only [hfirst, hbetween, hsecond, hlong, hsteps, hsize, hmerge, hcopy, htotal, hcount, Option.bind_eq_bind,
      Option.bind_some, Nat.cast_add]

end csystems.count_range
