import CSystems.Lib.Bytes
import CSystems.Lib.Run
import CSystems.Lib.SortedList
import CSystems.MedianFinder.Shape

open clib.cint clib.run clib.sorted_list

namespace csystems.median_finder

theorem length_elements_mk (v h c s : Int32) (l r : AVLNode) :
    (elements (.mk v h c s l r)).length = (elements l).length + c.toInt.toNat + (elements r).length := by
  rw [elements, List.length_append, List.length_append, List.length_replicate]

@[simp] theorem elements_update (t : AVLNode) : elements (update t) = elements t := by
  cases t <;> rfl

theorem SizesStored.size_eq {t : AVLNode} (h : SizesStored t) : (size t).toInt = (elements t).length := by
  cases t with
  | null => rfl
  | mk v height c s l r => exact h.2.1

section Sizes

variable {v h c s : Int32} {l r : AVLNode}

/-- `update` counts the numbers of a node whose subtrees have right sizes. -/
theorem SizesStored.update (hc : 0 < c.toInt) (hl : SizesStored l) (hr : SizesStored r)
    (hroom : (elements (.mk v h c s l r)).length < 2147483648) : SizesStored (update (.mk v h c s l r)) := by
  refine ⟨hc, ?_, hl, hr⟩
  rw [length_elements_mk] at hroom ⊢
  have hleft := hl.size_eq
  have hright := hr.size_eq
  have hcount : (c + size l).toInt = c.toInt + (size l).toInt := by
    rw [Int32.toInt_add, Int.bmod_eq_of_le (by omega) (by omega)]
  rw [Int32.toInt_add, hcount, Int.bmod_eq_of_le (by omega) (by omega)]
  omega

end Sizes

/-- The same numbers, with right sizes if there were right ones before. -/
def Rebuilt (t t' : AVLNode) : Prop :=
  elements t' = elements t ∧ (SizesStored t → (elements t).length < 2147483648 → SizesStored t')

section Rebuilt

variable {t t' l r : AVLNode} {v h c s val : Int32}

theorem rebuilt_rightRotate (hrun : rightRotate t = some t') : Rebuilt t t' := by
  unfold rightRotate at hrun
  split at hrun
  · next y hy cy sy x hx cx sx l m r =>
    cases hrun
    have helements : elements (.mk x hx cx sx l (update (.mk y hy cy sy m r))) =
        elements (.mk y hy cy sy (.mk x hx cx sx l m) r) := by
      simp [elements]
    refine ⟨by rw [elements_update, helements], ?_⟩
    rintro ⟨hcy, -, ⟨hcx, -, hl, hm⟩, hr⟩ hroom
    have hinner : (elements (.mk y hy cy sy m r)).length < 2147483648 := by
      simp only [length_elements_mk] at hroom ⊢
      omega
    exact .update hcx hl (.update hcy hm hr hinner) (by rw [helements]; exact hroom)
  · cases hrun

theorem rebuilt_leftRotate (hrun : leftRotate t = some t') : Rebuilt t t' := by
  unfold leftRotate at hrun
  split at hrun
  · next x hx cx sx l y hy cy sy m r =>
    cases hrun
    have helements : elements (.mk y hy cy sy (update (.mk x hx cx sx l m)) r) =
        elements (.mk x hx cx sx l (.mk y hy cy sy m r)) := by
      simp [elements]
    refine ⟨by rw [elements_update, helements], ?_⟩
    rintro ⟨hcx, -, hl, hcy, -, hm, hr⟩ hroom
    have hinner : (elements (.mk x hx cx sx l m)).length < 2147483648 := by
      simp only [length_elements_mk] at hroom ⊢
      omega
    exact .update hcy (.update hcx hl hm hinner) hr (by rw [helements]; exact hroom)
  · cases hrun

theorem Rebuilt.trans {t'' : AVLNode} (h : Rebuilt t t') (h' : Rebuilt t' t'') : Rebuilt t t'' :=
  ⟨h'.1.trans h.1, fun hsizes hroom => h'.2 (h.2 hsizes hroom) (by rw [h.1]; exact hroom)⟩

theorem Rebuilt.left {l' : AVLNode} (hl : Rebuilt l l') : Rebuilt (.mk v h c s l r) (.mk v h c s l' r) := by
  have helements : elements (.mk v h c s l' r) = elements (.mk v h c s l r) := by simp [elements, hl.1]
  refine ⟨helements, ?_⟩
  rintro ⟨hc, hsize, hsl, hsr⟩ hroom
  rw [length_elements_mk] at hroom
  exact ⟨hc, by rw [helements, hsize], hl.2 hsl (by omega), hsr⟩

theorem Rebuilt.right {r' : AVLNode} (hr : Rebuilt r r') : Rebuilt (.mk v h c s l r) (.mk v h c s l r') := by
  have helements : elements (.mk v h c s l r') = elements (.mk v h c s l r) := by simp [elements, hr.1]
  refine ⟨helements, ?_⟩
  rintro ⟨hc, hsize, hsl, hsr⟩ hroom
  rw [length_elements_mk] at hroom
  exact ⟨hc, by rw [helements, hsize], hsl, hr.2 hsr (by omega)⟩

/-- Rebalancing keeps the numbers in order and the sizes right, whichever
rotation it takes. -/
theorem rebuilt_rebalance (hrun : rebalance val t = some t') : Rebuilt t t' := by
  cases t with
  | null => cases hrun
  | mk v h c s l r =>
    simp only [rebalance, Option.bind_eq_bind, Option.bind_eq_some_iff] at hrun
    obtain ⟨ll, -, hrun⟩ := hrun
    split at hrun
    · exact rebuilt_rightRotate hrun
    · simp only [Option.bind_eq_some_iff] at hrun
      obtain ⟨rr, -, hrun⟩ := hrun
      split at hrun
      · exact rebuilt_leftRotate hrun
      · simp only [Option.bind_eq_some_iff] at hrun
        obtain ⟨lr, -, hrun⟩ := hrun
        split at hrun
        · obtain ⟨l', hleft, hright⟩ := Option.bind_eq_some_iff.mp hrun
          exact (rebuilt_leftRotate hleft).left.trans (rebuilt_rightRotate hright)
        · simp only [Option.bind_eq_some_iff] at hrun
          obtain ⟨rl, -, hrun⟩ := hrun
          split at hrun
          · obtain ⟨r', hright, hleft⟩ := Option.bind_eq_some_iff.mp hrun
            exact (rebuilt_rightRotate hright).right.trans (rebuilt_leftRotate hleft)
          · cases hrun
            exact ⟨rfl, fun hsizes _ => hsizes⟩

/-- The end of `insert` at a node whose subtrees have right sizes. -/
theorem rebalance_elements (hrun : rebalance val (update (.mk v h c s l r)) = some t') (hc : 0 < c.toInt)
    (hl : SizesStored l) (hr : SizesStored r) (hroom : (elements (.mk v h c s l r)).length < 2147483648) :
    elements t' = elements (.mk v h c s l r) ∧ SizesStored t' := by
  obtain ⟨hsame, hkeep⟩ := rebuilt_rebalance hrun
  rw [elements_update] at hsame hkeep
  exact ⟨hsame, hkeep (.update hc hl hr hroom) hroom⟩

end Rebuilt

private theorem eq_of_not_lt {a b : Int32} (hab : ¬ a < b) (hba : ¬ a > b) : a = b :=
  Int32.le_antisymm (Int32.not_lt.mp hba) (Int32.not_lt.mp hab)

/-- `insert` counts its value once more. -/
theorem insert_elements {t t' : AVLNode} {val : Int32} (hrun : insert t val = some t') (hsizes : SizesStored t)
    (hroom : (elements t).length < 2147483647) :
    (elements t').Perm (val :: elements t) ∧ SizesStored t' := by
  induction t generalizing t' with
  | null =>
    cases hrun
    have hone : elements (.mk val 1 1 1 .null .null) = [val] := rfl
    exact ⟨by rw [hone]; rfl, by decide, by rw [hone]; rfl, trivial, trivial⟩
  | mk v h c s l r ihl ihr =>
    obtain ⟨hc, -, hl, hr⟩ := hsizes
    rw [length_elements_mk] at hroom
    rw [insert] at hrun
    by_cases hlt : val < v
    · rw [if_pos hlt] at hrun
      obtain ⟨l', hinsert, hrebalance⟩ := Option.bind_eq_some_iff.mp hrun
      obtain ⟨hperm, hl'⟩ := ihl hinsert hl (by omega)
      have hlength := hperm.length_eq
      rw [List.length_cons] at hlength
      obtain ⟨hsame, hsizes⟩ := rebalance_elements hrebalance hc hl' hr (by rw [length_elements_mk]; omega)
      refine ⟨?_, hsizes⟩
      rw [hsame, elements, elements, List.append_assoc, List.append_assoc]
      exact hperm.append_right _
    · rw [if_neg hlt] at hrun
      by_cases hgt : val > v
      · rw [if_pos hgt] at hrun
        obtain ⟨r', hinsert, hrebalance⟩ := Option.bind_eq_some_iff.mp hrun
        obtain ⟨hperm, hr'⟩ := ihr hinsert hr (by omega)
        have hlength := hperm.length_eq
        rw [List.length_cons] at hlength
        obtain ⟨hsame, hsizes⟩ := rebalance_elements hrebalance hc hl hr' (by rw [length_elements_mk]; omega)
        refine ⟨?_, hsizes⟩
        rw [hsame, elements, elements]
        exact (hperm.append_left _).trans List.perm_middle
      · rw [if_neg hgt] at hrun
        obtain rfl := eq_of_not_lt hlt hgt
        have hsucc := toInt_succ (n := c) (by omega)
        have hcount : (c + 1).toInt.toNat = c.toInt.toNat + 1 := by omega
        obtain ⟨hsame, hsizes⟩ :=
          rebalance_elements hrun (by omega) hl hr (by rw [length_elements_mk, hcount]; omega)
        refine ⟨?_, hsizes⟩
        rw [hsame, elements, elements, hcount, List.replicate_succ, List.append_assoc, List.append_assoc]
        exact List.perm_middle

/-- `kth` finds the numbers of a tree at their places in order. -/
theorem kth_eq {t : AVLNode} (hsizes : SizesStored t) (hroom : (elements t).length < 2147483648) {k : Int32}
    (hlow : 1 ≤ k.toInt) (hhigh : k.toInt ≤ (elements t).length) :
    (elements t)[k.toInt.toNat - 1]? = some (kth t k) := by
  induction t generalizing k with
  | null =>
    simp only [elements, List.length_nil] at hhigh
    omega
  | mk v h c s l r ihl ihr =>
    obtain ⟨hc, -, hl, hr⟩ := hsizes
    have hleft := hl.size_eq
    rw [length_elements_mk] at hroom hhigh
    have hthrough : (size l + c).toInt = (size l).toInt + c.toInt := by
      rw [Int32.toInt_add, Int.bmod_eq_of_le (by omega) (by omega)]
    rw [elements, kth]
    by_cases hfirst : k ≤ size l
    · have hle := Int32.le_iff_toInt_le.mp hfirst
      rw [if_pos hfirst, List.append_assoc, List.getElem?_append_left (by omega)]
      exact ihl hl (by omega) hlow (by omega)
    · have hgt := mt Int32.le_iff_toInt_le.mpr hfirst
      rw [if_neg hfirst]
      by_cases hsecond : k ≤ size l + c
      · have hle := Int32.le_iff_toInt_le.mp hsecond
        rw [if_pos hsecond, List.append_assoc, List.getElem?_append_right (by omega),
          List.getElem?_append_left (by rw [List.length_replicate]; omega),
          List.getElem?_replicate_of_lt (by omega)]
      · have hmore := mt Int32.le_iff_toInt_le.mpr hsecond
        have hrest : (k - size l - c).toInt = k.toInt - (size l).toInt - c.toInt := by
          have hinner : (k - size l).toInt = k.toInt - (size l).toInt := by
            rw [Int32.toInt_sub, Int.bmod_eq_of_le (by omega) (by omega)]
          rw [Int32.toInt_sub, hinner, Int.bmod_eq_of_le (by omega) (by omega)]
        have hright := ihr hr (by omega) (k := k - size l - c) (by omega) (by omega)
        rw [if_neg hsecond, List.getElem?_append_right (by rw [List.length_append, List.length_replicate]; omega),
          ← hright, List.length_append, List.length_replicate]
        congr 1
        omega

/-- A tree has no more values than numbers. -/
theorem length_in_order_le {t : AVLNode} (hsizes : SizesStored t) :
    (avl_tree.in_order (shape t)).length ≤ (elements t).length := by
  induction t with
  | null => exact Nat.le_refl 0
  | mk v h c s l r ihl ihr =>
    obtain ⟨hc, -, hl, hr⟩ := hsizes
    have hleft := ihl hl
    have hright := ihr hr
    rw [shape, avl_tree.in_order, length_elements_mk, List.length_append, List.length_cons]
    omega

theorem mem_in_order_of_mem {t : AVLNode} {x : Int32} (hx : x ∈ elements t) : x ∈ avl_tree.in_order (shape t) := by
  induction t with
  | null => exact hx
  | mk v h c s l r ihl ihr =>
    rw [shape, avl_tree.in_order, List.mem_append, List.mem_cons]
    rw [elements, List.mem_append, List.mem_append] at hx
    obtain (hx | hx) | hx := hx
    · exact Or.inl (ihl hx)
    · exact Or.inr (Or.inl (List.eq_of_mem_replicate hx))
    · exact Or.inr (Or.inr (ihr hx))

/-- The numbers of a search tree increase. -/
theorem elements_sorted {t : AVLNode} (h : avl_tree.IsSearchTree (shape t)) : (elements t).Pairwise (· ≤ ·) := by
  induction t with
  | null => exact List.Pairwise.nil
  | mk v height c s l r ihl ihr =>
    obtain ⟨hleft, hright, hl, hr⟩ := h
    have hbelow (x : Int32) (hx : x ∈ elements l) : x < v := hleft x (mem_in_order_of_mem hx)
    have habove (x : Int32) (hx : x ∈ elements r) : v < x := hright x (mem_in_order_of_mem hx)
    rw [elements, List.pairwise_append, List.pairwise_append]
    refine ⟨⟨ihl hl, List.pairwise_replicate.mpr (Or.inr (Int32.le_refl v)), ?_⟩, ihr hr, ?_⟩
    · intro x hx y hy
      rw [List.eq_of_mem_replicate hy]
      exact Int32.le_of_lt (hbelow x hx)
    · intro x hx y hy
      refine Int32.le_of_lt ?_
      obtain hx | hx := List.mem_append.mp hx
      · exact Int32.lt_trans (hbelow x hx) (habove y hy)
      · rw [List.eq_of_mem_replicate hx]
        exact habove y hy

/-- A balanced tree of fewer values than an `int` counts is not high. -/
theorem real_height_le {t : AVLNode} (h : avl_tree.Good (shape t)) (hsizes : SizesStored t)
    (hroom : (elements t).length < 2147483648) : avl_tree.real_height (shape t) ≤ 48 := by
  by_contra hnot
  have hfib := h.2.fib_le
  have hmono := Nat.fib_mono (show 51 ≤ avl_tree.real_height (shape t) + 2 by omega)
  have hvalue : Nat.fib 51 = 20365011074 := by decide
  have hle := length_in_order_le hsizes
  omega

/-- The tree of a median finder after these numbers were added. -/
structure Sound (nums : List Int32) (obj : MedianFinder) : Prop where
  good : avl_tree.Good (shape obj.root)
  sorted : (avl_tree.in_order (shape obj.root)).Pairwise (· < ·)
  sizes : SizesStored obj.root
  perm : (elements obj.root).Perm nums
  total : obj.total.toInt = nums.length

section Sound

variable {nums : List Int32} {obj : MedianFinder} (h : Sound nums obj)

include h

/-- Adding a number that an `int` still counts. -/
theorem Sound.add (hroom : nums.length < 2147483647) (num : Int32) :
    ∃ obj', medianFinderAddNum obj num = some obj' ∧ Sound (nums ++ [num]) obj' := by
  have hlength := h.perm.length_eq
  have hshape := shape_insert h.good (real_height_le h.good h.sizes (by omega)) (by decide) num
  obtain ⟨u, hrun, hgood, -⟩ := avl_tree.insert_good h.good num
  have hvalues := avl_tree.insert_values h.sorted hrun
  rw [hrun] at hshape
  obtain ⟨root, hinsert, rfl⟩ := Option.map_eq_some_iff.mp hshape
  obtain ⟨hperm, hsizes⟩ := insert_elements hinsert h.sizes (by omega)
  refine ⟨{ root := root, total := obj.total + 1 }, ?_, hgood, hvalues.sorted, hsizes, ?_, ?_⟩
  · rw [medianFinderAddNum, hinsert]
    rfl
  · exact hperm.trans ((h.perm.cons num).trans (List.perm_append_singleton num nums).symm)
  · have htotal := h.total
    rw [toInt_succ (by omega), List.length_append, List.length_singleton, htotal]
    omega

theorem Sound.answers (hroom : nums.length < 2147483648) : AnswersOrder nums obj := by
  have hsearch := (avl_tree.isSearchTree_iff_sorted (shape obj.root)).mpr h.sorted
  have hlength := h.perm.length_eq
  have htotal := h.total
  refine ⟨hsearch, h.good.2, h.good.1, h.sizes, h.perm, htotal, ?_⟩
  intro k hlow hhigh
  have hlow := Int32.le_iff_toInt_le.mp hlow
  have hhigh := Int32.le_iff_toInt_le.mp hhigh
  rw [mergeSort_eq_of_perm (elements_sorted hsearch) h.perm]
  exact kth_eq h.sizes (by omega) (by simpa using hlow) (by omega)

end Sound

theorem run_sound {nums : List Int32} (hroom : nums.length < 2147483648) :
    ∃ obj, nums.foldlM medianFinderAddNum medianFinderCreate = some obj ∧ Sound nums obj := by
  refine foldlM_history Sound ⟨⟨trivial, trivial⟩, List.Pairwise.nil, trivial, List.Perm.nil, rfl⟩ ?_
  intro past num obj hnow hsound
  have hle := hnow.length_le
  rw [List.length_append, List.length_singleton] at hle
  exact hsound.add (by omega) num

/-- The size of a subtree is an `int`. -/
theorem length_lt_of_answers {nums : List Int32} {obj : MedianFinder} (h : AnswersOrder nums obj) :
    nums.length < 2147483648 := by
  have hsize := h.sizes.size_eq
  have hlt := Int32.toInt_lt (size obj.root)
  rw [h.elements_perm.length_eq] at hsize
  omega

/-- After every number the tree is balanced, sorted and right in its heights and
sizes and answers order statistics, exactly if an `int` can count the numbers. -/
theorem order_statistics_iff (nums : List Int32) :
    (∀ now, now <+: nums →
      ∃ obj, now.foldlM medianFinderAddNum medianFinderCreate = some obj ∧ AnswersOrder now obj) ↔
      nums.length ≤ 2147483647 := by
  constructor
  · intro hall
    obtain ⟨obj, -, hanswers⟩ := hall nums List.prefix_rfl
    exact Nat.le_of_lt_succ (length_lt_of_answers hanswers)
  · intro hroom now hnow
    have hle := hnow.length_le
    obtain ⟨obj, hrun, hsound⟩ := @run_sound now (by omega)
    exact ⟨obj, hrun, hsound.answers (by omega)⟩

/-- One number added `2^31` times: its count and the size of the tree wrap around. -/
theorem order_statistics_overflow :
    ¬ ∀ now, now <+: List.replicate 2147483648 (0 : Int32) →
      ∃ obj, now.foldlM medianFinderAddNum medianFinderCreate = some obj ∧ AnswersOrder now obj := by
  intro hall
  obtain ⟨obj, -, hanswers⟩ := hall _ List.prefix_rfl
  have hlt := length_lt_of_answers hanswers
  rw [List.length_replicate] at hlt
  exact Nat.lt_irrefl _ hlt

end csystems.median_finder
