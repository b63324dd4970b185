import CSystems.AvlTree.Correctness
import CSystems.MedianFinder.Tree

open csystems.avl_tree (and_then)

namespace csystems.median_finder

/-- No stored height in the tree is negative or above `n`. -/
def HeightsLow (n : Int) : AVLNode → Prop
  | .null => True
  | .mk _ height _ _ left right => 0 ≤ height.toInt ∧ height.toInt ≤ n ∧ HeightsLow n left ∧ HeightsLow n right

theorem HeightsLow.mono {t : AVLNode} {m n : Int} (h : HeightsLow m t) (hle : m ≤ n) : HeightsLow n t := by
  induction t with
  | null => trivial
  | mk v height c s l r ihl ihr =>
    obtain ⟨hpos, hlow, hl, hr⟩ := h
    exact ⟨hpos, by omega, ihl hl, ihr hr⟩

@[simp] theorem getHeight_shape (t : AVLNode) : avl_tree.getHeight (shape t) = (height t).toInt := by
  cases t <;> rfl

@[simp] theorem value_shape (t : AVLNode) : avl_tree.value (shape t) = value t := by
  cases t <;> rfl

theorem toInt_max (a b : Int32) : (max a b).toInt = Max.max a.toInt b.toInt := by
  unfold max
  split
  · next hlt =>
    have hlt := Int32.lt_iff_toInt_lt.mp hlt
    omega
  · next hnot =>
    have hle := mt Int32.lt_iff_toInt_lt.mpr hnot
    omega

section Update

variable {n : Int} {v h c s : Int32} {l r : AVLNode}

theorem HeightsLow.height_le (hl : HeightsLow n l) (hn : 0 ≤ n) : 0 ≤ (height l).toInt ∧ (height l).toInt ≤ n := by
  cases l with
  | null => exact ⟨Int.le_refl 0, hn⟩
  | mk v h c s l r => exact ⟨hl.1, hl.2.1⟩

/-- `update` stores the height that the tree without counts gets. -/
theorem shape_update (hl : HeightsLow n l) (hr : HeightsLow n r) (hn : 0 ≤ n) (hroom : n < 2147483647) :
    shape (update (.mk v h c s l r)) = avl_tree.with_height v (shape l) (shape r) ∧
      HeightsLow (n + 1) (update (.mk v h c s l r)) := by
  obtain ⟨hlpos, hlle⟩ := hl.height_le hn
  obtain ⟨hrpos, hrle⟩ := hr.height_le hn
  have hheight : (1 + max (height l) (height r)).toInt = Max.max (height l).toInt (height r).toInt + 1 := by
    rw [Int32.toInt_add, toInt_max, Int32.toInt_one, Int.bmod_eq_of_le (by omega) (by omega)]
    omega
  constructor
  · rw [update, shape, hheight, avl_tree.with_height, getHeight_shape, getHeight_shape]
  · refine ⟨?_, ?_, hl.mono (by omega), hr.mono (by omega)⟩
    · rw [hheight]
      omega
    · rw [hheight]
      omega

end Update

section Rotate

variable {n : Int} {t : AVLNode}

/-- A rotation commutes with forgetting the counts. -/
theorem shape_rightRotate (ht : HeightsLow n t) (hn : 0 ≤ n) (hroom : n + 1 < 2147483647) :
    (rightRotate t).map shape = avl_tree.rotateRight (shape t) ∧
      ∀ t', rightRotate t = some t' → HeightsLow (n + 2) t' := by
  cases t with
  | null => exact ⟨rfl, by simp [rightRotate]⟩
  | mk y hy cy sy left r =>
    cases left with
    | null => exact ⟨rfl, by simp [rightRotate]⟩
    | mk x hx cx sx l m =>
      obtain ⟨-, -, ⟨-, -, hl, hm⟩, hr⟩ := ht
      obtain ⟨hinner, hlow⟩ := shape_update (v := y) (h := hy) (c := cy) (s := sy) hm hr hn (by omega)
      obtain ⟨houter, hlow'⟩ :=
        shape_update (v := x) (h := hx) (c := cx) (s := sx) (hl.mono (by omega)) hlow (by omega) hroom
      rw [hinner] at houter
      rw [rightRotate]
      refine ⟨congrArg some houter, ?_⟩
      rintro t' ⟨⟩
      rwa [Int.add_assoc] at hlow'

theorem shape_leftRotate (ht : HeightsLow n t) (hn : 0 ≤ n) (hroom : n + 1 < 2147483647) :
    (leftRotate t).map shape = avl_tree.rotateLeft (shape t) ∧
      ∀ t', leftRotate t = some t' → HeightsLow (n + 2) t' := by
  cases t with
  | null => exact ⟨rfl, by simp [leftRotate]⟩
  | mk x hx cx sx l right =>
    cases right with
    | null => exact ⟨rfl, by simp [leftRotate]⟩
    | mk y hy cy sy m r =>
      obtain ⟨-, -, hl, -, -, hm, hr⟩ := ht
      obtain ⟨hinner, hlow⟩ := shape_update (v := x) (h := hx) (c := cx) (s := sx) hl hm hn (by omega)
      obtain ⟨houter, hlow'⟩ :=
        shape_update (v := y) (h := hy) (c := cy) (s := sy) hlow (hr.mono (by omega)) (by omega) hroom
      rw [hinner] at houter
      rw [leftRotate]
      refine ⟨congrArg some houter, ?_⟩
      rintro t' ⟨⟩
      rwa [Int.add_assoc] at hlow'

theorem toInt_getBalance (ht : HeightsLow n t) (hn : 0 ≤ n) (hroom : n < 2147483647) :
    (getBalance t).toInt = avl_tree.getBalance (shape t) := by
  cases t with
  | null => rfl
  | mk v h c s l r =>
    obtain ⟨-, -, hl, hr⟩ := ht
    obtain ⟨hlpos, hlle⟩ := hl.height_le hn
    obtain ⟨hrpos, hrle⟩ := hr.height_le hn
    rw [getBalance, shape, avl_tree.getBalance, getHeight_shape, getHeight_shape, Int32.toInt_sub,
      Int.bmod_eq_of_le (by omega) (by omega)]

end Rotate

private theorem and_then_congr {a a' : Prop} [Decidable a] [Decidable a'] (h : a ↔ a') (b : Option Bool) :
    and_then a b = and_then a' b := by
  simp only [and_then, h]

private theorem map_branch {α β : Type} {f : α → β} {x y : Option α} {x' y' : Option β} (hx : x.map f = x')
    (hy : y.map f = y') (test : Option Bool) :
    (test.bind fun b => if b = true then x else y).map f = test.bind fun b => if b = true then x' else y' := by
  cases test with
  | none => rfl
  | some b =>
    cases b with
    | true => exact hx
    | false => exact hy

/-- The two double rotations commute with forgetting the counts. -/
theorem shape_leftRightRotate {n : Int} {v h c s : Int32} {l r : AVLNode} (ht : HeightsLow n (.mk v h c s l r))
    (hn : 0 ≤ n) (hroom : n + 3 < 2147483647) :
    ((leftRotate l).bind fun l => rightRotate (.mk v h c s l r)).map shape =
      (avl_tree.rotateLeft (shape l)).bind fun l => avl_tree.rotateRight (.mk v h.toInt l (shape r)) := by
  obtain ⟨hpos, hle, hl, hr⟩ := ht
  obtain ⟨hleft, hlow⟩ := shape_leftRotate hl hn (by omega)
  rw [← hleft]
  cases hrun : leftRotate l with
  | none => rfl
  | some l' =>
    have ht' : HeightsLow (n + 2) (.mk v h c s l' r) := ⟨hpos, by omega, hlow l' hrun, hr.mono (by omega)⟩
    exact (shape_rightRotate ht' (by omega) (by omega)).1

theorem shape_rightLeftRotate {n : Int} {v h c s : Int32} {l r : AVLNode} (ht : HeightsLow n (.mk v h c s l r))
    (hn : 0 ≤ n) (hroom : n + 3 < 2147483647) :
    ((rightRotate r).bind fun r => leftRotate (.mk v h c s l r)).map shape =
      (avl_tree.rotateRight (shape r)).bind fun r => avl_tree.rotateLeft (.mk v h.toInt (shape l) r) := by
  obtain ⟨hpos, hle, hl, hr⟩ := ht
  obtain ⟨hright, hlow⟩ := shape_rightRotate hr hn (by omega)
  rw [← hright]
  cases hrun : rightRotate r with
  | none => rfl
  | some r' =>
    have ht' : HeightsLow (n + 2) (.mk v h c s l r') := ⟨hpos, by omega, hl.mono (by omega), hlow r' hrun⟩
    exact (shape_leftRotate ht' (by omega) (by omega)).1

/-- Rebalancing commutes with forgetting the counts. -/
theorem shape_rebalance {n : Int} {val v h c s : Int32} {l r : AVLNode} (ht : HeightsLow n (.mk v h c s l r))
    (hn : 0 ≤ n) (hroom : n + 3 < 2147483647)
    (hshape : shape (.mk v h c s l r) = avl_tree.with_height v (shape l) (shape r)) :
    (rebalance val (.mk v h c s l r)).map shape = avl_tree.rebalance_insert val v (shape l) (shape r) := by
  have hbalance := toInt_getBalance ht hn (by omega)
  rw [hshape] at hbalance
  have hhigh : getBalance (.mk v h c s l r) > 1 ↔
      avl_tree.getBalance (avl_tree.with_height v (shape l) (shape r)) > 1 := by
    rw [← hbalance]
    exact Int32.lt_iff_toInt_lt
  have hlow : getBalance (.mk v h c s l r) < -1 ↔
      avl_tree.getBalance (avl_tree.with_height v (shape l) (shape r)) < -1 := by
    rw [← hbalance]
    exact Int32.lt_iff_toInt_lt
  have hheight : h.toInt = avl_tree.getHeight (avl_tree.with_height v (shape l) (shape r)) := by
    rw [← hshape]
    rfl
  rw [rebalance, avl_tree.rebalance_insert]
  simp only [value_shape, and_then_congr hhigh, and_then_congr hlow, Option.bind_eq_bind, ← hheight]
  refine map_branch ?_ (map_branch ?_ (map_branch ?_ (map_branch ?_ ?_ _) _) _) _
  · rw [← hshape]
    exact (shape_rightRotate ht hn (by omega)).1
  · rw [← hshape]
    exact (shape_leftRotate ht hn (by omega)).1
  · exact shape_leftRightRotate ht hn hroom
  · exact shape_rightLeftRotate ht hn hroom
  · exact congrArg some hshape

/-- The heights of a good tree are the real ones. -/
theorem heightsLow_of_good {t : AVLNode} (h : avl_tree.Good (shape t)) :
    HeightsLow (avl_tree.real_height (shape t)) t := by
  induction t with
  | null => trivial
  | mk v height c s l r ihl ihr =>
    obtain ⟨hl, hr, -⟩ := h.children
    have hheight : avl_tree.real_height (shape (.mk v height c s l r)) =
      Max.max (avl_tree.real_height (shape l)) (avl_tree.real_height (shape r)) + 1 := rfl
    have hstored : height.toInt = avl_tree.real_height (shape (.mk v height c s l r)) := h.1.1
    exact ⟨by omega, by omega, (ihl hl).mono (by omega), (ihr hr).mono (by omega)⟩

theorem shape_rebalance_update {n : Int} {val v h c s : Int32} {l r : AVLNode} (hl : HeightsLow n l)
    (hr : HeightsLow n r) (hn : 0 ≤ n) (hroom : n + 4 < 2147483647) :
    (rebalance val (update (.mk v h c s l r))).map shape = avl_tree.rebalance_insert val v (shape l) (shape r) := by
  obtain ⟨hshape, hlow⟩ := shape_update (v := v) (h := h) (c := c) (s := s) hl hr hn (by omega)
  exact shape_rebalance hlow (by omega) (by omega) hshape

/-- `insert` commutes with forgetting the counts: inserting a value again only
counts it. -/
theorem shape_insert {t : AVLNode} (h : avl_tree.Good (shape t)) {n : Nat}
    (hheight : avl_tree.real_height (shape t) ≤ n) (hroom : n + 4 < 2147483647) (val : Int32) :
    (insert t val).map shape = avl_tree.insert (shape t) val := by
  induction t with
  | null => rfl
  | mk v height c s l r ihl ihr =>
    obtain ⟨hl, hr, hnear⟩ := h.children
    have hreal : avl_tree.real_height (shape (.mk v height c s l r)) =
      Max.max (avl_tree.real_height (shape l)) (avl_tree.real_height (shape r)) + 1 := rfl
    have hlow (t : AVLNode) (ht : avl_tree.Good (shape t)) (hle : avl_tree.real_height (shape t) ≤ n) :
        HeightsLow n t := (heightsLow_of_good ht).mono (by omega)
    have hinserted (t : AVLNode) (ht : avl_tree.Good (shape t)) (hlt : avl_tree.real_height (shape t) < n)
        (hmap : (insert t val).map shape = avl_tree.insert (shape t) val) :
        ∃ t', insert t val = some t' ∧ avl_tree.insert (shape t) val = some (shape t') ∧ HeightsLow n t' := by
      obtain ⟨u, hrun, hgood, hgrow⟩ := avl_tree.insert_good ht val
      rw [hrun] at hmap
      obtain ⟨t', ht', rfl⟩ := Option.map_eq_some_iff.mp hmap
      exact ⟨t', ht', hrun, hlow t' hgood (by omega)⟩
    rw [insert, shape, avl_tree.insert]
    by_cases hlt : val < v
    · obtain ⟨l', hrun, hrun', hlow'⟩ := hinserted l hl (by omega) (ihl hl (by omega))
      rw [if_pos hlt, if_pos hlt, hrun, hrun']
      exact shape_rebalance_update (h := height) (s := s) hlow' (hlow r hr (by omega)) (by omega) (by omega)
    · rw [if_neg hlt, if_neg hlt]
      by_cases hgt : val > v
      · obtain ⟨r', hrun, hrun', hlow'⟩ := hinserted r hr (by omega) (ihr hr (by omega))
        rw [if_pos hgt, if_pos hgt, hrun, hrun']
        exact shape_rebalance_update (h := height) (s := s) (hlow l hl (by omega)) hlow' (by omega) (by omega)
      · have hstored : height.toInt = avl_tree.real_height (shape (.mk v height c s l r)) := h.1.1
        have hmax : height.toInt =
            Max.max (avl_tree.real_height (shape l) : Int) (avl_tree.real_height (shape r)) + 1 := by omega
        rw [if_neg hgt, if_neg hgt,
          shape_rebalance_update (hlow l hl (by omega)) (hlow r hr (by omega)) (by omega) (by omega),
          avl_tree.rebalance_insert_near hl hr hnear, avl_tree.with_height, hl.getHeight_eq, hr.getHeight_eq, hmax]

end csystems.median_finder
