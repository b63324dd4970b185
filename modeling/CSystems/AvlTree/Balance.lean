import CSystems.AvlTree.Tree

namespace csystems.avl_tree

/-- The stored heights are right and the tree is balanced. -/
def Good (t : node) : Prop := HeightsStored t ∧ Balanced t

/-- The heights differ by at most one. -/
def Near (m n : Nat) : Prop := m ≤ n + 1 ∧ n ≤ m + 1

theorem Good.getHeight_eq {t : node} (h : Good t) : getHeight t = real_height t := by
  cases t with
  | null => rfl
  | mk v height l r => exact h.1.1

theorem Good.children {v : Int32} {height : Int} {l r : node} (h : Good (.mk v height l r)) :
    Good l ∧ Good r ∧ Near (real_height l) (real_height r) := by
  obtain ⟨⟨-, hl, hr⟩, hleft, hright, hbl, hbr⟩ := h
  exact ⟨⟨hl, hbl⟩, ⟨hr, hbr⟩, hleft, hright⟩

section WithHeight

variable {v : Int32} {l r : node}

@[simp] theorem real_height_with_height :
    real_height (with_height v l r) = max (real_height l) (real_height r) + 1 := rfl

@[simp] theorem in_order_with_height : in_order (with_height v l r) = in_order l ++ v :: in_order r := rfl

theorem Good.with_height (hl : Good l) (hr : Good r) (hnear : Near (real_height l) (real_height r)) :
    Good (with_height v l r) := by
  refine ⟨⟨?_, hl.1, hr.1⟩, hnear.1, hnear.2, hl.2, hr.2⟩
  rw [hl.getHeight_eq, hr.getHeight_eq, real_height]
  omega

theorem getBalance_with_height (hl : Good l) (hr : Good r) :
    getBalance (avl_tree.with_height v l r) = (real_height l : Int) - real_height r := by
  rw [avl_tree.with_height, getBalance, hl.getHeight_eq, hr.getHeight_eq]

theorem getBalance_mk {height : Int} (h : Good (.mk v height l r)) :
    getBalance (.mk v height l r) = (real_height l : Int) - real_height r := by
  obtain ⟨hl, hr, -⟩ := h.children
  rw [getBalance, hl.getHeight_eq, hr.getHeight_eq]

end WithHeight

section Rotations

variable {x y w : Int32} {h h' h'' : Int} {l m r a b : node}

/-- `t` is a good tree of the given height. -/
structure Rotated (t : node) (height : Nat) : Prop where
  good : Good t
  height_eq : real_height t = height

theorem rotateRight_spec (hl : Good l) (hm : Good m) (hr : Good r) (hmr : Near (real_height m) (real_height r))
    (hl_mr : Near (real_height l) (max (real_height m) (real_height r) + 1)) :
    ∃ t, rotateRight (.mk y h (.mk x h' l m) r) = some t ∧
      Rotated t (max (real_height l) (max (real_height m) (real_height r) + 1) + 1) := by
  refine ⟨_, rfl, hl.with_height (hm.with_height hr hmr) hl_mr, rfl⟩

theorem rotateLeft_spec (hl : Good l) (hm : Good m) (hr : Good r) (hlm : Near (real_height l) (real_height m))
    (hlm_r : Near (max (real_height l) (real_height m) + 1) (real_height r)) :
    ∃ t, rotateLeft (.mk x h l (.mk y h' m r)) = some t ∧
      Rotated t (max (max (real_height l) (real_height m) + 1) (real_height r) + 1) := by
  refine ⟨_, rfl, (hl.with_height hm hlm).with_height hr hlm_r, rfl⟩

/-- The left-right case: the left child is rotated left, then the root right. -/
theorem rotateLeftRight_spec (hl : Good l) (ha : Good a) (hb : Good b) (hr : Good r)
    (hla : Near (real_height l) (real_height a)) (hbr : Near (real_height b) (real_height r))
    (hnear : Near (max (real_height l) (real_height a) + 1) (max (real_height b) (real_height r) + 1)) :
    ∃ t, (do
        let leftChild ← rotateLeft (.mk x h' l (.mk w h'' a b))
        rotateRight (.mk y h leftChild r)) = some t ∧
      Rotated t (max (max (real_height l) (real_height a) + 1) (max (real_height b) (real_height r) + 1) + 1) := by
  refine ⟨_, rfl, (hl.with_height ha hla).with_height (hb.with_height hr hbr) hnear, rfl⟩

/-- The right-left case: the right child is rotated right, then the root left. -/
theorem rotateRightLeft_spec (hl : Good l) (ha : Good a) (hb : Good b) (hr : Good r)
    (hla : Near (real_height l) (real_height a)) (hbr : Near (real_height b) (real_height r))
    (hnear : Near (max (real_height l) (real_height a) + 1) (max (real_height b) (real_height r) + 1)) :
    ∃ t, (do
        let rightChild ← rotateRight (.mk y h' (.mk w h'' a b) r)
        rotateLeft (.mk x h l rightChild)) = some t ∧
      Rotated t (max (max (real_height l) (real_height a) + 1) (max (real_height b) (real_height r) + 1) + 1) := by
  refine ⟨_, rfl, (hl.with_height ha hla).with_height (hb.with_height hr hbr) hnear, rfl⟩

end Rotations

private theorem exists_mk {t : node} (h : 0 < real_height t) : ∃ v height l r, t = .mk v height l r := by
  cases t with
  | null => cases h
  | mk v height l r => exact ⟨v, height, l, r, rfl⟩

/-- The value was inserted on the side of the root that is now the higher one. -/
def Leans (val : Int32) : node → Prop
  | .null => False
  | .mk v _ l r =>
    (val < v ∧ real_height l = real_height r + 1) ∨ (val > v ∧ real_height r = real_height l + 1)

private theorem lt_asymm {a b : Int32} (h : a < b) : ¬ b < a := by
  rw [Int32.lt_iff_toInt_lt] at h ⊢
  omega

section Insert

variable {val v : Int32} {l r : node}

theorem rebalance_insert_near (hl : Good l) (hr : Good r) (hnear : Near (real_height l) (real_height r)) :
    rebalance_insert val v l r = some (with_height v l r) := by
  have hbalance := getBalance_with_height (v := v) hl hr
  obtain ⟨hleft, hright⟩ := hnear
  have hlow : ¬ getBalance (with_height v l r) < -1 := by rw [hbalance]; omega
  have hhigh : ¬ getBalance (with_height v l r) > 1 := by rw [hbalance]; omega
  simp [rebalance_insert, and_then, hlow, hhigh]

/-- Rebalancing after the left subtree has grown too high. -/
theorem rebalance_insert_left (hl : Good l) (hr : Good r) (hhigh : real_height l = real_height r + 2)
    (hleans : Leans val l) :
    ∃ t, rebalance_insert val v l r = some t ∧ Rotated t (real_height l) := by
  have hbalance := getBalance_with_height (v := v) hl hr
  have hpos : getBalance (with_height v l r) > 1 := by rw [hbalance]; omega
  have hneg : ¬ getBalance (with_height v l r) < -1 := by rw [hbalance]; omega
  obtain ⟨lv, lh, ll, lr, rfl⟩ := exists_mk (t := l) (by omega)
  obtain ⟨hll, hlr, -⟩ := hl.children
  have hheight : real_height (.mk lv lh ll lr) = max (real_height ll) (real_height lr) + 1 := rfl
  rcases hleans with ⟨hside, hdiff⟩ | ⟨hside, hdiff⟩
  · obtain ⟨t, hrun, hgood, ht⟩ := @rotateRight_spec lv v
      (getHeight (with_height v (.mk lv lh ll lr) r)) lh ll lr r hll hlr hr ⟨by omega, by omega⟩ ⟨by omega, by omega⟩
    refine ⟨t, ?_, hgood, by omega⟩
    simp only [rebalance_insert, and_then, hpos, if_true, value, Option.bind_eq_bind, Option.bind_some, hside,
      decide_true]
    exact hrun
  · obtain ⟨w, h'', a, b, rfl⟩ := exists_mk (t := lr) (by omega)
    obtain ⟨ha, hb, hab⟩ := hlr.children
    have hinner : real_height (.mk w h'' a b) = max (real_height a) (real_height b) + 1 := rfl
    obtain ⟨hab₁, hab₂⟩ := hab
    obtain ⟨t, hrun, hgood, ht⟩ := @rotateLeftRight_spec lv v w
      (getHeight (with_height v (.mk lv lh ll (.mk w h'' a b)) r)) lh h'' ll r a b hll ha hb hr
      ⟨by omega, by omega⟩ ⟨by omega, by omega⟩ ⟨by omega, by omega⟩
    refine ⟨t, ?_, hgood, by omega⟩
    have hnot : ¬ val < lv := lt_asymm hside
    simp only [rebalance_insert, and_then, hpos, hneg, if_true, if_false, value, Option.bind_eq_bind, Option.bind_some,
      hnot, hside, decide_true, decide_false, Bool.false_eq_true]
    exact hrun

/-- Rebalancing after the right subtree has grown too high. -/
theorem rebalance_insert_right (hl : Good l) (hr : Good r) (hhigh : real_height r = real_height l + 2)
    (hleans : Leans val r) :
    ∃ t, rebalance_insert val v l r = some t ∧ Rotated t (real_height r) := by
  have hbalance := getBalance_with_height (v := v) hl hr
  have hpos : ¬ getBalance (with_height v l r) > 1 := by rw [hbalance]; omega
  have hneg : getBalance (with_height v l r) < -1 := by rw [hbalance]; omega
  obtain ⟨rv, rh, rl, rr, rfl⟩ := exists_mk (t := r) (by omega)
  obtain ⟨hrl, hrr, -⟩ := hr.children
  have hheight : real_height (.mk rv rh rl rr) = max (real_height rl) (real_height rr) + 1 := rfl
  rcases hleans with ⟨hside, hdiff⟩ | ⟨hside, hdiff⟩
  · obtain ⟨w, h'', a, b, rfl⟩ := exists_mk (t := rl) (by omega)
    obtain ⟨ha, hb, hab⟩ := hrl.children
    have hinner : real_height (.mk w h'' a b) = max (real_height a) (real_height b) + 1 := rfl
    obtain ⟨hab₁, hab₂⟩ := hab
    obtain ⟨t, hrun, hgood, ht⟩ := @rotateRightLeft_spec v rv w
      (getHeight (with_height v l (.mk rv rh (.mk w h'' a b) rr))) rh h'' l rr a b hl ha hb hrr
      ⟨by omega, by omega⟩ ⟨by omega, by omega⟩ ⟨by omega, by omega⟩
    refine ⟨t, ?_, hgood, by omega⟩
    have hnot : ¬ val > rv := lt_asymm hside
    simp only [rebalance_insert, and_then, hpos, hneg, if_true, if_false, value, Option.bind_eq_bind, Option.bind_some,
      hnot, hside, decide_true, decide_false, Bool.false_eq_true]
    exact hrun
  · obtain ⟨t, hrun, hgood, ht⟩ := @rotateLeft_spec v rv
      (getHeight (with_height v l (.mk rv rh rl rr))) rh l rl rr hl hrl hrr ⟨by omega, by omega⟩ ⟨by omega, by omega⟩
    refine ⟨t, ?_, hgood, by omega⟩
    simp only [rebalance_insert, and_then, hpos, hneg, if_true, if_false, value, Option.bind_eq_bind, Option.bind_some,
      hside, decide_true, Bool.false_eq_true]
    exact hrun

end Insert

section Delete

variable {v : Int32} {l r : node}

/-- Rebalancing after a subtree has lost at most one level. -/
theorem rebalance_delete_spec (hl : Good l) (hr : Good r) (hleft : real_height l ≤ real_height r + 2)
    (hright : real_height r ≤ real_height l + 2) :
    ∃ t, rebalance_delete v l r = some t ∧ Good t ∧
      real_height t ≤ max (real_height l) (real_height r) + 1 ∧ max (real_height l) (real_height r) ≤ real_height t ∧
      (Near (real_height l) (real_height r) → real_height t = max (real_height l) (real_height r) + 1) := by
  have hbalance := getBalance_with_height (v := v) hl hr
  by_cases hlhigh : real_height l = real_height r + 2
  · have hpos : getBalance (with_height v l r) > 1 := by rw [hbalance]; omega
    obtain ⟨lv, lh, ll, lr, rfl⟩ := exists_mk (t := l) (by omega)
    obtain ⟨hll, hlr, hnear₁, hnear₂⟩ := hl.children
    have hchild := getBalance_mk hl
    have hheight : real_height (.mk lv lh ll lr) = max (real_height ll) (real_height lr) + 1 := rfl
    by_cases hside : getBalance (.mk lv lh ll lr) ≥ 0
    · rw [hchild] at hside
      obtain ⟨t, hrun, hgood, ht⟩ := @rotateRight_spec lv v
        (getHeight (with_height v (.mk lv lh ll lr) r)) lh ll lr r hll hlr hr ⟨by omega, by omega⟩ ⟨by omega, by omega⟩
      refine ⟨t, ?_, hgood, by omega, by omega, ?_⟩
      · rw [rebalance_delete, if_pos ⟨hpos, by rw [hchild]; exact hside⟩]
        exact hrun
      · rintro ⟨hnear, -⟩
        omega
    · have hlow : getBalance (.mk lv lh ll lr) < 0 := by omega
      rw [hchild] at hlow
      obtain ⟨w, h'', a, b, rfl⟩ := exists_mk (t := lr) (by omega)
      obtain ⟨ha, hb, hab₁, hab₂⟩ := hlr.children
      have hinner : real_height (.mk w h'' a b) = max (real_height a) (real_height b) + 1 := rfl
      obtain ⟨t, hrun, hgood, ht⟩ := @rotateLeftRight_spec lv v w
        (getHeight (with_height v (.mk lv lh ll (.mk w h'' a b)) r)) lh h'' ll r a b hll ha hb hr
        ⟨by omega, by omega⟩ ⟨by omega, by omega⟩ ⟨by omega, by omega⟩
      refine ⟨t, ?_, hgood, by omega, by omega, ?_⟩
      · rw [rebalance_delete, if_neg (fun hand => hside hand.2), if_pos ⟨hpos, by rw [hchild]; exact hlow⟩]
        exact hrun
      · rintro ⟨hnear, -⟩
        omega
  · have hpos : ¬ getBalance (with_height v l r) > 1 := by rw [hbalance]; omega
    by_cases hrhigh : real_height r = real_height l + 2
    · have hneg : getBalance (with_height v l r) < -1 := by rw [hbalance]; omega
      obtain ⟨rv, rh, rl, rr, rfl⟩ := exists_mk (t := r) (by omega)
      obtain ⟨hrl, hrr, hnear₁, hnear₂⟩ := hr.children
      have hchild := getBalance_mk hr
      have hheight : real_height (.mk rv rh rl rr) = max (real_height rl) (real_height rr) + 1 := rfl
      by_cases hside : getBalance (.mk rv rh rl rr) ≤ 0
      · rw [hchild] at hside
        obtain ⟨t, hrun, hgood, ht⟩ := @rotateLeft_spec v rv
          (getHeight (with_height v l (.mk rv rh rl rr))) rh l rl rr hl hrl hrr ⟨by omega, by omega⟩
          ⟨by omega, by omega⟩
        refine ⟨t, ?_, hgood, by omega, by omega, ?_⟩
        · rw [rebalance_delete, if_neg (fun hand => hpos hand.1), if_neg (fun hand => hpos hand.1),
            if_pos ⟨hneg, by rw [hchild]; exact hside⟩]
          exact hrun
        · rintro ⟨-, hnear⟩
          omega
      · have hlow : getBalance (.mk rv rh rl rr) > 0 := by omega
        rw [hchild] at hlow
        obtain ⟨w, h'', a, b, rfl⟩ := exists_mk (t := rl) (by omega)
        obtain ⟨ha, hb, hab₁, hab₂⟩ := hrl.children
        have hinner : real_height (.mk w h'' a b) = max (real_height a) (real_height b) + 1 := rfl
        obtain ⟨t, hrun, hgood, ht⟩ := @rotateRightLeft_spec v rv w
          (getHeight (with_height v l (.mk rv rh (.mk w h'' a b) rr))) rh h'' l rr a b hl ha hb hrr
          ⟨by omega, by omega⟩ ⟨by omega, by omega⟩ ⟨by omega, by omega⟩
        refine ⟨t, ?_, hgood, by omega, by omega, ?_⟩
        · rw [rebalance_delete, if_neg (fun hand => hpos hand.1), if_neg (fun hand => hpos hand.1),
            if_neg (fun hand => hside hand.2), if_pos ⟨hneg, by rw [hchild]; exact hlow⟩]
          exact hrun
        · rintro ⟨-, hnear⟩
          omega
    · have hneg : ¬ getBalance (with_height v l r) < -1 := by rw [hbalance]; omega
      refine ⟨with_height v l r, ?_, hl.with_height hr ⟨by omega, by omega⟩, ?_, ?_, fun _ => rfl⟩
      · rw [rebalance_delete, if_neg (fun hand => hpos hand.1), if_neg (fun hand => hpos hand.1),
          if_neg (fun hand => hneg hand.1), if_neg (fun hand => hneg hand.1)]
      · exact Nat.le_refl _
      · exact Nat.le_succ _

end Delete

end csystems.avl_tree
