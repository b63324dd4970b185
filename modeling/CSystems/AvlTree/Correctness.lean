import Mathlib.Data.Nat.Fib.Basic
import CSystems.Lib.Run
import CSystems.Lib.SortedSet
import CSystems.AvlTree.Balance

open clib.run clib.sorted_set

namespace csystems.avl_tree

/-- A search tree is a tree whose in-order values increase. -/
theorem isSearchTree_iff_sorted (t : node) : IsSearchTree t ↔ (in_order t).Pairwise (· < ·) := by
  induction t with
  | null => simp [IsSearchTree, in_order]
  | mk v height l r ihl ihr =>
    rw [IsSearchTree, in_order, ihl, ihr, pairwise_node_iff]
    tauto

section Values

variable {t t' l r : node} {val v : Int32}

theorem in_order_rotateRight (h : rotateRight t = some t') : in_order t' = in_order t := by
  unfold rotateRight at h
  split at h
  · cases h
    simp [in_order]
  · cases h

theorem in_order_rotateLeft (h : rotateLeft t = some t') : in_order t' = in_order t := by
  unfold rotateLeft at h
  split at h
  · cases h
    simp [in_order]
  · cases h

private theorem in_order_rotateLeftRight {height : Int}
    (h : (rotateLeft l).bind (fun l => rotateRight (.mk v height l r)) = some t') :
    in_order t' = in_order l ++ v :: in_order r := by
  obtain ⟨l', hleft, hright⟩ := Option.bind_eq_some_iff.mp h
  rw [in_order_rotateRight hright, in_order, in_order_rotateLeft hleft]

private theorem in_order_rotateRightLeft {height : Int}
    (h : (rotateRight r).bind (fun r => rotateLeft (.mk v height l r)) = some t') :
    in_order t' = in_order l ++ v :: in_order r := by
  obtain ⟨r', hright, hleft⟩ := Option.bind_eq_some_iff.mp h
  rw [in_order_rotateLeft hleft, in_order, in_order_rotateRight hright]

/-- Rebalancing keeps the values in order, whichever rotation it takes. -/
theorem in_order_rebalance_insert (h : rebalance_insert val v l r = some t') :
    in_order t' = in_order l ++ v :: in_order r := by
  simp only [rebalance_insert, Option.bind_eq_bind, Option.bind_eq_some_iff] at h
  obtain ⟨ll, -, h⟩ := h
  split at h
  · exact in_order_rotateRight h
  · simp only [Option.bind_eq_some_iff] at h
    obtain ⟨rr, -, h⟩ := h
    split at h
    · exact in_order_rotateLeft h
    · simp only [Option.bind_eq_some_iff] at h
      obtain ⟨lr, -, h⟩ := h
      split at h
      · exact in_order_rotateLeftRight h
      · simp only [Option.bind_eq_some_iff] at h
        obtain ⟨rl, -, h⟩ := h
        split at h
        · exact in_order_rotateRightLeft h
        · cases h
          rfl

theorem in_order_rebalance_delete (h : rebalance_delete v l r = some t') :
    in_order t' = in_order l ++ v :: in_order r := by
  unfold rebalance_delete at h
  dsimp only at h
  split at h
  · exact in_order_rotateRight h
  · split at h
    · exact in_order_rotateLeftRight h
    · split at h
      · exact in_order_rotateLeft h
      · split at h
        · exact in_order_rotateRightLeft h
        · cases h
          rfl

end Values

private theorem eq_of_not_lt {a b : Int32} (hab : ¬ a < b) (hba : ¬ a > b) : a = b :=
  Int32.le_antisymm (Int32.not_lt.mp hba) (Int32.not_lt.mp hab)

/-- `insert` adds its value to the values of the tree. -/
theorem insert_values {t t' : node} {val : Int32} (hsorted : (in_order t).Pairwise (· < ·))
    (hrun : insert t val = some t') : Inserts val (in_order t) (in_order t') := by
  induction t generalizing t' with
  | null =>
    cases hrun
    exact ⟨by simp [newNode, in_order], by simp [newNode, in_order]⟩
  | mk v height l r ihl ihr =>
    obtain ⟨hl, hr, -, -⟩ := pairwise_node_iff.mp hsorted
    rw [insert] at hrun
    by_cases hlt : val < v
    · rw [if_pos hlt] at hrun
      obtain ⟨l', hinsert, hrebalance⟩ := Option.bind_eq_some_iff.mp hrun
      rw [in_order_rebalance_insert hrebalance]
      exact inserts_left hsorted hlt (ihl hl hinsert)
    · rw [if_neg hlt] at hrun
      by_cases hgt : val > v
      · rw [if_pos hgt] at hrun
        obtain ⟨r', hinsert, hrebalance⟩ := Option.bind_eq_some_iff.mp hrun
        rw [in_order_rebalance_insert hrebalance]
        exact inserts_right hsorted hgt (ihr hr hinsert)
      · rw [if_neg hgt] at hrun
        cases hrun
        exact inserts_self hsorted (by simp [in_order, eq_of_not_lt hlt hgt])

/-- `findMin` finds the first in-order value. -/
theorem findMin_spec {t : node} (ht : t ≠ .null) : ∃ m, value (findMin t) = some m ∧ (in_order t).head? = some m := by
  induction t with
  | null => exact absurd rfl ht
  | mk v height l r ihl =>
    cases l with
    | null => exact ⟨v, rfl, rfl⟩
    | mk lv lh ll lr =>
      obtain ⟨m, hm, hhead⟩ := ihl (by simp)
      refine ⟨m, hm, ?_⟩
      rw [in_order, List.head?_append, hhead]
      rfl

/-- `deleteNode` takes its value out of the values of the tree. -/
theorem deleteNode_values {t t' : node} {val : Int32} (hsorted : (in_order t).Pairwise (· < ·))
    (hrun : deleteNode t val = some t') : Deletes val (in_order t) (in_order t') := by
  induction t generalizing t' val with
  | null =>
    cases hrun
    exact ⟨hsorted, by simp [in_order]⟩
  | mk v height l r ihl ihr =>
    obtain ⟨hl, hr, -, -⟩ := pairwise_node_iff.mp hsorted
    rw [deleteNode] at hrun
    by_cases hlt : val < v
    · rw [if_pos hlt] at hrun
      obtain ⟨l', hdelete, hrebalance⟩ := Option.bind_eq_some_iff.mp hrun
      rw [in_order_rebalance_delete hrebalance]
      exact deletes_left hsorted hlt (ihl hl hdelete)
    · rw [if_neg hlt] at hrun
      by_cases hgt : val > v
      · rw [if_pos hgt] at hrun
        obtain ⟨r', hdelete, hrebalance⟩ := Option.bind_eq_some_iff.mp hrun
        rw [in_order_rebalance_delete hrebalance]
        exact deletes_right hsorted hgt (ihr hr hdelete)
      · rw [if_neg hgt] at hrun
        obtain rfl := eq_of_not_lt hlt hgt
        by_cases hnull : l = .null ∨ r = .null
        · rw [if_pos hnull] at hrun
          cases hrun
          have hjoin := deletes_join hsorted
          by_cases hl' : l = .null
          · subst hl'
            exact hjoin
          · obtain rfl : r = .null := hnull.resolve_left hl'
            rw [if_pos hl']
            simpa [in_order] using hjoin
        · rw [if_neg hnull] at hrun
          obtain ⟨m, hm, hhead⟩ := findMin_spec (not_or.mp hnull).2
          rw [hm, Option.bind_eq_bind, Option.bind_some] at hrun
          obtain ⟨r', hdelete, hrebalance⟩ := Option.bind_eq_some_iff.mp hrun
          rw [in_order_rebalance_delete hrebalance]
          exact deletes_replace hsorted hhead (ihr hr hdelete)

/-- `insert` keeps the tree good; where it gets higher, it leans to the side of
the new value, which is what the choice of the rotation relies on. -/
theorem insert_good {t : node} (h : Good t) (val : Int32) :
    ∃ t', insert t val = some t' ∧ Good t' ∧
      (real_height t' = real_height t ∨ (real_height t' = real_height t + 1 ∧ (t = .null ∨ Leans val t'))) := by
  induction t with
  | null =>
    refine ⟨newNode val, rfl, ⟨?_, ?_⟩, Or.inr ⟨rfl, Or.inl rfl⟩⟩
    · simp [newNode, HeightsStored, real_height]
    · simp [newNode, Balanced, real_height]
  | mk v height l r ihl ihr =>
    obtain ⟨hl, hr, hnear₁, hnear₂⟩ := h.children
    have hheight : real_height (.mk v height l r) = max (real_height l) (real_height r) + 1 := rfl
    rw [insert, hheight]
    by_cases hlt : val < v
    · obtain ⟨l', hrun, hl', hgrow⟩ := ihl hl
      rw [if_pos hlt, hrun]
      by_cases hnear : Near (real_height l') (real_height r)
      · refine ⟨_, rebalance_insert_near hl' hr hnear, hl'.with_height hr hnear, ?_⟩
        obtain ⟨hnear₃, hnear₄⟩ := hnear
        rw [real_height_with_height]
        rcases hgrow with hsame | ⟨hmore, -⟩
        · exact Or.inl (by omega)
        · by_cases hequal : real_height l = real_height r
          · exact Or.inr ⟨by omega, Or.inr (Or.inl ⟨hlt, by omega⟩)⟩
          · exact Or.inl (by omega)
      · have hhigh : real_height l' = real_height r + 2 := by
          unfold Near at hnear
          omega
        have hleans : Leans val l' := by
          rcases hgrow with hsame | ⟨hmore, rfl | hleans⟩
          · omega
          · have hzero : real_height node.null = 0 := rfl
            omega
          · exact hleans
        obtain ⟨t', hrebalance, hgood, ht'⟩ := rebalance_insert_left (v := v) hl' hr hhigh hleans
        exact ⟨t', hrebalance, hgood, Or.inl (by omega)⟩
    · rw [if_neg hlt]
      by_cases hgt : val > v
      · obtain ⟨r', hrun, hr', hgrow⟩ := ihr hr
        rw [if_pos hgt, hrun]
        by_cases hnear : Near (real_height l) (real_height r')
        · refine ⟨_, rebalance_insert_near hl hr' hnear, hl.with_height hr' hnear, ?_⟩
          obtain ⟨hnear₃, hnear₄⟩ := hnear
          rw [real_height_with_height]
          rcases hgrow with hsame | ⟨hmore, -⟩
          · exact Or.inl (by omega)
          · by_cases hequal : real_height l = real_height r
            · exact Or.inr ⟨by omega, Or.inr (Or.inr ⟨hgt, by omega⟩)⟩
            · exact Or.inl (by omega)
        · have hhigh : real_height r' = real_height l + 2 := by
            unfold Near at hnear
            omega
          have hleans : Leans val r' := by
            rcases hgrow with hsame | ⟨hmore, rfl | hleans⟩
            · omega
            · have hzero : real_height node.null = 0 := rfl
              omega
            · exact hleans
          obtain ⟨t', hrebalance, hgood, ht'⟩ := rebalance_insert_right (v := v) hl hr' hhigh hleans
          exact ⟨t', hrebalance, hgood, Or.inl (by omega)⟩
      · rw [if_neg hgt]
        exact ⟨_, rfl, h, Or.inl rfl⟩

/-- `deleteNode` keeps the tree good and loses at most one level. -/
theorem deleteNode_good {t : node} (h : Good t) (val : Int32) :
    ∃ t', deleteNode t val = some t' ∧ Good t' ∧
      (real_height t' = real_height t ∨ real_height t' + 1 = real_height t) := by
  induction t generalizing val with
  | null => exact ⟨.null, rfl, h, Or.inl rfl⟩
  | mk v height l r ihl ihr =>
    obtain ⟨hl, hr, hnear₁, hnear₂⟩ := h.children
    have hheight : real_height (.mk v height l r) = max (real_height l) (real_height r) + 1 := rfl
    rw [deleteNode, hheight]
    by_cases hlt : val < v
    · obtain ⟨l', hrun, hl', hshrink⟩ := ihl hl val
      rw [if_pos hlt, hrun]
      obtain ⟨t', hrebalance, hgood, hbound⟩ := rebalance_delete_spec (v := v) hl' hr (by omega) (by omega)
      refine ⟨t', hrebalance, hgood, ?_⟩
      unfold Near at hbound
      omega
    · rw [if_neg hlt]
      by_cases hgt : val > v
      · obtain ⟨r', hrun, hr', hshrink⟩ := ihr hr val
        rw [if_pos hgt, hrun]
        obtain ⟨t', hrebalance, hgood, hbound⟩ := rebalance_delete_spec (v := v) hl hr' (by omega) (by omega)
        refine ⟨t', hrebalance, hgood, ?_⟩
        unfold Near at hbound
        omega
      · rw [if_neg hgt]
        by_cases hnull : l = .null ∨ r = .null
        · rw [if_pos hnull]
          refine ⟨_, rfl, ?_, ?_⟩
          · split
            · exact hl
            · exact hr
          · have hzero : real_height node.null = 0 := rfl
            split
            · next hl' =>
              obtain rfl : r = .null := hnull.resolve_left hl'
              omega
            · next hl' =>
              obtain rfl : l = .null := not_not.mp hl'
              omega
        · obtain ⟨m, hm, -⟩ := findMin_spec (not_or.mp hnull).2
          obtain ⟨r', hrun, hr', hshrink⟩ := ihr hr m
          rw [if_neg hnull, hm, Option.bind_eq_bind, Option.bind_some, hrun]
          obtain ⟨t', hrebalance, hgood, hbound⟩ := rebalance_delete_spec (v := m) hl hr' (by omega) (by omega)
          refine ⟨t', hrebalance, hgood, ?_⟩
          unfold Near at hbound
          omega

/-- The value was inserted and not deleted since. -/
def present (calls : List call_t) (x : Int32) : Bool :=
  calls.reverse.find? (fun c => decide (c = .insert x ∨ c = .deleteNode x)) = some (.insert x)

theorem present_append (calls : List call_t) (c : call_t) (x : Int32) :
    present (calls ++ [c]) x = true ↔ c = .insert x ∨ (c ≠ .deleteNode x ∧ present calls x = true) := by
  unfold present
  rw [List.reverse_append, List.reverse_singleton, List.singleton_append]
  by_cases hmatch : c = .insert x ∨ c = .deleteNode x
  · rw [List.find?_cons_of_pos (by simpa using hmatch)]
    rcases hmatch with rfl | rfl <;> simp
  · rw [List.find?_cons_of_neg (by simpa using hmatch)]
    rw [not_or] at hmatch
    simp [hmatch]

/-- A balanced tree holds at least as many values as the smallest one of its
height. -/
theorem Balanced.fib_le {t : node} (h : Balanced t) : Nat.fib (real_height t + 2) ≤ (in_order t).length + 1 := by
  induction t with
  | null => simp [real_height, in_order]
  | mk v height l r ihl ihr =>
    obtain ⟨hleft, hright, hl, hr⟩ := h
    have hl := ihl hl
    have hr := ihr hr
    have hstep (n : Nat) : Nat.fib (n + 3) = Nat.fib (n + 1) + Nat.fib (n + 2) := Nat.fib_add_two
    have hmono {m n : Nat} (hmn : m ≤ n) : Nat.fib m ≤ Nat.fib n := Nat.fib_mono hmn
    simp only [real_height, in_order, List.length_append, List.length_cons]
    rcases Nat.le_total (real_height l) (real_height r) with hle | hle
    · rw [Nat.max_eq_right hle, hstep]
      have := hmono (show real_height r + 1 ≤ real_height l + 2 by omega)
      omega
    · rw [Nat.max_eq_left hle, hstep]
      have := hmono (show real_height l + 1 ≤ real_height r + 2 by omega)
      omega

theorem call_good {t : node} (h : Good t) (hsorted : (in_order t).Pairwise (· < ·)) (c : call_t) :
    ∃ t', call t c = some t' ∧ Good t' ∧ (in_order t').Pairwise (· < ·) ∧
      ∀ x, x ∈ in_order t' ↔ c = .insert x ∨ (c ≠ .deleteNode x ∧ x ∈ in_order t) := by
  cases c with
  | insert val =>
    obtain ⟨t', hrun, hgood, -⟩ := insert_good h val
    have hvalues := insert_values hsorted hrun
    refine ⟨t', hrun, hgood, hvalues.sorted, ?_⟩
    intro x
    rw [hvalues.mem_iff]
    simp [eq_comm]
  | deleteNode val =>
    obtain ⟨t', hrun, hgood, -⟩ := deleteNode_good h val
    have hvalues := deleteNode_values hsorted hrun
    refine ⟨t', hrun, hgood, hvalues.sorted, ?_⟩
    intro x
    rw [hvalues.mem_iff]
    simp [eq_comm]

/-- Every sequence of insertions and deletions gives a search tree that holds
exactly the values inserted and not deleted since, in increasing order, with
right stored heights, balanced, and of at least `fib (h + 2) - 1` values where
`h` is its height. -/
theorem avl_tree_correct (calls : List call_t) :
    ∃ t, run calls = some t ∧ IsSearchTree t ∧ (in_order t).Pairwise (· < ·) ∧
      (∀ x, x ∈ in_order t ↔ present calls x = true) ∧ HeightsStored t ∧ Balanced t ∧
      Nat.fib (real_height t + 2) - 1 ≤ (in_order t).length := by
  have hrun : ∃ t, run calls = some t ∧ Good t ∧ (in_order t).Pairwise (· < ·) ∧
      ∀ x, x ∈ in_order t ↔ present calls x = true := by
    refine foldlM_history
      (fun calls t => Good t ∧ (in_order t).Pairwise (· < ·) ∧ ∀ x, x ∈ in_order t ↔ present calls x = true) ?_ ?_
    · exact ⟨⟨trivial, trivial⟩, List.Pairwise.nil, by simp [in_order, present]⟩
    · rintro calls c t - ⟨hgood, hsorted, hmem⟩
      obtain ⟨t', hcall, hgood', hsorted', hmem'⟩ := call_good hgood hsorted c
      refine ⟨t', hcall, hgood', hsorted', fun x => ?_⟩
      rw [hmem', present_append, hmem]
  obtain ⟨t, ht, hgood, hsorted, hmem⟩ := hrun
  refine ⟨t, ht, (isSearchTree_iff_sorted t).mpr hsorted, hsorted, hmem, hgood.1, hgood.2, ?_⟩
  have hfib := hgood.2.fib_le
  omega

end csystems.avl_tree
