import CSystems.BplusTree.Tree

open clib.array clib.sorted_list

namespace csystems.bplus_tree

/-- A leaf with the given keys and sibling. -/
structure IsLeaf (node : BPlusTreeNode) (keys : List Int32) (after : Option Nat) : Prop where
  isLeaf : node.isLeaf = true
  count : node.count = keys.length
  keys : Holds node.keys MAX keys
  next : node.next = after

/-- An internal node with the given keys and children. -/
structure IsInternal (node : BPlusTreeNode) (keys : List Int32) (ptrs : List Nat) : Prop where
  isLeaf : node.isLeaf = false
  count : node.count = keys.length
  keys : Holds node.keys MAX keys
  child : Holds node.child (MAX + 1) (ptrs.map some)

section Leaf

variable {key : Int32} {xs : List Int32} {a : Slots Int32} {n i : Nat}

/-- The loop of `insertLeaf` moves the gap to where the key belongs. -/
private theorem make_room_spec (h : Gap a n xs i) (hi : i ≤ xs.length) (habove : ∀ x, xs[i]? = some x → key ≤ x) :
    ∃ p a', make_room key i a = some (p, a') ∧ Gap a' n xs p ∧ Slot (· ≤ ·) xs key p := by
  induction i generalizing a with
  | zero => exact ⟨0, a, rfl, h, hi, fun _ hlt => absurd hlt (Nat.lt_irrefl 0), habove⟩
  | succ i ih =>
    have hx : xs[i]? = some xs[i] := List.getElem?_eq_getElem (by omega)
    obtain ⟨hread, a', hwrite, hgap⟩ := h.step hx
    by_cases hlt : xs[i] > key
    · obtain ⟨p, a'', hrun, hgap', hslot⟩ := ih hgap (by omega) (by
        intro x hxi
        rw [hx] at hxi
        cases hxi
        exact Int32.le_of_lt hlt)
      refine ⟨p, a'', ?_, hgap', hslot⟩
      simp only [make_room, hread, Option.bind_eq_bind, Option.bind_some, if_pos hlt, hwrite, hrun]
    · refine ⟨i + 1, a, ?_, h, hi, ?_, habove⟩
      · simp only [make_room, hread, Option.bind_eq_bind, Option.bind_some, if_neg hlt]
      · intro x _ hxi
        rw [Nat.add_sub_cancel, hx] at hxi
        cases hxi
        simpa using hlt

/-- The sorting loop of `splitLeaf` moves the key to where it belongs. -/
private theorem sift_spec (h : Holds a n (xs.insertIdx i key)) (hi : i ≤ xs.length)
    (habove : ∀ x, xs[i]? = some x → key ≤ x) :
    ∃ p a', sift i a = some a' ∧ Holds a' n (xs.insertIdx p key) ∧ Slot (· ≤ ·) xs key p := by
  induction i generalizing a with
  | zero => exact ⟨0, a, rfl, h, hi, fun _ hlt => absurd hlt (Nat.lt_irrefl 0), habove⟩
  | succ i ih =>
    have hx : xs[i]? = some xs[i] := List.getElem?_eq_getElem (by omega)
    have hkey : read a (i + 1) = some key := h.read_eq (by rw [List.getElem?_insertIdx_self, if_pos hi])
    obtain ⟨hread, a', hwrite, hgap⟩ := (h.gap_of_insertIdx hi).step hx
    by_cases hlt : key < xs[i]
    · obtain ⟨a'', hwrite', hfill⟩ := hgap.fill (by omega) key
      obtain ⟨p, a''', hrun, hholds, hslot⟩ := ih hfill (by omega) (by
        intro x hxi
        rw [hx] at hxi
        cases hxi
        exact Int32.le_of_lt hlt)
      refine ⟨p, a''', ?_, hholds, hslot⟩
      simp only [sift, hkey, hread, Option.bind_eq_bind, Option.bind_some, if_pos hlt, hwrite, hwrite', hrun]
    · refine ⟨i + 1, a, ?_, h, hi, ?_, habove⟩
      · simp only [sift, hkey, hread, Option.bind_eq_bind, Option.bind_some, if_neg hlt]
      · intro x _ hxi
        rw [Nat.add_sub_cancel, hx] at hxi
        cases hxi
        simpa using hlt

variable {node : BPlusTreeNode} {after : Option Nat}

/-- `insertLeaf` keeps the keys of a leaf with room in order. -/
theorem insertLeaf_spec (h : IsLeaf node xs after) (key : Int32) (hsorted : xs.Pairwise (· ≤ ·))
    (hroom : xs.length < MAX) :
    ∃ node', insertLeaf node key = some node' ∧ IsLeaf node' (xs.orderedInsert (· ≤ ·) key) after := by
  have hend : ∀ x, xs[xs.length]? = some x → key ≤ x := by simp
  obtain ⟨p, a, hrun, hgap, hslot⟩ := make_room_spec (h.keys.gap hroom) (Nat.le_refl _) hend
  obtain ⟨a', hwrite, hholds⟩ := hgap.fill hslot.le key
  rw [hslot.insertIdx_eq hsorted] at hholds
  refine ⟨{ node with keys := a', count := node.count + 1 }, ?_, h.isLeaf, ?_, hholds, h.next⟩
  · simp only [insertLeaf, h.count, hrun, hwrite, Option.bind_eq_bind, Option.bind_some]
  · rw [List.orderedInsert_length, h.count]

/-- `splitLeaf` cuts the keys of a full leaf and the new one in two. -/
theorem splitLeaf_spec (h : IsLeaf node xs after) (hsorted : xs.Pairwise (· ≤ ·)) (hfull : xs.length = MAX)
    {k : Int32} {all keys : List Int32} (hall : xs.orderedInsert (· ≤ ·) key = all) (hkeys : all = all.take MID ++ k :: keys) :
    ∃ node' newLeaf, splitLeaf node key = some (node', newLeaf, k) ∧
      IsLeaf node' (all.take MID) after ∧ IsLeaf newLeaf (k :: keys) after := by
  have hmax : MAX = 3 := rfl
  have hmid : MID = 2 := rfl
  have hlength : all.length = MAX + 1 := by rw [← hall, List.orderedInsert_length, hfull]
  have hrest : all.drop MID = k :: keys := by
    have hdrop := congrArg (List.drop MID) hkeys
    rwa [List.drop_append_of_le_length (by rw [List.length_take]; omega), List.drop_take_self,
      List.nil_append] at hdrop
  obtain ⟨t₁, hcopy, ht₁⟩ := h.keys.for_up_copy 0 MAX (by omega) (length_uninit (MAX + 1)) (by omega)
  rw [List.drop_zero, List.take_of_length_le (by omega)] at ht₁
  obtain ⟨t₂, hwrite, ht₂⟩ := ht₁.write_end (by omega) key
  rw [← List.insertIdx_length_self] at ht₂
  obtain ⟨p, t₃, hsift, ht₃, hslot⟩ := sift_spec ht₂ (Nat.le_refl _) (by simp)
  rw [hslot.insertIdx_eq hsorted, hall] at ht₃
  rw [hfull] at hwrite hsift
  obtain ⟨t₄, hleft, ht₄⟩ := ht₃.for_up_copy 0 MID (by omega) h.keys.length (by omega)
  obtain ⟨t₅, hright, ht₅⟩ := ht₃.for_up_copy MID (MAX + 1 - MID) (by omega) (length_uninit MAX) (by omega)
  rw [hrest, List.take_of_length_le (by rw [← hrest, List.length_drop]; omega)] at ht₅
  rw [List.drop_zero] at ht₄
  refine ⟨{ node with count := MID, keys := t₄ },
    { createNode true with count := MAX + 1 - MID, keys := t₅, next := node.next }, ?_,
    ⟨h.isLeaf, ?_, ht₄, h.next⟩, ⟨rfl, ?_, ht₅, h.next⟩⟩
  · unfold splitLeaf
    rw [hcopy]
    simp only [Option.bind_eq_bind, Option.bind_some, hwrite, hsift]
    rw [show for_up (copy t₃ 0) ((MAX + 1) / 2) node.keys = some t₄ from hleft]
    simp only [Option.bind_some]
    rw [show for_up (copy t₃ ((MAX + 1) / 2)) (MAX + 1 - (MAX + 1) / 2) (createNode true).keys = some t₅ from hright]
    simp only [Option.bind_some]
    rw [ht₅.read_eq rfl]
    rfl
  · change MID = (all.take MID).length
    rw [List.length_take]
    omega
  · change MAX + 1 - MID = (k :: keys).length
    rw [← hrest, List.length_drop]
    omega

end Leaf

section Internal

variable {keys : List Int32} {ptrs : List Nat} {key : Int32} {n m i : Nat}

/-- The search of `insert` stops at the first key that is not below the new
one. -/
theorem child_index_spec {a : Slots Int32} (passed : List Int32) {pre post : List Int32}
    (h : Holds a n (passed ++ pre ++ post)) (hpre : ∀ k ∈ pre, k < key) (hpost : ∀ k ∈ post.head?, key ≤ k) :
    child_index a key passed.length (pre ++ post).length = some (passed ++ pre).length := by
  induction pre generalizing passed with
  | nil =>
    cases post with
    | nil => simp [child_index]
    | cons k post =>
      have hread : read a passed.length = some k := h.read_eq (by simp)
      have hstop : ¬ key > k := by simpa using hpost k rfl
      simp [child_index, hread, hstop]
  | cons k pre ih =>
    have hread : read a passed.length = some k := h.read_eq (by simp)
    have hpass : key > k := hpre k (List.mem_cons_self ..)
    have hrest : passed ++ k :: pre ++ post = passed ++ [k] ++ pre ++ post := by simp
    rw [hrest] at h
    have hrun := ih (passed ++ [k]) h fun x hx => hpre x (List.mem_cons_of_mem _ hx)
    rw [List.length_append, List.length_singleton] at hrun
    rw [List.cons_append, List.length_cons, child_index, hread]
    simp only [Option.bind_eq_bind, Option.bind_some, if_pos hpass, hrun]
    simp

/-- The loop that makes room for a key and the child after it. -/
private theorem shift_both_spec {a : Slots Int32} {b : Slots (Option Nat)} {ptrs : List (Option Nat)}
    (ha : Holds a n keys) (hb : Holds b m ptrs) (hlength : ptrs.length = keys.length + 1) (hi : i ≤ keys.length)
    (hn : keys.length < n) (hm : ptrs.length < m) (tempKey : Int32) (p : Option Nat) :
    ∃ a₁ b₁ a₂ b₂, for_down (both (shift 0) (shift 1)) i (keys.length - i) (a, b) = some (a₁, b₁) ∧
      write a₁ i tempKey = some a₂ ∧ write b₁ (i + 1) p = some b₂ ∧
      Holds a₂ n (keys.insertIdx i tempKey) ∧ Holds b₂ m (ptrs.insertIdx (i + 1) p) := by
  have hkeys : 0 + i + (keys.length - i) = keys.length := by omega
  have hptrs : 1 + i + (keys.length - i) = ptrs.length := by omega
  obtain ⟨a₁, hrun, hgap⟩ := Gap.for_down_shift (hkeys ▸ ha.gap hn) (Nat.le_of_eq hkeys)
  obtain ⟨b₁, hrun', hgap'⟩ := Gap.for_down_shift (hptrs ▸ hb.gap hm) (Nat.le_of_eq hptrs)
  rw [Nat.zero_add] at hgap
  rw [Nat.add_comm 1 i] at hgap'
  obtain ⟨a₂, hwrite, ha₂⟩ := hgap.fill hi tempKey
  obtain ⟨b₂, hwrite', hb₂⟩ := hgap'.fill (by omega) p
  exact ⟨a₁, b₁, a₂, b₂, for_down_both hrun hrun', hwrite, hwrite', ha₂, hb₂⟩

variable {node : BPlusTreeNode}

/-- The new child of a node with room stands right after the one that split. -/
theorem insertChild_spec (h : IsInternal node keys ptrs) (tempKey : Int32) (tempChild : Nat)
    (hlength : ptrs.length = keys.length + 1) (hi : i ≤ keys.length) (hroom : keys.length < MAX) :
    ∃ node', insertChild node i tempKey tempChild = some node' ∧
      IsInternal node' (keys.insertIdx i tempKey) (ptrs.insertIdx (i + 1) tempChild) := by
  obtain ⟨a₁, b₁, a₂, b₂, hshift, hkey, hchild, ha₂, hb₂⟩ := shift_both_spec h.keys h.child (by simpa using hlength) hi
    hroom (by simp; omega) tempKey (some tempChild)
  refine ⟨{ node with keys := a₂, child := b₂, count := node.count + 1 }, ?_, h.isLeaf, ?_, ha₂, ?_⟩
  · simp only [insertChild, h.count, hshift, Option.bind_eq_bind, Option.bind_some, hkey, hchild]
  · rw [List.length_insertIdx_of_le_length hi, h.count]
  · rw [List.map_insertIdx]
    exact hb₂

/-- `splitInternal` cuts the keys and children of a full node and the new ones in
two; the key in the middle moves up. -/
theorem splitInternal_spec (h : IsInternal node keys ptrs) {tempKey : Int32} (tempChild : Nat)
    (hlength : ptrs.length = keys.length + 1) (hi : i ≤ keys.length) (hfull : keys.length = MAX) {k : Int32}
    (hk : (keys.insertIdx i tempKey)[MID]? = some k) :
    ∃ node' newInternal, splitInternal node i tempKey tempChild = some (node', newInternal, k) ∧
      IsInternal node' ((keys.insertIdx i tempKey).take MID) ((ptrs.insertIdx (i + 1) tempChild).take (MID + 1)) ∧
      IsInternal newInternal ((keys.insertIdx i tempKey).drop (MID + 1))
        ((ptrs.insertIdx (i + 1) tempChild).drop (MID + 1)) := by
  have hmax : MAX = 3 := rfl
  have hmid : MID = 2 := rfl
  have hkeys : (keys.insertIdx i tempKey).length = MAX + 1 := by
    rw [List.length_insertIdx_of_le_length hi, hfull]
  have hptrs : (ptrs.insertIdx (i + 1) tempChild).length = MAX + 2 := by
    rw [List.length_insertIdx_of_le_length (by omega), hlength, hfull]
  obtain ⟨t₁, hcopy, ht₁⟩ := h.keys.for_up_copy 0 MAX (by omega) (length_uninit (MAX + 1)) (by omega)
  obtain ⟨c₁, hcopy', hc₁⟩ := h.child.for_up_copy 0 (MAX + 1) (by simp; omega) (length_uninit (MAX + 2)) (by omega)
  rw [List.drop_zero, List.take_of_length_le (by omega)] at ht₁
  rw [List.drop_zero, List.take_of_length_le (by simp; omega)] at hc₁
  obtain ⟨t₂, c₂, t₃, c₃, hshift, hkey, hchild, ht₃, hc₃⟩ := shift_both_spec ht₁ hc₁ (by simpa using hlength) hi
    (by omega) (by simp; omega) tempKey (some tempChild)
  rw [hfull] at hshift
  have hsize : ((ptrs.map some).insertIdx (i + 1) (some tempChild)).length = MAX + 2 := by
    rw [← List.map_insertIdx, List.length_map, hptrs]
  obtain ⟨t₄, hleft, ht₄⟩ := ht₃.for_up_copy 0 MID (by omega) h.keys.length (by omega)
  obtain ⟨c₄, hleft', hc₄⟩ := hc₃.for_up_copy 0 MID (by omega) h.child.length (by omega)
  obtain ⟨v, c₅, hread, hwrite, hc₅⟩ := hc₃.copy_step (by omega) (by omega) hc₄
  have hnew : (createNode false).child.length = MAX + 1 := List.length_replicate
  obtain ⟨t₅, hright, ht₅⟩ := ht₃.for_up_copy (MID + 1) (MAX - MID) (by omega) (length_uninit MAX) (by omega)
  obtain ⟨c₆, hright', hc₆⟩ := hc₃.for_up_copy (MID + 1) (MAX - MID) (by omega) hnew (by omega)
  obtain ⟨w, c₇, hread', hwrite', hc₇⟩ := hc₃.copy_step (by omega) (by omega) hc₆
  rw [List.drop_zero] at ht₄ hc₅
  rw [List.take_of_length_le (by rw [List.length_drop]; omega)] at ht₅ hc₇
  rw [Nat.zero_add] at hread
  refine ⟨{ node with count := MID, keys := t₄, child := c₅ },
    { createNode false with count := MAX - MID, keys := t₅, child := c₇ }, ?_, ⟨h.isLeaf, ?_, ht₄, ?_⟩,
    ⟨rfl, ?_, ht₅, ?_⟩⟩
  · unfold splitInternal
    rw [hcopy, Option.bind_eq_bind, Option.bind_some, hcopy', Option.bind_eq_bind, Option.bind_some, hshift,
      Option.bind_eq_bind, Option.bind_some]
    dsimp only
    rw [hkey, Option.bind_some, hchild, Option.bind_some]
    simp only [Option.bind_eq_bind]
    rw [show for_up (both (copy t₃ 0) (copy c₃ 0)) ((MAX + 1) / 2) (node.keys, node.child) = some (t₄, c₄) from
      for_up_both hleft hleft']
    simp only [Option.bind_some]
    rw [show read c₃ ((MAX + 1) / 2) = some v from hread]
    simp only [Option.bind_some]
    rw [show write c₄ ((MAX + 1) / 2) v = some c₅ from hwrite, show read t₃ ((MAX + 1) / 2) = some k from ht₃.read_eq hk]
    simp only [Option.bind_some]
    rw [show for_up (both (copy t₃ ((MAX + 1) / 2 + 1)) (copy c₃ ((MAX + 1) / 2 + 1))) (MAX - (MAX + 1) / 2)
      ((createNode false).keys, (createNode false).child) = some (t₅, c₆) from for_up_both hright hright']
    simp only [Option.bind_some]
    rw [show read c₃ (MAX + 1) = some w from hread']
    simp only [Option.bind_some]
    rw [show write c₆ (MAX - (MAX + 1) / 2) w = some c₇ from hwrite']
    rfl
  · dsimp only
    rw [List.length_take]
    omega
  · rw [List.map_take, List.map_insertIdx]
    exact hc₅
  · dsimp only
    rw [List.length_drop]
    omega
  · rw [List.map_drop, List.map_insertIdx]
    exact hc₇

end Internal

end csystems.bplus_tree
