import Mathlib.Algebra.BigOperators.Ring.List
import Mathlib.Algebra.Group.Action.Defs
import Mathlib.Algebra.Order.BigOperators.Group.List
import Mathlib.Tactic.Ring
import CSystems.Lib.LinkedList
import CSystems.Lib.Run
import CSystems.BplusTree.Refinement

open clib.array clib.heap clib.row clib.run

namespace csystems.bplus_tree

/-- In every internal node all keys below child `i` are at most key `i`, and all
keys below child `i + 1` are at least key `i`. -/
def Separated : {d : Nat} → tree_t d → Prop
  | 0, _ => True
  | _ + 1, t =>
    (∀ (i : Nat) (k : Int32), (branch_t.row t).keys[i]? = some k →
      (∀ c, (branch_t.row t).children[i]? = some c → ∀ x ∈ inorder c, x ≤ k) ∧
      ∀ c, (branch_t.row t).children[i + 1]? = some c → ∀ x ∈ inorder c, k ≤ x) ∧
    ∀ c ∈ (branch_t.row t).children, Separated c

section Tree

variable {d : Nat} {t : tree_t d}

theorem Ordered.separated (h : Ordered t) : Separated t := by
  induction d with
  | zero => trivial
  | succ d ih =>
    change branch_t (tree_t d) at t
    have hsorted : (t.row.fold (fun k => [k]) inorder).Pairwise (· ≤ ·) := h
    refine ⟨?_, ?_⟩
    · intro i k hk
      obtain ⟨pre, c, c', post, hrow, rfl⟩ := exists_join_of_getElem_keys hk
      rw [hrow, fold_join, List.flatMap_cons, List.pairwise_append] at hsorted
      obtain ⟨-, hright, hacross⟩ := hsorted
      have hget : t.row.children[pre.length]? = some c := by
        rw [hrow, children_join]
        simp
      have hget' : t.row.children[pre.length + 1]? = some c' := by
        rw [hrow, children_join]
        simp
      refine ⟨?_, ?_⟩
      · intro b hb x hx
        rw [hget] at hb
        cases hb
        exact hacross x (List.mem_append_right _ hx) k (by simp)
      · intro b hb x hx
        rw [hget'] at hb
        cases hb
        exact (List.pairwise_cons.mp hright).1 x (List.mem_append_left _ hx)
    · intro c hc
      exact ih (hsorted.sublist (Row.sublist_fold_of_mem_children hc _ inorder))

theorem depth_lt_length_addrs (t : tree_t d) : d < (addrs t).length := by
  induction d with
  | zero => exact Nat.one_pos
  | succ d ih =>
    change branch_t (tree_t d) at t
    have hhead := ih t.row.head
    have hmem : t.row.head ∈ t.row.children := List.mem_cons_self ..
    have hle := (Row.sublist_fold_of_mem_children hmem (fun _ => []) addrs).length_le
    rw [addrs, List.length_cons]
    omega

theorem leaves_sublist_addrs (t : tree_t d) : ((leaves t).map leaf_t.addr).Sublist (addrs t) := by
  induction d with
  | zero => exact List.Sublist.refl _
  | succ d ih =>
    change branch_t (tree_t d) at t
    rw [leaves, addrs, Row.fold_nil, List.map_flatMap, ← Row.fold_nil]
    exact (Row.fold_sublist (fun _ => List.Sublist.refl _) ih).trans (List.sublist_cons_self _ _)

theorem contents_sublist_inorder (t : tree_t d) : (contents t).Sublist (inorder t) := by
  induction d with
  | zero =>
    change leaf_t at t
    simp [contents, leaves, inorder]
  | succ d ih =>
    change branch_t (tree_t d) at t
    rw [contents, leaves, inorder, Row.fold_nil, List.flatMap_assoc, ← Row.fold_nil]
    exact Row.fold_sublist (fun _ => List.nil_sublist _) ih

end Tree

section Chain

variable {heap : Heap BPlusTreeNode} {after : Option Nat}

theorem start_leaves {d : Nat} (t : tree_t d) (after : Option Nat) :
    start leaf_t.addr (leaves t) after = some (first_leaf t) := by
  induction d generalizing after with
  | zero => rfl
  | succ d ih =>
    change branch_t (tree_t d) at t
    rw [leaves, Row.fold, start_append, ih, first_leaf]

/-- The leaves of the trees are linked as the trees are. -/
private theorem siblings_leaves {d : Nat} {ts : List (tree_t d)}
    (h : Siblings (fun t after => Siblings (Represents heap (d := 0)) leaf_t.addr (leaves t) after) first_leaf ts
      after) :
    Siblings (Represents heap (d := 0)) leaf_t.addr (ts.flatMap leaves) after := by
  induction ts with
  | nil => trivial
  | cons t ts ih =>
    have hstart : start leaf_t.addr (ts.flatMap leaves) after = start first_leaf ts after := by
      cases ts with
      | nil => rfl
      | cons u us => rw [List.flatMap_cons, start_append, start_leaves, start]
    rw [List.flatMap_cons, siblings_append, hstart]
    exact ⟨h.1, ih h.2⟩

/-- Each leaf is linked to the one on its right. -/
theorem Represents.leaves {d : Nat} {t : tree_t d} (h : Represents heap t after) :
    Siblings (Represents heap (d := 0)) leaf_t.addr (leaves t) after := by
  induction d generalizing after with
  | zero => exact ⟨h, trivial⟩
  | succ d ih =>
    change branch_t (tree_t d) at t
    rw [bplus_tree.leaves, Row.fold_nil]
    exact siblings_leaves (h.2.imp fun _ _ _ hrep => ih hrep)

/-- Following `next` visits the leaves from left to right. -/
theorem leaf_chain_eq {ls : List leaf_t} (h : Siblings (Represents heap (d := 0)) leaf_t.addr ls none) {fuel : Nat}
    (hfuel : ls.length < fuel) :
    leaf_chain heap fuel (start leaf_t.addr ls none) = some (ls.map fun l => (l.addr, l.keys)) := by
  induction ls generalizing fuel with
  | nil =>
    obtain ⟨fuel, rfl⟩ : ∃ k, fuel = k + 1 := ⟨fuel - 1, by omega⟩
    rfl
  | cons l ls ih =>
    obtain ⟨fuel, rfl⟩ : ∃ k, fuel = k + 1 := ⟨fuel - 1, by simp at hfuel; omega⟩
    obtain ⟨⟨node, hget, hnode⟩, hrest⟩ := h
    have hkeys := hnode.keys.mapM_read (Nat.le_refl _)
    rw [← hnode.count, List.take_of_length_le (Nat.le_of_eq hnode.count.symm)] at hkeys
    have hchain := ih hrest (by simpa using hfuel)
    rw [start, leaf_chain, hget]
    simp only [Option.bind_eq_bind, Option.bind_some, hkeys, hnode.next, hchain, List.map_cons]

end Chain

/-- The tree at `r` in the heap, with these keys in its leaves. -/
structure Built (heap : Heap BPlusTreeNode) (r : Nat) {d : Nat} (t : tree_t d) (keys : List Int32) : Prop where
  address : root t = r
  represents : Represents heap t none
  nodup : (addrs t).Nodup
  filled : Filled 0 t
  ordered : Ordered t
  holds : (contents t).Perm keys

section Build

variable {heap : Heap BPlusTreeNode} {r d : Nat} {t : tree_t d} {keys : List Int32}

theorem Built.length_addrs_le (h : Built heap r t keys) : (addrs t).length ≤ heap.next :=
  length_le_of_nodup_lt h.nodup h.represents.lt_next

/-- The root `main` puts above the halves of the old one. -/
private theorem newRoot_spec (upKey : Int32) (left right : Nat) :
    ∃ keys child child', write (createNode false).keys 0 upKey = some keys ∧
      write (createNode false).child 0 (some left) = some child ∧ write child 1 (some right) = some child' ∧
      IsInternal { createNode false with keys := keys, child := child', count := 1 } [upKey] [left, right] := by
  refine ⟨_, _, _, rfl, rfl, rfl, rfl, rfl, ⟨rfl, ?_⟩, ⟨rfl, ?_⟩⟩
  · intro i x hx
    match i with
    | 0 => exact congrArg some hx
    | i + 1 => simp at hx
  · intro i x hx
    match i with
    | 0 => exact congrArg some hx
    | 1 => exact congrArg some hx
    | i + 2 => simp at hx

/-- One round of the loop of `main`, in which every node it allocates becomes one of the
tree. -/
theorem Built.step (h : Built heap r t keys) (key : Int32) :
    ∃ (heap' : Heap BPlusTreeNode) (r' d' : Nat) (t' : tree_t d'),
      insert_key (heap, r) key = some (heap', r') ∧ Built heap' r' t' (key :: keys) ∧
        ((addrs t).length = heap.next → (addrs t').length = heap'.next) := by
  have hfuel : d < heap.next + 1 := by
    have hdepth := depth_lt_length_addrs t
    have hle := h.length_addrs_le
    omega
  obtain ⟨heap₁, hrun, hrefined⟩ := insert_refines key h.represents h.ordered h.filled h.nodup hfuel
  have hinorder := (insert_tree_inorder key t heap.next h.ordered).1
  have hcontents := (insert_tree_contents key t heap.next).trans (h.holds.cons key)
  have hfilled := insert_tree_filled key t heap.next h.filled
  have hleft := (insert_tree_left key t heap.next).1
  have hnodup : ((insert_tree key t heap.next).1.list (fun _ => []) addrs).Nodup := by
    obtain ⟨m, -, hperm⟩ := insert_tree_addrs key t heap.next
    refine hperm.nodup_iff.mpr (List.nodup_append.mpr ⟨h.nodup, List.nodup_range', ?_⟩)
    rintro a ha b hb rfl
    exact Nat.not_lt_of_ge (List.mem_range'_1.mp hb).1 (h.represents.lt_next a ha)
  have hallocated (hall : (addrs t).length = heap.next) :
      ((insert_tree key t heap.next).1.list (fun _ => []) addrs).length = heap₁.next := by
    obtain ⟨m, hnext, hperm⟩ := insert_tree_addrs key t heap.next
    rw [hperm.length_eq, List.length_append, List.length_range', hall, hrefined.next, hnext]
  have htrees := hrefined.trees
  rw [h.address] at hrun hleft
  cases hgrown : (insert_tree key t heap.next).1 with
  | kept t' =>
    rw [hgrown] at hrun hinorder hcontents hfilled hleft hnodup hallocated htrees
    refine ⟨heap₁, r, d, t', ?_, ⟨hleft, htrees.1, hnodup, hfilled, hinorder, hcontents⟩, hallocated⟩
    simp [insert_key, hrun, grown_t.pointers]
  | split left upKey right =>
    rw [hgrown] at hrun hinorder hcontents hfilled hleft hnodup hallocated htrees
    obtain ⟨ks, child, child', hkeys, hchild, hchild', hnode⟩ := newRoot_spec upKey r (root right)
    let newRoot : BPlusTreeNode := { createNode false with keys := ks, child := child', count := 1 }
    let t' : branch_t (tree_t d) := { addr := heap₁.next, row := { head := left, entries := [(upKey, right)] } }
    have hlt : ∀ a ∈ addrs left ++ addrs right, a < heap₁.next := by
      intro a ha
      rcases List.mem_append.mp ha with ha | ha
      · exact htrees.1.lt_next a ha
      · exact htrees.2.1.lt_next a ha
    have haddrs : t'.row.fold (fun _ => []) addrs = addrs left ++ addrs right := by simp [t', Row.fold]
    have hrun' : insert_key (heap, r) key = some ((heap₁.alloc newRoot).2, heap₁.next) := by
      simp [insert_key, hrun, grown_t.pointers, hkeys, hchild, hchild', newRoot]
    refine ⟨_, _, d + 1, t', hrun', ⟨rfl, ⟨⟨newRoot, Heap.get_alloc_self heap₁ newRoot, ?_⟩, ?_⟩, ?_, ?_, ?_, ?_⟩,
      fun hall => ?_⟩
    · rw [← hleft] at hnode
      exact hnode
    · refine Represents.siblings_congr htrees ?_
      intro c hc a ha
      refine Heap.get_alloc_of_ne _ _ (Nat.ne_of_lt (hlt a ?_))
      rcases List.mem_cons.mp hc with rfl | hc
      · exact List.mem_append_left _ ha
      · rw [List.mem_singleton.mp hc] at ha
        exact List.mem_append_right _ ha
    · refine List.nodup_cons.mpr ⟨?_, ?_⟩
      · rw [haddrs]
        exact fun hmem => Nat.lt_irrefl _ (hlt _ hmem)
      · rw [haddrs]
        simpa [grown_t.list] using hnodup
    · refine ⟨Nat.le_refl 1, Nat.le_add_left 1 2, ?_⟩
      intro c hc
      rcases List.mem_cons.mp hc with rfl | hc
      · exact hfilled.1
      · rw [List.mem_singleton.mp hc]
        exact hfilled.2
    · simpa [Ordered, inorder, t', Row.fold, grown_t.list] using hinorder
    · simpa [contents, leaves, t', Row.fold, grown_t.list] using hcontents
    · have hlength := hallocated hall
      rw [bplus_tree.addrs, List.length_cons]
      show (t'.row.fold (fun _ => []) addrs).length + 1 = heap₁.next + 1
      rw [haddrs, ← hlength]
      simp [grown_t.list]

theorem build_allocated (keys : List Int32) :
    ∃ (heap : Heap BPlusTreeNode) (r d : Nat) (t : tree_t d), build keys = some (heap, r) ∧ Built heap r t keys ∧
      (addrs t).length = heap.next := by
  have hbuild : ∃ root : Heap BPlusTreeNode × Nat, build keys = some root ∧
      ∃ (d : Nat) (t : tree_t d), Built root.1 root.2 t keys ∧ (addrs t).length = root.1.next := by
    refine foldlM_history (fun past (root : Heap BPlusTreeNode × Nat) =>
      ∃ (d : Nat) (t : tree_t d), Built root.1 root.2 t past ∧ (addrs t).length = root.1.next) ?_ ?_
    · refine ⟨0, ({ addr := 0, keys := [] } : leaf_t), ⟨rfl, ⟨createNode true, rfl, rfl, rfl, holds_nil rfl, rfl⟩, ?_,
        ⟨Nat.le_refl 0, Nat.zero_le MAX⟩, List.Pairwise.nil, List.Perm.refl _⟩, rfl⟩
      simp [addrs]
    · rintro past key ⟨heap, r⟩ - ⟨d, t, hbuilt, hall⟩
      obtain ⟨heap', r', d', t', hrun, hbuilt', hallocated⟩ := hbuilt.step key
      refine ⟨(heap', r'), hrun, d', t', ?_, hallocated hall⟩
      exact { hbuilt' with holds := hbuilt'.holds.trans (List.perm_append_singleton key past).symm }
  obtain ⟨⟨heap, r⟩, hrun, d, t, hbuilt⟩ := hbuild
  exact ⟨heap, r, d, t, hrun, hbuilt⟩

theorem build_built (keys : List Int32) :
    ∃ (heap : Heap BPlusTreeNode) (r d : Nat) (t : tree_t d), build keys = some (heap, r) ∧ Built heap r t keys := by
  obtain ⟨heap, r, d, t, hrun, hbuilt, -⟩ := build_allocated keys
  exact ⟨heap, r, d, t, hrun, hbuilt⟩

end Build

/-- Whatever keys are inserted, the tree built has all leaves at one depth `d`,
nodes that are neither too full nor too empty, keys that separate the children,
and leaves linked from left to right that hold the inserted keys in order. -/
theorem bplus_tree_structure (keys : List Int32) :
    ∃ (heap : Heap BPlusTreeNode) (r d : Nat) (t : tree_t d),
      build keys = some (heap, r) ∧ root t = r ∧ Represents heap t none ∧ (addrs t).Nodup ∧
      Filled 0 t ∧ Separated t ∧
      leaf_chain heap (heap.next + 1) (some (first_leaf t)) = some ((leaves t).map fun l => (l.addr, l.keys)) ∧
      ((leaves t).flatMap leaf_t.keys).Pairwise (· ≤ ·) ∧ ((leaves t).flatMap leaf_t.keys).Perm keys := by
  obtain ⟨heap, r, d, t, hrun, h⟩ := build_built keys
  refine ⟨heap, r, d, t, hrun, h.address, h.represents, h.nodup, h.filled, h.ordered.separated, ?_,
    h.ordered.sublist (contents_sublist_inorder t), h.holds⟩
  rw [← start_leaves t none]
  refine leaf_chain_eq h.represents.leaves ?_
  have hle := (leaves_sublist_addrs t).length_le
  have haddrs := h.length_addrs_le
  rw [List.length_map] at hle
  omega

section Size

variable {d : Nat} {t : tree_t d}

theorem contents_branch (t : branch_t (tree_t d)) : contents (d := d + 1) t = t.row.children.flatMap contents := by
  rw [contents, leaves, Row.fold_nil, List.flatMap_assoc]
  rfl

/-- A node that is not the root has at least two keys below it, and twice as many in
each level above. -/
theorem Filled.two_pow_le (h : Filled 2 t) : 2 ^ (d + 1) ≤ (contents t).length := by
  induction d with
  | zero =>
    rw [contents, leaves, List.flatMap_cons, List.flatMap_nil, List.append_nil]
    exact h.1
  | succ d ih =>
    change branch_t (tree_t d) at t
    obtain ⟨hleast, -, hchildren⟩ := h
    have hsum := List.card_nsmul_le_sum (t.row.children.map fun c => (contents c).length) (2 ^ (d + 1)) (by
      intro n hn
      obtain ⟨c, hc, rfl⟩ := List.mem_map.mp hn
      exact ih (hchildren c hc))
    rw [List.length_map, Row.length_children, smul_eq_mul] at hsum
    rw [contents_branch, List.length_flatMap]
    have htwo : 2 * 2 ^ (d + 1) ≤ (t.row.keys.length + 1) * 2 ^ (d + 1) :=
      Nat.mul_le_mul_right _ (Nat.succ_le_succ hleast)
    rw [Nat.pow_succ']
    exact htwo.trans hsum

theorem Filled.length_le {least : Nat} (h : Filled least t) : (contents t).length ≤ MAX * (MAX + 1) ^ d := by
  induction d generalizing least with
  | zero =>
    rw [contents, leaves, List.flatMap_cons, List.flatMap_nil, List.append_nil, Nat.pow_zero, Nat.mul_one]
    exact h.2
  | succ d ih =>
    change branch_t (tree_t d) at t
    obtain ⟨-, hmost, hchildren⟩ := h
    have hsum := List.sum_le_card_nsmul (t.row.children.map fun c => (contents c).length) (MAX * (MAX + 1) ^ d) (by
      intro n hn
      obtain ⟨c, hc, rfl⟩ := List.mem_map.mp hn
      exact ih (hchildren c hc))
    rw [List.length_map, Row.length_children, smul_eq_mul] at hsum
    rw [contents_branch, List.length_flatMap]
    have hroom : (t.row.keys.length + 1) * (MAX * (MAX + 1) ^ d) ≤ (MAX + 1) * (MAX * (MAX + 1) ^ d) :=
      Nat.mul_le_mul_right _ (Nat.succ_le_succ hmost)
    refine (hsum.trans hroom).trans (Nat.le_of_eq ?_)
    ring

/-- There are fewer inner nodes than leaves. -/
theorem Filled.length_addrs_lt {least : Nat} (h : Filled least t) : (addrs t).length < 2 * (leaves t).length := by
  induction d generalizing least with
  | zero => exact Nat.one_lt_two
  | succ d ih =>
    change branch_t (tree_t d) at t
    obtain ⟨hleast, -, hchildren⟩ := h
    have hsum : (t.row.children.map fun c => (addrs c).length + 1).sum ≤
        (t.row.children.map fun c => 2 * (leaves c).length).sum :=
      List.sum_le_sum fun c hc => ih (hchildren c hc)
    rw [List.sum_map_add, List.sum_map_mul_left] at hsum
    rw [addrs, leaves, List.length_cons, Row.fold_nil, Row.fold_nil, List.length_flatMap, List.length_flatMap]
    have hcount := Row.length_children t.row
    simp only [List.map_const', List.sum_replicate, smul_eq_mul, Nat.mul_one] at hsum
    omega

theorem Filled.leaves_le (h : Filled 2 t) : 2 * (leaves t).length ≤ (contents t).length := by
  induction d with
  | zero =>
    rw [contents, leaves, List.flatMap_cons, List.flatMap_nil, List.append_nil]
    exact h.1
  | succ d ih =>
    change branch_t (tree_t d) at t
    obtain ⟨-, -, hchildren⟩ := h
    have hsum : (t.row.children.map fun c => 2 * (leaves c).length).sum ≤
        (t.row.children.map fun c => (contents c).length).sum :=
      List.sum_le_sum fun c hc => ih (hchildren c hc)
    rw [List.sum_map_mul_left] at hsum
    rw [contents_branch, leaves, Row.fold_nil, List.length_flatMap, List.length_flatMap]
    exact hsum

end Size

/-- The tree of `n` keys has a logarithmic height, and no node is lost: the nodes
allocated are those of the tree, and once the root has split they are fewer than the
keys. -/
theorem bplus_tree_compact (keys : List Int32) :
    ∃ (heap : Heap BPlusTreeNode) (r d : Nat) (t : tree_t d), build keys = some (heap, r) ∧ root t = r ∧
      Represents heap t none ∧ (∀ a, a ∈ addrs t ↔ a < heap.next) ∧ keys.length ≤ MAX * (MAX + 1) ^ d ∧
      (d ≠ 0 → 2 ^ (d + 1) ≤ keys.length ∧ heap.next < keys.length) := by
  obtain ⟨heap, r, d, t, hrun, h, hall⟩ := build_allocated keys
  have hlength := h.holds.length_eq
  refine ⟨heap, r, d, t, hrun, h.address, h.represents, fun a => ⟨h.represents.lt_next a, fun ha => ?_⟩, ?_,
    fun hd => ?_⟩
  · have hsubset : addrs t ⊆ List.range heap.next := fun b hb => List.mem_range.mpr (h.represents.lt_next b hb)
    have hperm := (List.subperm_of_subset h.nodup hsubset).perm_of_length_le (by rw [List.length_range, hall])
    exact hperm.mem_iff.mpr (List.mem_range.mpr ha)
  · rw [← hlength]
    exact h.filled.length_le
  · have hfilled : Filled 2 t := by
      cases d with
      | zero => exact absurd rfl hd
      | succ d => exact h.filled
    have hnodes := hfilled.length_addrs_lt
    have hleaves := hfilled.leaves_le
    have hheight := hfilled.two_pow_le
    rw [hlength] at hleaves hheight
    exact ⟨hheight, by omega⟩

end csystems.bplus_tree
