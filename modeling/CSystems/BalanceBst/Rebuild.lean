import CSystems.Lib.BinaryTree
import CSystems.Lib.CArray

open clib.array clib.binary_tree

namespace csystems.balance_bst

/-- The array and `*size`; `none` if a write is out of bounds. -/
def inorder : BinaryTree Int32 → Slots Int32 → Nat → Option (Slots Int32 × Nat)
  | .nil, arr, size => some (arr, size)
  | .node val left right, arr, size => do
    let (arr, size) ← inorder left arr size
    let arr ← write arr size val
    inorder right arr (size + 1)

/-- `none` if a read is out of bounds or of a slot that was never written. The
source calls `stop` `end`. -/
def buildBalanced (arr : Slots Int32) (start : Nat) (stop : Int) : Option (BinaryTree Int32) :=
  if stop < start then some .nil
  else do
    let mid := start + (stop - start).toNat / 2
    let val ← read arr mid
    let left ← buildBalanced arr start (mid - 1)
    let right ← buildBalanced arr (mid + 1) stop
    some (.node val left right)
termination_by (stop + 1 - start).toNat

def balanceBST (root : BinaryTree Int32) : Option (BinaryTree Int32) := do
  let (arr, size) ← inorder root (uninit 10000) 0
  buildBalanced arr 0 (size - 1)

variable {arr : Slots Int32} {xs : List Int32} {n : Nat}

/-- The traversal writes the values behind those written before. -/
theorem inorder_eq (t : BinaryTree Int32) (h : Holds arr n xs) (hroom : xs.length + t.numNodes ≤ n) :
    ∃ arr', inorder t arr xs.length = some (arr', (xs ++ in_order t).length) ∧ Holds arr' n (xs ++ in_order t) := by
  induction t generalizing arr xs with
  | nil =>
    rw [in_order, List.append_nil]
    exact ⟨arr, rfl, h⟩
  | node val left right ihl ihr =>
    rw [BinaryTree.numNodes] at hroom
    obtain ⟨arr₁, hleft, harr₁⟩ := ihl h (by omega)
    have hlength : (xs ++ in_order left).length = xs.length + left.numNodes := by
      rw [List.length_append, length_in_order]
    obtain ⟨arr₂, hwrite, harr₂⟩ := harr₁.write_end (by omega) val
    have hsucc : (xs ++ in_order left ++ [val]).length = (xs ++ in_order left).length + 1 := List.length_append
    obtain ⟨arr₃, hright, harr₃⟩ := ihr harr₂ (by omega)
    have hvalues : xs ++ in_order left ++ [val] ++ in_order right = xs ++ in_order (.node val left right) := by
      rw [in_order]
      simp only [List.append_assoc, List.cons_append, List.nil_append]
    rw [hsucc, hvalues] at hright
    rw [hvalues] at harr₃
    refine ⟨arr₃, ?_, harr₃⟩
    simp only [inorder, hleft, hwrite, hright, Option.bind_eq_bind, Option.bind_some]

/-- A part of the array becomes a tree of its values whose halves are balanced. -/
theorem buildBalanced_eq {start : Nat} (h : Reads arr start xs) :
    ∃ t, buildBalanced arr start (start + xs.length - 1) = some t ∧ in_order t = xs ∧ SizeBalanced t := by
  induction hn : xs.length using Nat.strongRecOn generalizing start xs with
  | ind n ih =>
    subst hn
    rw [buildBalanced]
    by_cases hpos : 0 < xs.length
    · have hmid : start + ((start : Int) + xs.length - 1 - start).toNat / 2 = start + (xs.length - 1) / 2 := by omega
      obtain ⟨pre, v, post, hsplit, hmiddle, hlength⟩ := exists_split (show (xs.length - 1) / 2 < xs.length by omega)
      subst hsplit
      have hhere : read arr (start + pre.length) = some v := by
        rw [h pre.length (by omega), List.getElem?_append_right (Nat.le_refl _), Nat.sub_self, List.getElem?_cons_zero]
      have hpost : Reads arr (start + pre.length + 1) post := by
        have hdrop := h.drop (m := pre.length) (by omega)
        rw [List.drop_left] at hdrop
        exact hdrop.tail
      obtain ⟨left, hleft, hleftOrder, hleftSize⟩ := ih pre.length (by omega) h.of_append rfl
      obtain ⟨right, hright, hrightOrder, hrightSize⟩ := ih post.length (by omega) hpost rfl
      refine ⟨.node v left right, ?_, by rw [in_order, hleftOrder, hrightOrder], ?_⟩
      · have hstop : ((start + pre.length + 1 : Nat) : Int) + post.length - 1 =
            (start : Int) + (pre ++ v :: post).length - 1 := by omega
        rw [hstop] at hright
        rw [if_neg (by omega)]
        simp only [hmid, ← hmiddle, hhere, Int.natCast_add, hleft, hright, Option.bind_eq_bind, Option.bind_some]
      · refine sizeBalanced_node hleftSize hrightSize ?_ ?_
        · rw [hleftOrder, hrightOrder]
          omega
        · rw [hleftOrder, hrightOrder]
          omega
    · obtain rfl : xs = [] := List.eq_nil_of_length_eq_zero (by omega)
      exact ⟨.nil, if_pos (by rw [List.length_nil]; omega), rfl, trivial⟩

/-- The tree of at most `10000` nodes that is returned has the same values in the
same order and balanced heights. -/
theorem balanceBST_balanced (root : BinaryTree Int32) (hfew : root.numNodes ≤ 10000) :
    ∃ t, balanceBST root = some t ∧ in_order t = in_order root ∧ HeightBalanced t := by
  obtain ⟨arr, hrun, harr⟩ := inorder_eq root (holds_nil (length_uninit 10000)) (by rw [List.length_nil]; omega)
  rw [List.nil_append] at hrun harr
  have hreads : Reads arr 0 (in_order root) := by
    intro i hi
    rw [Nat.zero_add, List.getElem?_eq_getElem hi, harr.read_eq (List.getElem?_eq_getElem hi)]
  obtain ⟨t, hbuild, horder, hsize⟩ := buildBalanced_eq hreads
  refine ⟨t, ?_, horder, hsize.heightBalanced⟩
  rw [List.length_nil] at hrun
  rw [Int.natCast_zero, Int.zero_add] at hbuild
  simp only [balanceBST, hrun, hbuild, Option.bind_eq_bind, Option.bind_some]

theorem balanceBST_chain :
    ∃ t, balanceBST (.node 1 .nil (.node 2 .nil (.node 3 .nil .nil))) = some t ∧
      in_order t = in_order (.node 1 .nil (.node 2 .nil (.node 3 .nil .nil))) ∧ HeightBalanced t :=
  balanceBST_balanced (.node 1 .nil (.node 2 .nil (.node 3 .nil .nil))) (by decide)

end csystems.balance_bst
