import Mathlib.Data.Finset.Card
import Mathlib.Data.Nat.Size
import Mathlib.Data.Tree.Basic
import Mathlib.Algebra.Order.Ring.Int
import Mathlib.Tactic.Ring

namespace clib.binary_tree

variable {α : Type}

/-- The values of a tree from the left to the right. -/
def in_order : BinaryTree α → List α
  | .nil => []
  | .node v left right => in_order left ++ v :: in_order right

/-- The sizes of the two subtrees of every node differ by at most one. -/
def SizeBalanced : BinaryTree α → Prop
  | .nil => True
  | .node _ left right =>
    left.numNodes ≤ right.numNodes + 1 ∧ right.numNodes ≤ left.numNodes + 1 ∧ SizeBalanced left ∧ SizeBalanced right

/-- The heights of the two subtrees of every node differ by at most one. -/
def HeightBalanced : BinaryTree α → Prop
  | .nil => True
  | .node _ left right =>
    left.height ≤ right.height + 1 ∧ right.height ≤ left.height + 1 ∧ HeightBalanced left ∧ HeightBalanced right

/-- Every node has either no child or two. -/
def Full : BinaryTree α → Prop
  | .nil => True
  | .node _ left right => (left = .nil ↔ right = .nil) ∧ Full left ∧ Full right

/-- The values left of every node are below its value, those right of it above. -/
def IsSearchTree (r : α → α → Prop) : BinaryTree α → Prop
  | .nil => True
  | .node v left right =>
    (∀ x ∈ in_order left, r x v) ∧ (∀ x ∈ in_order right, r v x) ∧ IsSearchTree r left ∧ IsSearchTree r right

theorem length_in_order (t : BinaryTree α) : (in_order t).length = t.numNodes := by
  induction t with
  | nil => rfl
  | node v left right ihl ihr =>
    rw [in_order, BinaryTree.numNodes, List.length_append, List.length_cons, ihl, ihr, Nat.add_assoc]

/-- A list around one of its positions. -/
theorem exists_split {xs : List α} {i : Nat} (hi : i < xs.length) :
    ∃ pre m post, xs = pre ++ m :: post ∧ pre.length = i ∧ pre.length + post.length + 1 = xs.length := by
  refine ⟨xs.take i, xs[i], xs.drop (i + 1), ?_, ?_, ?_⟩
  · rw [← List.drop_eq_getElem_cons, List.take_append_drop]
  · rw [List.length_take]
    omega
  · rw [List.length_take, List.length_drop]
    omega

theorem isSearchTree_of_sorted {r : α → α → Prop} {t : BinaryTree α} (h : (in_order t).Pairwise r) :
    IsSearchTree r t := by
  induction t with
  | nil => trivial
  | node v left right ihl ihr =>
    obtain ⟨hleft, hright, hacross⟩ := List.pairwise_append.mp h
    obtain ⟨hv, hright⟩ := List.pairwise_cons.mp hright
    exact ⟨fun x hx => hacross x hx v List.mem_cons_self, hv, ihl hleft, ihr hright⟩

section Height

theorem size_double {n : Nat} (h : 0 < n) : Nat.size (2 * n) = Nat.size n + 1 := by
  have hbit := Nat.size_bit (b := false) (n := n) (by rw [Nat.bit_val, Bool.toNat_false]; omega)
  rwa [Nat.bit_val, Bool.toNat_false, Nat.add_zero] at hbit

theorem size_double_succ (n : Nat) : Nat.size (2 * n + 1) = Nat.size n + 1 := by
  have hbit := Nat.size_bit (b := true) (n := n) (by rw [Nat.bit_val, Bool.toNat_true]; omega)
  rwa [Nat.bit_val, Bool.toNat_true] at hbit

theorem size_succ_le (n : Nat) : Nat.size (n + 1) ≤ Nat.size n + 1 := by
  rw [← size_double_succ]
  exact Nat.size_le_size (by omega)

variable {t : BinaryTree α}

/-- The height of a tree of balanced sizes depends on its size alone. -/
theorem SizeBalanced.height_eq (h : SizeBalanced t) : t.height = Nat.size t.numNodes := by
  induction t with
  | nil => exact Nat.size_zero.symm
  | node v left right ihl ihr =>
    obtain ⟨hleft, hright, hl, hr⟩ := h
    rw [BinaryTree.height, BinaryTree.numNodes, ihl hl, ihr hr]
    generalize left.numNodes = a at *
    generalize right.numNodes = b at *
    obtain rfl | rfl | rfl : a = b ∨ a = b + 1 ∨ b = a + 1 := by omega
    · rw [Nat.max_self, ← Nat.two_mul, size_double_succ]
    · have hmax := Nat.size_le_size (Nat.le_succ b)
      rw [Nat.max_eq_left hmax, show b + 1 + b + 1 = 2 * (b + 1) by omega, size_double (Nat.succ_pos b)]
    · have hmax := Nat.size_le_size (Nat.le_succ a)
      rw [Nat.max_eq_right hmax, show a + (a + 1) + 1 = 2 * (a + 1) by omega, size_double (Nat.succ_pos a)]

theorem SizeBalanced.heightBalanced (h : SizeBalanced t) : HeightBalanced t := by
  induction t with
  | nil => trivial
  | node v left right ihl ihr =>
    obtain ⟨hleft, hright, hl, hr⟩ := h
    have hlr := Nat.size_le_size hleft
    have hrl := Nat.size_le_size hright
    have hls := size_succ_le left.numNodes
    have hrs := size_succ_le right.numNodes
    exact ⟨by rw [hl.height_eq, hr.height_eq]; omega, by rw [hl.height_eq, hr.height_eq]; omega, ihl hl, ihr hr⟩

/-- A tree whose halves are balanced and as large as each other, up to one. -/
theorem sizeBalanced_node {v : α} {left right : BinaryTree α} (hl : SizeBalanced left) (hr : SizeBalanced right)
    (hleft : (in_order left).length ≤ (in_order right).length + 1)
    (hright : (in_order right).length ≤ (in_order left).length + 1) : SizeBalanced (.node v left right) := by
  rw [length_in_order, length_in_order] at hleft hright
  exact ⟨hleft, hright, hl, hr⟩

end Height

end clib.binary_tree

namespace clib.binary_tree

variable {α : Type}

/-- The places of one level from the left to the right, `none` where there is no node. -/
def level : BinaryTree α → Nat → List (Option α)
  | .nil, d => List.replicate (2 ^ d) none
  | .node v _ _, 0 => [some v]
  | .node _ left right, d + 1 => level left d ++ level right d

/-- All levels are full except the last, which is filled from the left. -/
structure Complete (t : BinaryTree α) : Prop where
  full : ∀ d, (∃ x ∈ level t (d + 1), x.isSome) → ∀ x ∈ level t d, x.isSome
  from_left : ∀ d, ∃ (nodes : List α) (rest : Nat), level t d = nodes.map some ++ List.replicate rest none

/-- The tree in which the children of place `i` are at `2 * i + 1` and `2 * i + 2`, from
place `i` down. -/
def of_list (xs : List α) (i : Nat) : BinaryTree α :=
  if h : i < xs.length then .node xs[i] (of_list xs (2 * i + 1)) (of_list xs (2 * i + 2)) else .nil
termination_by xs.length - i

/-- The level `d` steps below place `i` is a segment of the list. -/
theorem level_of_list (xs : List α) (i d : Nat) :
    level (of_list xs i) d = (List.range (2 ^ d)).map fun j => xs[2 ^ d * (i + 1) - 1 + j]? := by
  induction d generalizing i with
  | zero =>
    rw [of_list, Nat.pow_zero, Nat.one_mul, Nat.add_sub_cancel, List.range_one, List.map_singleton]
    split
    · rename_i hi
      exact congrArg (fun x => [x]) (List.getElem?_eq_getElem hi).symm
    · rw [level, List.getElem?_eq_none (by omega)]
      rfl
  | succ d ih =>
    have hpos : 0 < 2 ^ d := Nat.two_pow_pos d
    have hleft : 2 ^ d * (2 * i + 1 + 1) = 2 ^ (d + 1) * (i + 1) := by
      rw [Nat.pow_succ]
      ring
    have hright : 2 ^ d * (2 * i + 2 + 1) = 2 ^ (d + 1) * (i + 1) + 2 ^ d := by
      rw [Nat.pow_succ]
      ring
    have hbase : i + 1 ≤ 2 ^ (d + 1) * (i + 1) := Nat.le_mul_of_pos_left _ (Nat.two_pow_pos (d + 1))
    have hrange : List.range (2 ^ (d + 1)) = List.range (2 ^ d) ++ (List.range (2 ^ d)).map (2 ^ d + ·) := by
      rw [← List.range_add]
      congr 1
      omega
    by_cases hi : i < xs.length
    · rw [of_list, dif_pos hi, level, ih, ih, hleft, hright, hrange, List.map_append, List.map_map]
      congr 1
      refine List.map_congr_left fun j _ => ?_
      rw [Function.comp_apply]
      congr 1
      omega
    · rw [of_list, dif_neg hi, level, eq_comm, List.eq_replicate_iff]
      refine ⟨by simp, fun x hx => ?_⟩
      obtain ⟨j, -, rfl⟩ := List.mem_map.mp hx
      exact List.getElem?_eq_none (by omega)

/-- The first places of a list, as far as there are any. -/
theorem map_getElem?_range (xs : List α) (n : Nat) :
    (List.range n).map (fun j => xs[j]?) = (xs.take n).map some ++ List.replicate (n - xs.length) none := by
  induction xs generalizing n with
  | nil =>
    rw [List.take_nil, List.map_nil, List.nil_append, List.length_nil, Nat.sub_zero, List.eq_replicate_iff]
    simp
  | cons x xs ih =>
    cases n with
    | zero => simp
    | succ n =>
      rw [List.range_succ_eq_map, List.map_cons, List.map_map, List.take_succ_cons, List.map_cons, List.cons_append,
        List.length_cons, Nat.add_sub_add_right, ← ih n]
      rfl

/-- The tree of a list is complete. -/
theorem complete_of_list (xs : List α) : Complete (of_list xs 0) := by
  have hlevel (d : Nat) : level (of_list xs 0) d = (List.range (2 ^ d)).map fun j => (xs.drop (2 ^ d - 1))[j]? := by
    rw [level_of_list, Nat.mul_one]
    exact List.map_congr_left fun j _ => List.getElem?_drop.symm
  refine ⟨fun d hnext x hx => ?_, fun d => ⟨_, _, (hlevel d).trans (map_getElem?_range _ _)⟩⟩
  rw [level_of_list] at hnext hx
  obtain ⟨below, hbelow, hsome⟩ := hnext
  obtain ⟨j, -, rfl⟩ := List.mem_map.mp hbelow
  obtain ⟨j', hj', rfl⟩ := List.mem_map.mp hx
  have hlt := List.mem_range.mp hj'
  have hpos : 0 < 2 ^ d := Nat.two_pow_pos d
  rw [isSome_getElem?] at hsome ⊢
  rw [Nat.pow_succ] at hsome
  omega

section Ancestors

variable [LE α] [DecidableLE α] [DecidableEq α]

/-- The last value is in the interval that the other two bound. -/
def between (x y z : α) : Bool := decide (x ≤ z ∧ z ≤ y ∨ y ≤ z ∧ z ≤ x)

/-- The values other than `x` that come in the list before all others between them and
`x`. These are the values above `x` in the search tree that takes the values of the list
one after the other. -/
def ancestors (xs : List α) (x : α) : Finset α :=
  xs.toFinset.filter fun y => y ≠ x ∧ xs.find? (between x y) = some y

theorem mem_ancestors {xs : List α} {x y : α} :
    y ∈ ancestors xs x ↔ y ∈ xs ∧ y ≠ x ∧ xs.find? (between x y) = some y := by
  rw [ancestors, Finset.mem_filter, List.mem_toFinset]

/-- Nothing is above the first value. -/
theorem ancestors_cons_self [Std.IsLinearOrder α] (a : α) (xs : List α) : ancestors (a :: xs) a = ∅ := by
  refine Finset.eq_empty_of_forall_notMem fun y hy => ?_
  obtain ⟨-, hne, hfind⟩ := mem_ancestors.mp hy
  have hbetween : between a y a = true := by
    obtain hle | hle := Std.le_total (a := a) (b := y)
    · exact decide_eq_true (Or.inl ⟨Std.le_refl a, hle⟩)
    · exact decide_eq_true (Or.inr ⟨hle, Std.le_refl a⟩)
  rw [List.find?_cons_of_pos hbetween] at hfind
  exact hne (Option.some.inj hfind).symm

/-- The first value is above all others, and separates those on one side of it from
those on the other. -/
theorem ancestors_cons_of_side {a x : α} {p : α → Bool} (hx : p x = true) (ha : p a = false)
    (hside : ∀ y z, p y = true → between x y z = true → p z = true)
    (hother : ∀ y, p y = false → between x y a = true) (xs : List α) :
    ancestors (a :: xs) x = insert a (ancestors (xs.filter p) x) := by
  ext y
  rw [Finset.mem_insert, mem_ancestors, mem_ancestors, List.mem_cons]
  have hne : a ≠ x := by
    rintro rfl
    rw [hx] at ha
    cases ha
  by_cases hya : y = a
  · subst hya
    exact iff_of_true ⟨Or.inl rfl, hne, List.find?_cons_of_pos (hother y ha)⟩ (Or.inl rfl)
  · rw [or_iff_right hya, or_iff_right hya]
    cases hy : p y with
    | false =>
      refine iff_of_false (fun h => ?_) fun h => ?_
      · rw [List.find?_cons_of_pos (hother y hy)] at h
        exact hya (Option.some.inj h.2.2).symm
      · have hp := (List.mem_filter.mp h.1).2
        rw [hy] at hp
        cases hp
    | true =>
      have hnot : ¬ between x y a = true := fun h => by
        have hp := hside y a hy h
        rw [ha] at hp
        cases hp
      have hsame : (fun z => decide (p z = true ∧ between x y z = true)) = between x y := by
        funext z
        rw [Bool.eq_iff_iff, decide_eq_true_iff]
        exact and_iff_right_of_imp (hside y z hy)
      rw [List.find?_cons_of_neg hnot, List.mem_filter, and_iff_left hy, List.find?_filter, hsame]

variable [LT α] [DecidableLT α] [Std.IsLinearOrder α] [Std.LawfulOrderLT α]

theorem ancestors_cons_of_lt {a x : α} (h : x < a) (xs : List α) :
    ancestors (a :: xs) x = insert a (ancestors (xs.filter fun y => decide (y < a)) x) := by
  refine ancestors_cons_of_side (p := fun y => decide (y < a)) (decide_eq_true h) (decide_eq_false Std.lt_irrefl)
    (fun y z hy hz => ?_) (fun y hy => ?_) xs
  · have hy : y < a := of_decide_eq_true hy
    obtain ⟨-, hle⟩ | ⟨-, hle⟩ : x ≤ z ∧ z ≤ y ∨ y ≤ z ∧ z ≤ x := of_decide_eq_true hz
    · exact decide_eq_true (Std.lt_of_le_of_lt hle hy)
    · exact decide_eq_true (Std.lt_of_le_of_lt hle h)
  · exact decide_eq_true (Or.inl ⟨Std.le_of_lt h, Std.not_lt.mp (of_decide_eq_false hy)⟩)

theorem ancestors_cons_of_gt {a x : α} (h : a < x) (xs : List α) :
    ancestors (a :: xs) x = insert a (ancestors (xs.filter fun y => decide (a < y)) x) := by
  refine ancestors_cons_of_side (p := fun y => decide (a < y)) (decide_eq_true h) (decide_eq_false Std.lt_irrefl)
    (fun y z hy hz => ?_) (fun y hy => ?_) xs
  · have hy : a < y := of_decide_eq_true hy
    obtain ⟨hle, -⟩ | ⟨hle, -⟩ : x ≤ z ∧ z ≤ y ∨ y ≤ z ∧ z ≤ x := of_decide_eq_true hz
    · exact decide_eq_true (Std.lt_of_lt_of_le h hle)
    · exact decide_eq_true (Std.lt_of_lt_of_le hy hle)
  · exact decide_eq_true (Or.inr ⟨Std.not_lt.mp (of_decide_eq_false hy), Std.le_of_lt h⟩)

end Ancestors

end clib.binary_tree
