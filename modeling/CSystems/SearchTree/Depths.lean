import CSystems.Lib.BinaryTree

open clib.binary_tree

namespace csystems.search_tree

def createnode (value : Int32) : BinaryTree Int32 := .node value .nil .nil

def insert : BinaryTree Int32 → Int32 → BinaryTree Int32
  | .nil, value => createnode value
  | .node data left right, value =>
    if value < data then .node data (insert left value) right
    else if value > data then .node data left (insert right value)
    else .node data left right

def INT_MAX : Int := 2147483647

/-- An `int` plus 1; `none` where it overflows. -/
def plus_one (n : Int) : Option Int := if n < INT_MAX then some (n + 1) else none

def height : BinaryTree Int32 → Option Int
  | .nil => some (-1)
  | .node _ left right => do
    let leftHeight ← height left
    let rightHeight ← height right
    plus_one (if leftHeight > rightHeight then leftHeight else rightHeight)

/-- The lines that are printed: a value and its depth. -/
def printDepths : BinaryTree Int32 → Int → Option (List (Int32 × Int))
  | .nil, _ => some []
  | .node data left right, depth => do
    let left_lines ← printDepths left (← plus_one depth)
    let right_lines ← printDepths right (← plus_one depth)
    some ((data, depth) :: (left_lines ++ right_lines))

/-- The loop of `main` over the numbers that `scanf` reads. -/
def read_numbers (nums : List Int32) : BinaryTree Int32 := nums.foldl insert .nil

/-- What `main` prints: the height and the depths. -/
def main (nums : List Int32) : Option (Int × List (Int32 × Int)) := do
  let root := read_numbers nums
  let h ← height root
  let lines ← printDepths root 0
  some (h, lines)

/-- The search of the other program with this tree; `none` if it ends without a
`return`. -/
def search : BinaryTree Int32 → Int32 → Option (BinaryTree Int32)
  | .nil, _ => some .nil
  | .node data left right, value =>
    if data = value then some (.node data left right)
    else if value < data then search left value
    else if value > data then search right value
    else none

section Insertion

/-- The numbers that go to the left of a node, and those that go to its right. -/
def below (data : Int32) (nums : List Int32) : List Int32 := nums.filter fun x => decide (x < data)
def above (data : Int32) (nums : List Int32) : List Int32 := nums.filter fun x => decide (data < x)

theorem mem_below {data x : Int32} {nums : List Int32} : x ∈ below data nums ↔ x ∈ nums ∧ x < data := by
  rw [below, List.mem_filter, decide_eq_true_iff]

theorem mem_above {data x : Int32} {nums : List Int32} : x ∈ above data nums ↔ x ∈ nums ∧ data < x := by
  rw [above, List.mem_filter, decide_eq_true_iff]

theorem foldl_insert_node (data : Int32) (left right : BinaryTree Int32) (nums : List Int32) :
    nums.foldl insert (.node data left right) =
      .node data ((below data nums).foldl insert left) ((above data nums).foldl insert right) := by
  induction nums generalizing left right with
  | nil => rfl
  | cons x nums ih =>
    rw [List.foldl_cons, insert]
    by_cases hlt : x < data
    · have hnot : ¬ data < x := fun hgt => Std.lt_irrefl (Std.lt_trans hlt hgt)
      have hbelow : below data (x :: nums) = x :: below data nums := List.filter_cons_of_pos (by simpa using hlt)
      have habove : above data (x :: nums) = above data nums := List.filter_cons_of_neg (by simpa using hnot)
      rw [if_pos hlt, ih, hbelow, habove, List.foldl_cons]
    · have hbelow : below data (x :: nums) = below data nums := List.filter_cons_of_neg (by simpa using hlt)
      rw [if_neg hlt, hbelow]
      by_cases hgt : x > data
      · have habove : above data (x :: nums) = x :: above data nums := List.filter_cons_of_pos (by simpa using hgt)
        rw [if_pos hgt, ih, habove, List.foldl_cons]
      · have habove : above data (x :: nums) = above data nums := List.filter_cons_of_neg (by simpa using hgt)
        rw [if_neg hgt, ih, habove]

/-- The first number is the root, and the others go to its two sides. -/
theorem read_numbers_cons (x : Int32) (nums : List Int32) :
    read_numbers (x :: nums) = .node x (read_numbers (below x nums)) (read_numbers (above x nums)) :=
  foldl_insert_node x .nil .nil nums

theorem card_ancestors_cons {x a : Int32} {nums side : List Int32} (ha : a ∉ side)
    (h : ancestors (a :: nums) x = Insert.insert a (ancestors side x)) :
    (ancestors (a :: nums) x).card = (ancestors side x).card + 1 := by
  rw [h]
  exact Finset.card_insert_of_notMem fun hmem => ha (mem_ancestors.mp hmem).1

/-- What is shown of every tree read from its two sides holds of all of them. -/
theorem read_numbers_induction {P : List Int32 → Prop} (hnil : P [])
    (hcons : ∀ a nums, P (below a nums) → P (above a nums) → P (a :: nums)) (nums : List Int32) : P nums := by
  induction hn : nums.length using Nat.strongRecOn generalizing nums with
  | ind n ih =>
    cases nums with
    | nil => exact hnil
    | cons a nums =>
      have hlt (p : Int32 → Bool) : (nums.filter p).length < n := by
        rw [← hn]
        exact Nat.lt_succ_of_le (List.length_filter_le p nums)
      exact hcons a nums (ih _ (hlt _) _ rfl) (ih _ (hlt _) _ rfl)

end Insertion

section Overflow

/-- A number adds at most one node. -/
theorem numNodes_insert_le (t : BinaryTree Int32) (value : Int32) : (insert t value).numNodes ≤ t.numNodes + 1 := by
  induction t with
  | nil => exact Nat.le_refl _
  | node data left right ihl ihr =>
    rw [insert]
    split_ifs <;> simp only [BinaryTree.numNodes] <;> omega

theorem numNodes_read_numbers_le (nums : List Int32) : (read_numbers nums).numNodes ≤ nums.length := by
  have hfold (t : BinaryTree Int32) : (nums.foldl insert t).numNodes ≤ t.numNodes + nums.length := by
    induction nums generalizing t with
    | nil => exact Nat.le_refl _
    | cons x nums ih =>
      have hinsert := numNodes_insert_le t x
      have hrest := ih (insert t x)
      rw [List.foldl_cons, List.length_cons]
      omega
  have hread := hfold .nil
  rwa [BinaryTree.numNodes, Nat.zero_add] at hread

theorem height_read_numbers_le (nums : List Int32) : (read_numbers nums).height ≤ nums.length :=
  (BinaryTree.height_le_numNodes _).trans (numNodes_read_numbers_le nums)

theorem plus_one_of_lt {n : Int} (h : n < INT_MAX) : plus_one n = some (n + 1) := if_pos h

/-- The height counts the edges of a longest path. -/
theorem height_eq {t : BinaryTree Int32} (h : (t.height : Int) ≤ INT_MAX) : height t = some (t.height - 1 : Int) := by
  induction t with
  | nil => rfl
  | node data left right ihl ihr =>
    rw [BinaryTree.height] at h ⊢
    simp only [height, ihl (by omega), ihr (by omega), Option.bind_eq_bind, Option.bind_some]
    split
    · rw [plus_one_of_lt (by omega)]
      exact congrArg some (by omega)
    · rw [plus_one_of_lt (by omega)]
      exact congrArg some (by omega)

/-- The lines of a tree. -/
def lines : BinaryTree Int32 → Int → List (Int32 × Int)
  | .nil, _ => []
  | .node data left right, depth => (data, depth) :: (lines left (depth + 1) ++ lines right (depth + 1))

theorem printDepths_eq {t : BinaryTree Int32} {depth : Int} (h : depth + t.height ≤ INT_MAX) :
    printDepths t depth = some (lines t depth) := by
  induction t generalizing depth with
  | nil => rfl
  | node data left right ihl ihr =>
    rw [BinaryTree.height] at h
    rw [printDepths, plus_one_of_lt (by omega)]
    simp only [Option.bind_eq_bind, Option.bind_some, ihl (show depth + 1 + left.height ≤ INT_MAX by omega),
      ihr (show depth + 1 + right.height ≤ INT_MAX by omega), lines]

/-- No number overflows as long as there are not too many. -/
theorem main_eq {nums : List Int32} (hlength : nums.length < 2 ^ 31) :
    main nums = some (((read_numbers nums).height - 1 : Int), lines (read_numbers nums) 0) := by
  have hle : ((read_numbers nums).height : Int) ≤ INT_MAX := by
    have hheight := height_read_numbers_le nums
    rw [INT_MAX]
    omega
  simp only [main, height_eq hle, Option.bind_eq_bind, Option.bind_some,
    printDepths_eq (show 0 + ((read_numbers nums).height : Int) ≤ INT_MAX by omega)]

end Overflow

section Depths

/-- The lines are those of the numbers read, each once, with the number of values above it
as its depth. -/
structure Printed (nums : List Int32) (depth : Int) : Prop where
  nodup : ((lines (read_numbers nums) depth).map Prod.fst).Nodup
  mem_iff : ∀ x d, (x, d) ∈ lines (read_numbers nums) depth ↔ x ∈ nums ∧ d = depth + (ancestors nums x).card

theorem Printed.mem_of_mem_map {nums : List Int32} {depth : Int} (h : Printed nums depth) {x : Int32}
    (hx : x ∈ (lines (read_numbers nums) depth).map Prod.fst) : x ∈ nums := by
  obtain ⟨⟨y, d⟩, hy, rfl⟩ := List.mem_map.mp hx
  exact ((h.mem_iff y d).mp hy).1

/-- The root is printed, and then its two sides. -/
theorem Printed.cons {a : Int32} {nums : List Int32} {depth : Int} (hleft : Printed (below a nums) (depth + 1))
    (hright : Printed (above a nums) (depth + 1)) : Printed (a :: nums) depth := by
  have hbelow {x : Int32} (hx : x ∈ (lines (read_numbers (below a nums)) (depth + 1)).map Prod.fst) : x < a :=
    (mem_below.mp (hleft.mem_of_mem_map hx)).2
  have habove {x : Int32} (hx : x ∈ (lines (read_numbers (above a nums)) (depth + 1)).map Prod.fst) : a < x :=
    (mem_above.mp (hright.mem_of_mem_map hx)).2
  constructor
  · rw [read_numbers_cons, lines, List.map_cons, List.map_append, List.nodup_cons, List.nodup_append]
    refine ⟨fun hmem => ?_, hleft.nodup, hright.nodup, ?_⟩
    · obtain hmem | hmem := List.mem_append.mp hmem
      · exact Std.lt_irrefl (hbelow hmem)
      · exact Std.lt_irrefl (habove hmem)
    · rintro x hx y hy rfl
      exact Std.lt_irrefl (Std.lt_trans (hbelow hx) (habove hy))
  · intro x d
    rw [read_numbers_cons, lines, List.mem_cons, List.mem_append, hleft.mem_iff, hright.mem_iff, mem_below,
      mem_above, List.mem_cons, Prod.mk.injEq]
    by_cases heq : x = a
    · subst heq
      rw [ancestors_cons_self]
      simp [Std.lt_irrefl]
    by_cases hlt : x < a
    · have hnot : ¬ a < x := fun hgt => Std.lt_irrefl (Std.lt_trans hlt hgt)
      have hcard := card_ancestors_cons (fun hmem => Std.lt_irrefl (mem_below.mp hmem).2)
        (ancestors_cons_of_lt hlt nums)
      rw [hcard]
      simp only [heq, false_and, false_or, hlt, and_true, hnot, and_false, or_false]
      exact and_congr_right fun _ => by omega
    · have hgt : a < x := Std.not_le.mp fun hle => heq (Std.le_antisymm hle (Std.not_lt.mp hlt))
      have hcard := card_ancestors_cons (fun hmem => Std.lt_irrefl (mem_above.mp hmem).2)
        (ancestors_cons_of_gt hgt nums)
      rw [hcard]
      simp only [heq, false_and, false_or, hgt, and_true, hlt, and_false]
      exact and_congr_right fun _ => by omega

theorem printed (nums : List Int32) (depth : Int) : Printed nums depth := by
  induction nums using read_numbers_induction generalizing depth with
  | hnil => exact ⟨List.nodup_nil, fun x d => by simp [read_numbers, lines]⟩
  | hcons a nums hleft hright => exact .cons (hleft (depth + 1)) (hright (depth + 1))

/-- No depth is above the height, and the last level is printed. -/
theorem depth_lt_height (t : BinaryTree Int32) (depth : Int) :
    (∀ x d, (x, d) ∈ lines t depth → d < depth + t.height) ∧
      (t ≠ .nil → ∃ x, (x, depth + t.height - 1) ∈ lines t depth) := by
  induction t generalizing depth with
  | nil => exact ⟨fun x d hmem => absurd hmem List.not_mem_nil, fun hnil => absurd rfl hnil⟩
  | node data left right ihl ihr =>
    obtain ⟨hleft, hlast_left⟩ := ihl (depth + 1)
    obtain ⟨hright, hlast_right⟩ := ihr (depth + 1)
    rw [lines, BinaryTree.height]
    refine ⟨fun x d hmem => ?_, fun _ => ?_⟩
    · rw [List.mem_cons, List.mem_append, Prod.mk.injEq] at hmem
      obtain ⟨-, rfl⟩ | hmem | hmem := hmem
      · omega
      · have hd := hleft x d hmem
        omega
      · have hd := hright x d hmem
        omega
    · by_cases hleaf : left = .nil ∧ right = .nil
      · obtain ⟨rfl, rfl⟩ := hleaf
        exact ⟨data, by simp [BinaryTree.height]⟩
      -- the higher side has the last level
      obtain hle | hle := Nat.le_total left.height right.height
      · have hne : right ≠ .nil := by
          rintro rfl
          cases left with
          | nil => exact hleaf ⟨rfl, rfl⟩
          | node => exact Nat.not_succ_le_zero _ hle
        obtain ⟨x, hx⟩ := hlast_right hne
        refine ⟨x, List.mem_cons_of_mem _ (List.mem_append_right _ ?_)⟩
        rwa [Nat.max_eq_right hle, Nat.cast_succ, ← Int.add_assoc, Int.add_right_comm]
      · have hne : left ≠ .nil := by
          rintro rfl
          cases right with
          | nil => exact hleaf ⟨rfl, rfl⟩
          | node => exact Nat.not_succ_le_zero _ hle
        obtain ⟨x, hx⟩ := hlast_left hne
        refine ⟨x, List.mem_cons_of_mem _ (List.mem_append_left _ ?_)⟩
        rwa [Nat.max_eq_left hle, Nat.cast_succ, ← Int.add_assoc, Int.add_right_comm]

end Depths

/-- As long as fewer than 2^31 numbers are read, no `int` overflows, and `main` prints each
of them once. Its depth is the number of values that came before all others between them
and it, and the height is the largest depth. -/
theorem depths_are_ancestors {nums : List Int32} (hlength : nums.length < 2 ^ 31) :
    ∃ h lines, main nums = some (h, lines) ∧ (lines.map Prod.fst).Nodup ∧
      (∀ x depth, (x, depth) ∈ lines ↔ x ∈ nums ∧ depth = (ancestors nums x).card) ∧
      (nums = [] → h = -1) ∧ (∀ x ∈ nums, (ancestors nums x).card ≤ h) ∧
      (nums ≠ [] → ∃ x ∈ nums, h = (ancestors nums x).card) := by
  have hprinted := printed nums 0
  obtain ⟨hlt, hlast⟩ := depth_lt_height (read_numbers nums) 0
  have hmem (x : Int32) (depth : Int) :
      (x, depth) ∈ lines (read_numbers nums) 0 ↔ x ∈ nums ∧ depth = (ancestors nums x).card := by
    rw [hprinted.mem_iff, Int.zero_add]
  rw [Int.zero_add] at hlt hlast
  refine ⟨_, _, main_eq hlength, hprinted.nodup, hmem, ?_, fun x hx => ?_, fun hne => ?_⟩
  · rintro rfl
    rfl
  · have hdepth := hlt x _ ((hmem x _).mpr ⟨hx, rfl⟩)
    omega
  · have htree : read_numbers nums ≠ .nil := by
      cases nums with
      | nil => exact absurd rfl hne
      | cons a nums =>
        rw [read_numbers_cons]
        simp
    obtain ⟨x, hx⟩ := hlast htree
    obtain ⟨hnum, hheight⟩ := (hmem x _).mp hx
    exact ⟨x, hnum, hheight⟩

theorem depths_are_ancestors_five : main [5, 3, 8, 4, 3] = some (2, [(5, 0), (3, 1), (4, 2), (8, 1)]) ∧
    (ancestors [5, 3, 8, 4, 3] (4 : Int32)).card = 2 := by
  have hlength : [5, 3, 8, 4, (3 : Int32)].length < 2 ^ 31 := by decide
  obtain ⟨h, lines, hmain, -, hmem, -⟩ := depths_are_ancestors hlength
  have hrun : main [5, 3, 8, 4, 3] = some (2, [(5, 0), (3, 1), (4, 2), (8, 1)]) := by decide
  rw [hrun, Option.some.injEq, Prod.mk.injEq] at hmain
  obtain ⟨-, rfl⟩ := hmain
  have hfour := ((hmem 4 2).mp (by decide)).2
  exact ⟨hrun, by omega⟩

/-- The traversal is in order and shows the numbers read, and the search ends with a
`return` and finds them. -/
theorem search_read_numbers (nums : List Int32) :
    (in_order (read_numbers nums)).Pairwise (· < ·) ∧ (∀ x, x ∈ in_order (read_numbers nums) ↔ x ∈ nums) ∧
      ∀ x, ∃ t, search (read_numbers nums) x = some t ∧
        if x ∈ nums then ∃ left right, t = .node x left right else t = .nil := by
  induction nums using read_numbers_induction with
  | hnil => exact ⟨List.Pairwise.nil, fun x => by simp [read_numbers, in_order], fun x => ⟨.nil, rfl, by simp⟩⟩
  | hcons a nums hleft hright =>
    obtain ⟨hsorted_left, hmem_left, hsearch_left⟩ := hleft
    obtain ⟨hsorted_right, hmem_right, hsearch_right⟩ := hright
    rw [read_numbers_cons, in_order]
    refine ⟨?_, fun x => ?_, fun x => ?_⟩
    · rw [List.pairwise_append, List.pairwise_cons]
      refine ⟨hsorted_left, ⟨fun y hy => (mem_above.mp ((hmem_right y).mp hy)).2, hsorted_right⟩, fun y hy z hz => ?_⟩
      have hya := (mem_below.mp ((hmem_left y).mp hy)).2
      obtain rfl | hz := List.mem_cons.mp hz
      · exact hya
      · exact Std.lt_trans hya (mem_above.mp ((hmem_right z).mp hz)).2
    · rw [List.mem_append, List.mem_cons, hmem_left, hmem_right, mem_below, mem_above, List.mem_cons]
      by_cases heq : x = a
      · simp [heq]
      · have hside : x < a ∨ a < x := by
          obtain hle | hle := Std.le_total (a := a) (b := x)
          · exact Or.inr (Std.not_le.mp fun hge => heq (Std.le_antisymm hge hle))
          · exact Or.inl (Std.not_le.mp fun hge => heq (Std.le_antisymm hle hge))
        rw [or_iff_right heq, or_iff_right heq, ← and_or_left, and_iff_left hside]
    · rw [search]
      by_cases heq : a = x
      · subst heq
        rw [if_pos rfl]
        exact ⟨_, rfl, by simp⟩
      · rw [if_neg heq]
        have hnums : x ∈ a :: nums ↔ x ∈ nums := by
          rw [List.mem_cons, or_iff_right (Ne.symm heq)]
        by_cases hlt : x < a
        · have hsame : x ∈ below a nums ↔ x ∈ a :: nums := by rw [mem_below, and_iff_left hlt, hnums]
          rw [if_pos hlt]
          simpa only [hsame] using hsearch_left x
        · have hgt : x > a := Std.not_le.mp fun hle => heq (Std.le_antisymm (Std.not_lt.mp hlt) hle)
          have hsame : x ∈ above a nums ↔ x ∈ a :: nums := by rw [mem_above, and_iff_left hgt, hnums]
          rw [if_neg hlt, if_pos hgt]
          simpa only [hsame] using hsearch_right x

end csystems.search_tree
