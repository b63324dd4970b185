import CSystems.Lib.BinaryTree
import CSystems.Lib.Path

open clib.heap clib.binary_tree

namespace csystems.sorted_list_to_bst

structure ListNode (α : Type) where
  val : α
  next : Option Nat

variable {α : Type}

/-- The loop of `findMiddle`, of at most `fuel` rounds; `none` also stands for a
property read of `null`. -/
def findMiddle_loop (heap : Nat → Option (ListNode α)) (stop : Option Nat) :
    Nat → Option Nat → Option Nat → Option (Option Nat)
  | 0, _, _ => none
  | fuel + 1, slow, fast =>
    if fast = stop then some slow
    else do
      let f ← fast
      let fast ← heap f
      if fast.next = stop then some slow
      else do
        let s ← slow
        let slow ← heap s
        let g ← fast.next
        let fast ← heap g
        findMiddle_loop heap stop fuel slow.next fast.next

/-- `start` and `stop` are references; the source calls `stop` `end`. -/
def findMiddle (heap : Nat → Option (ListNode α)) (fuel : Nat) (start stop : Option Nat) : Option (Option Nat) :=
  findMiddle_loop heap stop fuel start start

def buildBST (heap : Nat → Option (ListNode α)) : Nat → Option Nat → Option Nat → Option (BinaryTree α)
  | 0, _, _ => none
  | fuel + 1, start, stop =>
    if start = stop then some .nil
    else do
      let mid ← findMiddle heap (fuel + 1) start stop
      let m ← mid
      let node ← heap m
      let left ← buildBST heap fuel start mid
      let right ← buildBST heap fuel node.next stop
      some (.node node.val left right)

def sortedListToBST (heap : Nat → Option (ListNode α)) (fuel : Nat) (head : Option Nat) : Option (BinaryTree α) :=
  buildBST heap fuel head none

/-- The nodes from a reference up to another one, with their addresses and
values. -/
def Segment (heap : Nat → Option (ListNode α)) : Option Nat → List (Nat × α) → Option Nat → Prop
  | q, [], stop => q = stop
  | q, c :: cells, stop => q = some c.1 ∧ ∃ r, heap c.1 = some { val := c.2, next := r } ∧ Segment heap r cells stop

variable {heap : Nat → Option (ListNode α)} {q slow fast stop : Option Nat} {m : Nat × α}
  {cells fs pre post xs ys : List (Nat × α)} {fuel : Nat}

theorem Segment.split (h : Segment heap q (xs ++ m :: ys) stop) :
    Segment heap q xs (some m.1) ∧ ∃ r, heap m.1 = some { val := m.2, next := r } ∧ Segment heap r ys stop := by
  induction xs generalizing q with
  | nil =>
    obtain ⟨rfl, hrest⟩ := h
    exact ⟨rfl, hrest⟩
  | cons c xs ih =>
    obtain ⟨rfl, r, hc, hrest⟩ := h
    obtain ⟨hfirst, hsecond⟩ := ih hrest
    exact ⟨⟨rfl, r, hc, hfirst⟩, hsecond⟩

/-- The references of a finite list. -/
theorem Segment.path (h : Segment heap q cells none) :
    Path (fun a => (heap a).map ListNode.next) q (cells.map Prod.fst) := by
  induction cells generalizing q with
  | nil => exact h
  | cons c cells ih =>
    obtain ⟨rfl, r, hc, hrest⟩ := h
    exact ⟨rfl, r, congrArg (Option.map ListNode.next) hc, ih hrest⟩

/-- The slow reference moves one node while the fast one moves two, and neither
passes the end of the segment. -/
theorem findMiddle_loop_eq (hfast : Segment heap fast fs stop) (hapart : ∀ c ∈ fs, some c.1 ≠ stop)
    (hslow : Segment heap slow (pre ++ m :: post) stop) (hmiddle : pre.length = fs.length / 2)
    (hfuel : fs.length < fuel) : findMiddle_loop heap stop fuel slow fast = some (some m.1) := by
  induction fuel generalizing fs pre slow fast with
  | zero => omega
  | succ fuel ih =>
    rw [findMiddle_loop]
    cases fs with
    | nil =>
      obtain rfl : pre = [] := List.eq_nil_of_length_eq_zero (by simpa using hmiddle)
      have hend : fast = stop := hfast
      rw [if_pos hend, hslow.1]
    | cons f fs =>
      obtain ⟨rfl, r, hf, hrest⟩ := hfast
      rw [if_neg (hapart f List.mem_cons_self), Option.bind_eq_bind, Option.bind_some, hf, Option.bind_eq_bind,
        Option.bind_some]
      cases fs with
      | nil =>
        obtain rfl : pre = [] := List.eq_nil_of_length_eq_zero (by simpa using hmiddle)
        have hend : r = stop := hrest
        rw [if_pos hend, hslow.1]
      | cons g fs =>
        obtain ⟨rfl, r', hg, hrest⟩ := hrest
        cases pre with
        | nil =>
          simp only [List.length_nil, List.length_cons] at hmiddle
          omega
        | cons s pre =>
          obtain ⟨rfl, next, hs, hslow⟩ := hslow
          rw [if_neg (hapart g (by simp))]
          simp only [hs, hg, Option.bind_some]
          simp only [List.length_cons] at hmiddle hfuel
          exact ih hrest (fun c hc => hapart c (by simp [hc])) hslow (by omega) (by omega)

theorem Segment.start_ne (h : Segment heap q cells stop) (hapart : ∀ c ∈ cells, some c.1 ≠ stop)
    (hpos : 0 < cells.length) : q ≠ stop := by
  cases cells with
  | nil => exact absurd hpos (Nat.lt_irrefl 0)
  | cons c cells =>
    rw [h.1]
    exact hapart c List.mem_cons_self

/-- A segment becomes a tree of its values whose halves are balanced. -/
theorem buildBST_eq (h : Segment heap q cells stop) (hapart : ∀ c ∈ cells, some c.1 ≠ stop)
    (hnodup : (cells.map Prod.fst).Nodup) :
    ∃ t, (∀ fuel, cells.length < fuel → buildBST heap fuel q stop = some t) ∧ in_order t = cells.map Prod.snd ∧
      SizeBalanced t := by
  induction hn : cells.length using Nat.strongRecOn generalizing q cells stop with
  | ind n ih =>
    subst hn
    by_cases hpos : 0 < cells.length
    · have hstart := h.start_ne hapart hpos
      obtain ⟨pre, m, post, hsplit, hmiddle, hlength⟩ := exists_split (show cells.length / 2 < cells.length by omega)
      have hmid (fuel : Nat) (hfuel : cells.length < fuel) : findMiddle heap fuel q stop = some (some m.1) :=
        findMiddle_loop_eq h hapart (hsplit ▸ h) hmiddle hfuel
      subst hsplit
      obtain ⟨hfirst, r, hm, hsecond⟩ := h.split
      rw [List.map_append, List.map_cons] at hnodup
      obtain ⟨hpre, hpost, hdisjoint⟩ := List.nodup_append.mp hnodup
      have hbefore : ∀ c ∈ pre, some c.1 ≠ some m.1 := by
        intro c hc heq
        exact hdisjoint c.1 (List.mem_map_of_mem hc) m.1 List.mem_cons_self (Option.some_inj.mp heq)
      obtain ⟨left, hleft, hleftOrder, hleftSize⟩ := ih pre.length (by omega) hfirst hbefore hpre rfl
      obtain ⟨right, hright, hrightOrder, hrightSize⟩ := ih post.length (by omega) hsecond
        (fun c hc => hapart c (by simp [hc])) (List.nodup_cons.mp hpost).2 rfl
      refine ⟨.node m.2 left right, ?_, ?_, ?_⟩
      · intro fuel hfuel
        obtain ⟨fuel, rfl⟩ : ∃ k, fuel = k + 1 := ⟨fuel - 1, by omega⟩
        rw [buildBST, if_neg hstart]
        simp only [hmid _ hfuel, hm, hleft fuel (by omega), hright fuel (by omega), Option.bind_eq_bind,
          Option.bind_some]
      · rw [in_order, hleftOrder, hrightOrder, List.map_append, List.map_cons]
      · refine sizeBalanced_node hleftSize hrightSize ?_ ?_
        · rw [hleftOrder, hrightOrder, List.length_map, List.length_map]
          omega
        · rw [hleftOrder, hrightOrder, List.length_map, List.length_map]
          omega
    · obtain rfl : cells = [] := List.eq_nil_of_length_eq_zero (by omega)
      have hend : q = stop := h
      refine ⟨.nil, ?_, rfl, trivial⟩
      intro fuel hfuel
      obtain ⟨fuel, rfl⟩ : ∃ k, fuel = k + 1 := ⟨fuel - 1, by omega⟩
      rw [buildBST, if_pos hend]

/-- Any finite list becomes a tree of the same values in order, whose subtrees
have almost the same sizes and heights; of a sorted list it is a search tree. -/
theorem sortedListToBST_balanced (heap : Nat → Option (ListNode α)) (head : Option Nat) (cells : List (Nat × α))
    (hlist : Segment heap head cells none) :
    ∃ t, (∀ fuel, cells.length < fuel → sortedListToBST heap fuel head = some t) ∧
      in_order t = cells.map Prod.snd ∧ SizeBalanced t ∧ HeightBalanced t ∧
      ∀ r : α → α → Prop, (cells.map Prod.snd).Pairwise r → IsSearchTree r t := by
  obtain ⟨t, hrun, horder, hsize⟩ := buildBST_eq hlist (fun c _ => Option.some_ne_none c.1) hlist.path.nodup
  refine ⟨t, hrun, horder, hsize, hsize.heightBalanced, ?_⟩
  intro r hsorted
  exact isSearchTree_of_sorted (horder ▸ hsorted)

/-- The list of `-10`, `-3` and `0`. -/
def three_nodes (a : Nat) : Option (ListNode Int) :=
  [{ val := -10, next := some 1 }, { val := -3, next := some 2 }, { val := 0, next := none }][a]?

theorem sortedListToBST_three :
    ∃ t, (∀ fuel, 3 < fuel → sortedListToBST three_nodes fuel (some 0) = some t) ∧
      in_order t = [(0, -10), (1, -3), (2, (0 : Int))].map Prod.snd ∧ SizeBalanced t ∧ HeightBalanced t ∧
      ∀ r : Int → Int → Prop, ([(0, -10), (1, -3), (2, (0 : Int))].map Prod.snd).Pairwise r → IsSearchTree r t :=
  sortedListToBST_balanced three_nodes (some 0) [(0, -10), (1, -3), (2, 0)]
    ⟨rfl, _, rfl, rfl, _, rfl, rfl, _, rfl, rfl⟩

end csystems.sorted_list_to_bst
