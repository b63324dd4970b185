import CSystems.LevelOrder.Tree
import CSystems.Lib.Run

open clib.binary_tree clib.heap clib.run

namespace csystems.trees

/-- The pointer to place `i` of a tree of `n` nodes. Its node is the `i`-th that was made. -/
def child (n i : Nat) : Option Nat := if i < n then some i else none

theorem child_succ {n i : Nat} (hne : i ≠ n) : child (n + 1) i = child n i := by
  rw [child, child]
  congr 1
  rw [eq_iff_iff]
  omega

theorem child_last (n : Nat) : child (n + 1) n = some n := if_pos (Nat.lt_succ_self n)

/-- The nodes of the tree lie in the order of its levels, and hold the values in this order. -/
structure Stores (t : tree_t) (xs : List Int32) : Prop where
  next : t.heap.next = xs.length
  root : t.root = child xs.length 0
  node : ∀ i (h : i < xs.length),
    t.heap.get i = some ⟨xs[i], child xs.length (2 * i + 1), child xs.length (2 * i + 2)⟩

/-- The queue when `front` of the first `rear` nodes were taken out of it. -/
structure At (q : Queue) (front rear size : Nat) : Prop where
  arr : q.arr = List.range rear
  front : q.front = front
  size : q.size = size

section Queue

variable {q : Queue} {front rear size : Nat}

theorem At.enqueue (h : At q front rear size) (hlt : rear < size) :
    ∃ q', enqueue q rear = .ok q' ∧ At q' front (rear + 1) size := by
  have hroom : q.rear < q.size := by
    rw [Queue.rear, h.arr, List.length_range, h.size]
    exact hlt
  refine ⟨_, dif_pos hroom, ?_, h.front, h.size⟩
  change q.arr ++ [rear] = _
  rw [h.arr, List.range_succ]

/-- A full queue overflows. -/
theorem At.enqueue_full (h : At q front size size) (node : Nat) : trees.enqueue q node = .error (.overflow size) := by
  have hrear : q.rear = size := by rw [Queue.rear, h.arr, List.length_range]
  have hroom : ¬ q.rear < q.size := by
    rw [hrear, h.size]
    exact Nat.lt_irrefl _
  rw [trees.enqueue, dif_neg hroom, hrear]

theorem At.not_empty (h : At q front rear size) (hlt : front < rear) : isEmpty q = false := by
  rw [isEmpty, decide_eq_false_iff_not, Queue.rear, h.arr, List.length_range, h.front]
  omega

theorem At.empty (h : At q rear rear size) : isEmpty q = true := by
  rw [isEmpty, decide_eq_true_eq, Queue.rear, h.arr, List.length_range, h.front]

theorem At.dequeue (h : At q front rear size) (hempty : isEmpty q = false) :
    (dequeue q hempty).1 = front ∧ At (dequeue q hempty).2 (front + 1) rear size := by
  refine ⟨?_, h.arr, congrArg (· + 1) h.front, h.size⟩
  simp only [trees.dequeue, List.get_eq_getElem, h.arr, List.getElem_range, h.front]

theorem at_createQueue (size : Nat) : At (createQueue size) 0 0 size := ⟨rfl, rfl, rfl⟩

end Queue

section Loops

variable {heap : Heap Node} {value : Int32} {q : Queue}

/-- One turn of the loop of `insertLevelOrder`. -/
theorem insert_loop_turn (h : isEmpty q = false) {n : Node} (hget : get heap (dequeue q h).1 = .ok n) :
    insert_loop heap value q =
      match n.left with
      | none => .ok ((createNode heap value).2.update (dequeue q h).1 (.set_left (some (createNode heap value).1)))
      | some left => enqueue (dequeue q h).2 left >>= fun q' =>
        match n.right with
        | none => .ok ((createNode heap value).2.update (dequeue q h).1 (.set_right (some (createNode heap value).1)))
        | some right => enqueue q' right >>= insert_loop heap value := by
  rw [insert_loop, dif_neg (by simp [h])]
  dsimp only
  rw [hget]
  dsimp only
  cases n.left with
  | none => rfl
  | some left =>
    dsimp only
    split
    · rename_i e he
      rw [he]
      rfl
    · rename_i q' hq
      rw [hq]
      cases n.right with
      | none => rfl
      | some right =>
        dsimp only
        split
        · rename_i e he
          change _ = enqueue q' right >>= _
          rw [he]
          rfl
        · rename_i q'' hq'
          change _ = enqueue q' right >>= _
          rw [hq']
          rfl

/-- One turn of the loop of `printLevelOrder`. -/
theorem print_loop_turn (h : isEmpty q = false) {n : Node} (hget : get heap (dequeue q h).1 = .ok n) :
    print_loop heap q = enqueue_if (dequeue q h).2 n.left >>= fun q' =>
      enqueue_if q' n.right >>= fun q'' => print_loop heap q'' >>= fun printed => .ok (n.data :: printed) := by
  rw [print_loop, dif_neg (by simp [h])]
  dsimp only
  rw [hget]
  dsimp only
  split
  · rename_i e he
    rw [he]
    rfl
  · rename_i q' hq
    rw [hq]
    split
    · rename_i e he
      change _ = enqueue_if q' n.right >>= _
      rw [he]
      rfl
    · rename_i q'' hq'
      change _ = enqueue_if q' n.right >>= _
      rw [hq']
      rfl

end Loops

section Insert

variable {t : tree_t} {xs : List Int32}

theorem Stores.get (h : Stores t xs) {i : Nat} (hi : i < xs.length) :
    get t.heap i = .ok ⟨xs[i], child xs.length (2 * i + 1), child xs.length (2 * i + 2)⟩ := by
  rw [trees.get, h.node i hi]

/-- The heap with a new node below the first node that lacks a child. -/
def hang (heap : Heap Node) (n : Nat) (value : Int32) : Heap Node :=
  (createNode heap value).2.update ((n - 1) / 2) (if n % 2 = 1 then .set_left (some n) else .set_right (some n))

theorem Stores.createNode (h : Stores t xs) (value : Int32) : (createNode t.heap value).1 = xs.length := h.next

/-- The search for the place of a new node, from the turn on in which `front` is looked at. -/
theorem Stores.insert_loop_eq (h : Stores t xs) (value : Int32) {size : Nat} (hfits : xs.length ≤ size) {q : Queue}
    {front : Nat} (hq : At q front (2 * front + 1) size) (hfront : 2 * front + 1 ≤ xs.length) :
    insert_loop t.heap value q = .ok (hang t.heap xs.length value) := by
  generalize hleft : xs.length - front = left
  induction left using Nat.strong_induction_on generalizing q front with
  | _ left ih =>
    have hlt : front < xs.length := by omega
    have hempty := hq.not_empty (by omega)
    obtain ⟨htemp, hrest⟩ := hq.dequeue hempty
    rw [insert_loop_turn hempty (by rw [htemp]; exact h.get hlt), htemp, h.createNode, hang]
    by_cases hfirst : 2 * front + 1 < xs.length
    · obtain ⟨q', hpush, hq'⟩ := hrest.enqueue (by omega)
      rw [child, if_pos hfirst]
      dsimp only
      rw [hpush]
      dsimp only [bind, Except.bind]
      by_cases hsecond : 2 * front + 2 < xs.length
      · obtain ⟨q'', hpush', hq''⟩ := hq'.enqueue (by omega)
        rw [child, if_pos hsecond]
        dsimp only
        rw [hpush']
        exact ih (xs.length - (front + 1)) (by omega) hq'' (by omega) rfl
      · have hplace : (xs.length - 1) / 2 = front := by omega
        rw [child, if_neg hsecond, if_neg (by omega), hplace]
    · have hplace : (xs.length - 1) / 2 = front := by omega
      rw [child, if_neg hfirst, if_pos (by omega), hplace]

theorem Stores.insert_loop_overflow (h : Stores t xs) (value : Int32) {size : Nat} (hfull : size < xs.length)
    {q : Queue} {front : Nat} (hq : At q front (2 * front + 1) size) (hfront : 2 * front + 1 ≤ size) :
    insert_loop t.heap value q = .error (.overflow size) := by
  generalize hleft : size - front = left
  induction left using Nat.strong_induction_on generalizing q front with
  | _ left ih =>
    have hlt : front < xs.length := by omega
    have hempty := hq.not_empty (by omega)
    obtain ⟨htemp, hrest⟩ := hq.dequeue hempty
    rw [insert_loop_turn hempty (by rw [htemp]; exact h.get hlt), child, if_pos (by omega)]
    dsimp only
    by_cases hfirst : 2 * front + 1 = size
    · subst hfirst
      rw [hrest.enqueue_full]
      rfl
    · obtain ⟨q', hpush, hq'⟩ := hrest.enqueue (by omega)
      rw [hpush, child, if_pos (by omega)]
      dsimp only [bind, Except.bind]
      by_cases hsecond : 2 * front + 2 = size
      · subst hsecond
        rw [hq'.enqueue_full]
      · obtain ⟨q'', hpush', hq''⟩ := hq'.enqueue (by omega)
        rw [hpush']
        exact ih (size - (front + 1)) (by omega) hq'' (by omega) rfl

/-- The heap with the new node holds one value more. -/
theorem Stores.hang (h : Stores t xs) (hxs : xs ≠ []) (value : Int32) :
    Stores ⟨hang t.heap xs.length value, t.root⟩ (xs ++ [value]) := by
  have hpos : 0 < xs.length := List.length_pos_iff.mpr hxs
  have hlen : (xs ++ [value]).length = xs.length + 1 := by simp
  refine ⟨?_, ?_, fun i hi => ?_⟩
  · rw [hlen, ← h.next]
    rfl
  · rw [h.root, hlen, child, child, if_pos hpos, if_pos (by omega)]
  · have hself : (trees.createNode t.heap value).2.get xs.length = some ⟨value, none, none⟩ := by
      rw [← h.next]
      exact Heap.get_alloc_self t.heap _
    have hold (j : Nat) (hj : j < xs.length) : (trees.createNode t.heap value).2.get j =
        some ⟨xs[j], child xs.length (2 * j + 1), child xs.length (2 * j + 2)⟩ := by
      rw [← h.node j hj]
      exact Heap.get_alloc_of_ne t.heap _ (by rw [h.next]; omega)
    change (trees.hang t.heap xs.length value).get i = _
    rw [trees.hang, Heap.get_update]
    rcases Nat.lt_or_eq_of_le (Nat.le_of_lt_succ (hlen ▸ hi)) with hlt | rfl
    · rw [List.getElem_append_left hlt]
      split
      · -- the parent of the new node
        rename_i hparent
        rw [← hparent, hold i hlt, Option.map_some]
        split
        · have hnode : 2 * i + 1 = xs.length := by omega
          have hright : child (xs.length + 1) (2 * i + 2) = child xs.length (2 * i + 2) := child_succ (by omega)
          rw [hlen, hright, hnode, child_last]
          rfl
        · have hnode : 2 * i + 2 = xs.length := by omega
          have hleft : child (xs.length + 1) (2 * i + 1) = child xs.length (2 * i + 1) := child_succ (by omega)
          rw [hlen, hleft, hnode, child_last]
          rfl
      · rw [hold i hlt, hlen, child_succ (by omega), child_succ (by omega)]
    · rw [if_neg (by omega), hself, List.getElem_append_right (Nat.le_refl _)]
      simp [child]
      omega

/-- Inserting a value behind the others. -/
theorem Stores.insertLevelOrder (h : Stores t xs) (hfits : xs.length ≤ QUEUE_SIZE) (value : Int32) :
    ∃ t', insertLevelOrder t value = .ok t' ∧ Stores t' (xs ++ [value]) := by
  by_cases hxs : xs = []
  · subst hxs
    have hroot : t.root = none := h.root
    refine ⟨⟨(trees.createNode t.heap value).2, some 0⟩, ?_, ?_⟩
    · rw [trees.insertLevelOrder, hroot]
      dsimp only
      rw [h.createNode]
      rfl
    · have hself := Heap.get_alloc_self t.heap ⟨value, none, none⟩
      rw [Heap.fst_alloc, h.next] at hself
      refine ⟨congrArg (· + 1) h.next, rfl, fun i hi => ?_⟩
      obtain rfl : i = 0 := by simpa using hi
      exact hself
  · have hroot : t.root = some 0 := by rw [h.root, child, if_pos (List.length_pos_iff.mpr hxs)]
    have hpos : 0 < xs.length := List.length_pos_iff.mpr hxs
    obtain ⟨q, hpush, hq⟩ := (at_createQueue QUEUE_SIZE).enqueue (by decide)
    refine ⟨⟨trees.hang t.heap xs.length value, some 0⟩, ?_, hroot ▸ h.hang hxs value⟩
    rw [trees.insertLevelOrder, hroot]
    dsimp only
    rw [hpush]
    dsimp only [bind, Except.bind]
    rw [h.insert_loop_eq value hfits hq (by omega)]
    rfl

theorem Stores.insertLevelOrder_overflow (h : Stores t xs) (hfull : QUEUE_SIZE < xs.length) (value : Int32) :
    trees.insertLevelOrder t value = .error (.overflow QUEUE_SIZE) := by
  have hroot : t.root = some 0 := by rw [h.root, child, if_pos (by omega)]
  obtain ⟨q, hpush, hq⟩ := (at_createQueue QUEUE_SIZE).enqueue (by decide)
  rw [trees.insertLevelOrder, hroot]
  dsimp only
  rw [hpush]
  dsimp only [bind, Except.bind]
  rw [h.insert_loop_overflow value hfull hq (by decide)]

end Insert

section Print

variable {t : tree_t} {xs : List Int32} {q : Queue} {front : Nat}

/-- The child at place `i` follows those in the queue, if there is one. -/
theorem At.enqueue_child {i n size : Nat} (h : At q front (min i n) size) (hfits : n ≤ size) :
    ∃ q', enqueue_if q (child n i) = .ok q' ∧ At q' front (min (i + 1) n) size := by
  by_cases hi : i < n
  · rw [Nat.min_eq_left (Nat.le_of_lt hi)] at h
    rw [child, if_pos hi, Nat.min_eq_left hi]
    exact h.enqueue (by omega)
  · rw [Nat.min_eq_right (by omega)] at h
    rw [child, if_neg hi, Nat.min_eq_right (by omega)]
    exact ⟨q, rfl, h⟩

/-- The traversal prints the values from `front` on. -/
theorem Stores.print_loop_eq (h : Stores t xs) {size : Nat} (hfits : xs.length ≤ size)
    (hq : At q front (min (2 * front + 1) xs.length) size) (hfront : front ≤ xs.length) :
    print_loop t.heap q = .ok (xs.drop front) := by
  generalize hleft : xs.length - front = left
  induction left generalizing q front with
  | zero =>
    have hend : front = xs.length := by omega
    subst hend
    rw [Nat.min_eq_right (by omega)] at hq
    rw [print_loop, dif_pos hq.empty, List.drop_length]
  | succ left ih =>
    have hlt : front < xs.length := by omega
    have hempty := hq.not_empty (by omega)
    obtain ⟨htemp, hrest⟩ := hq.dequeue hempty
    obtain ⟨q', hpush, hq'⟩ := hrest.enqueue_child hfits
    obtain ⟨q'', hpush', hq''⟩ := hq'.enqueue_child hfits
    rw [print_loop_turn hempty (by rw [htemp]; exact h.get hlt), hpush]
    dsimp only [bind, Except.bind]
    rw [hpush']
    dsimp only
    rw [ih hq'' (by omega) (by omega), List.drop_eq_getElem_cons hlt]

theorem Stores.print_loop_overflow (h : Stores t xs) {size : Nat} (hfull : size < xs.length)
    (hq : At q front (2 * front + 1) size) (hfront : 2 * front + 1 ≤ size) :
    print_loop t.heap q = .error (.overflow size) := by
  generalize hleft : size - front = left
  induction left using Nat.strong_induction_on generalizing q front with
  | _ left ih =>
    have hlt : front < xs.length := by omega
    have hempty := hq.not_empty (by omega)
    obtain ⟨htemp, hrest⟩ := hq.dequeue hempty
    rw [print_loop_turn hempty (by rw [htemp]; exact h.get hlt), child, if_pos (by omega), enqueue_if]
    by_cases hfirst : 2 * front + 1 = size
    · subst hfirst
      rw [hrest.enqueue_full]
      rfl
    · obtain ⟨q', hpush, hq'⟩ := hrest.enqueue (by omega)
      rw [hpush, child, if_pos (by omega)]
      dsimp only [bind, Except.bind, enqueue_if]
      by_cases hsecond : 2 * front + 2 = size
      · subst hsecond
        rw [hq'.enqueue_full]
      · obtain ⟨q'', hpush', hq''⟩ := hq'.enqueue (by omega)
        rw [hpush']
        dsimp only
        rw [ih (size - (front + 1)) (by omega) hq'' (by omega) rfl]

theorem Stores.printLevelOrder (h : Stores t xs) (hfits : xs.length ≤ QUEUE_SIZE) :
    trees.printLevelOrder t = .ok xs := by
  by_cases hxs : xs = []
  · subst hxs
    have hroot : t.root = none := h.root
    rw [trees.printLevelOrder, hroot]
  · have hpos : 0 < xs.length := List.length_pos_iff.mpr hxs
    have hroot : t.root = some 0 := by rw [h.root, child, if_pos hpos]
    obtain ⟨q, hpush, hq⟩ := (at_createQueue QUEUE_SIZE).enqueue (by decide)
    have hmin : At q 0 (min (2 * 0 + 1) xs.length) QUEUE_SIZE := by rwa [Nat.min_eq_left (by omega)]
    rw [trees.printLevelOrder, hroot]
    dsimp only
    rw [hpush]
    exact h.print_loop_eq hfits hmin (Nat.zero_le _)

theorem Stores.printLevelOrder_overflow (h : Stores t xs) (hfull : QUEUE_SIZE < xs.length) :
    trees.printLevelOrder t = .error (.overflow QUEUE_SIZE) := by
  have hroot : t.root = some 0 := by rw [h.root, child, if_pos (by omega)]
  obtain ⟨q, hpush, hq⟩ := (at_createQueue QUEUE_SIZE).enqueue (by decide)
  rw [trees.printLevelOrder, hroot]
  dsimp only
  rw [hpush]
  exact h.print_loop_overflow hfull hq (by decide)

/-- What lies in the heap below place `i` is the tree of the list. -/
theorem Stores.spells (h : Stores t xs) (i : Nat) : Spells t.heap (child xs.length i) (of_list xs i) := by
  induction i using of_list.induct xs with
  | case1 i hi ihleft ihright =>
    rw [of_list, dif_pos hi, child, if_pos hi]
    exact .node (h.node i hi) ihleft ihright
  | case2 i hi =>
    rw [of_list, dif_neg hi, child, if_neg hi]
    exact .nil

end Print

section Programs

theorem stores_empty : Stores empty [] := ⟨rfl, rfl, fun i hi => absurd hi (Nat.not_lt_zero i)⟩

/-- Values inserted behind others, while each insertion finds at most a hundred nodes. -/
theorem Stores.insert_all {t : tree_t} {xs : List Int32} (h : Stores t xs) {values : List Int32}
    (hfits : xs.length + values.length ≤ QUEUE_SIZE + 1) :
    ∃ t', trees.insert_all t values = .ok t' ∧ Stores t' (xs ++ values) := by
  have hinit : Stores t (xs ++ []) := by rwa [List.append_nil]
  refine foldlM_history (fun past t => Stores t (xs ++ past)) hinit ?_
  intro past value t hnow h
  have hle := hnow.length_le
  rw [List.length_append, List.length_singleton] at hle
  rw [← List.append_assoc]
  exact h.insertLevelOrder (by rw [List.length_append]; omega) value

/-- With more values some insertion finds too many nodes. -/
theorem Stores.insert_all_overflow {t : tree_t} {xs : List Int32} (h : Stores t xs) {values : List Int32}
    (hfull : QUEUE_SIZE + 1 < xs.length + values.length) (hvalues : values ≠ []) :
    trees.insert_all t values = .error (.overflow QUEUE_SIZE) := by
  induction values generalizing t xs with
  | nil => exact absurd rfl hvalues
  | cons value values ih =>
    rw [List.length_cons] at hfull
    rw [trees.insert_all, List.foldlM_cons]
    by_cases hfits : xs.length ≤ QUEUE_SIZE
    · obtain ⟨t', hinsert, hstores⟩ := h.insertLevelOrder hfits value
      rw [hinsert]
      refine ih hstores (by rw [List.length_append, List.length_singleton]; omega) ?_
      rintro rfl
      rw [List.length_nil] at hfull
      omega
    · rw [h.insertLevelOrder_overflow (by omega)]
      rfl

/-- What `main` prints for a number of nodes that fits the queue, or how it fails. -/
theorem main_eq (n : Int32) (value : Nat → Int32) :
    main n value =
      if n.toNatClampNeg ≤ QUEUE_SIZE then .ok ((List.range n.toNatClampNeg).map value)
      else .error (.overflow QUEUE_SIZE) := by
  have hlen : ((List.range n.toNatClampNeg).map value).length = n.toNatClampNeg := by simp
  rw [main]
  by_cases hinsert : n.toNatClampNeg ≤ QUEUE_SIZE + 1
  · have hfits : ([] : List Int32).length + ((List.range n.toNatClampNeg).map value).length ≤ QUEUE_SIZE + 1 := by
      rw [hlen, List.length_nil]
      omega
    obtain ⟨t, hrun, hstores⟩ := stores_empty.insert_all hfits
    rw [hrun]
    dsimp only [bind, Except.bind]
    rw [List.nil_append] at hstores
    split
    · exact hstores.printLevelOrder (by omega)
    · exact hstores.printLevelOrder_overflow (by omega)
  · rw [stores_empty.insert_all_overflow (by rw [hlen, List.length_nil]; omega)
      (List.ne_nil_of_length_pos (by omega)), if_neg (by omega)]
    rfl

/-- The traversal queue never overflows exactly for at most a hundred nodes. -/
theorem never_overflows_iff (n : Int32) (value : Nat → Int32) :
    (∀ index, main n value ≠ .error (.overflow index)) ↔ n.toInt ≤ 100 := by
  have hclamp : n.toNatClampNeg = n.toInt.toNat := rfl
  have hsize : QUEUE_SIZE = 100 := rfl
  rw [main_eq]
  constructor
  · intro hnever
    by_contra hmany
    exact hnever QUEUE_SIZE (if_neg (by omega))
  · intro hfew index
    rw [if_pos (by omega)]
    nofun

/-- Printing 101 nodes. -/
theorem hundred_one_overflow :
    main 101 (fun _ => 7) = .error (.overflow 100) ∧
      ¬ ∀ (n : Int32) (value : Nat → Int32) (index : Nat), main n value ≠ .error (.overflow index) := by
  have hrun : main 101 (fun _ => 7) = .error (.overflow 100) := by
    rw [main_eq, if_neg (by decide)]
    rfl
  exact ⟨hrun, fun hall => hall 101 (fun _ => 7) 100 hrun⟩

/-- At most a hundred numbers, inserted one by one, make a complete tree at every moment,
and are printed as they came. -/
theorem inserts_in_level_order {xs : List Int32} (h : xs.length ≤ 100) :
    (∃ t, insert_all empty xs = .ok t ∧ printLevelOrder t = .ok xs) ∧
      ∀ now, now <+: xs → ∃ t shape, insert_all empty now = .ok t ∧ Spells t.heap t.root shape ∧ Complete shape := by
  have hsize : QUEUE_SIZE = 100 := rfl
  have hstores {now : List Int32} (hnow : now.length ≤ 100) :
      ∃ t, insert_all empty now = .ok t ∧ Stores t now :=
    stores_empty.insert_all (by rw [List.length_nil]; omega)
  constructor
  · obtain ⟨t, hrun, ht⟩ := hstores h
    exact ⟨t, hrun, ht.printLevelOrder h⟩
  · intro now hnow
    obtain ⟨t, hrun, ht⟩ := hstores (hnow.length_le.trans h)
    exact ⟨t, of_list now 0, hrun, ht.root ▸ ht.spells 0, complete_of_list now⟩

theorem inserts_three :
    (∃ t, insert_all empty [5, 3, 8] = .ok t ∧ printLevelOrder t = .ok [5, 3, 8]) ∧
      ∀ now, now <+: [5, 3, 8] →
        ∃ t shape, insert_all empty now = .ok t ∧ Spells t.heap t.root shape ∧ Complete shape :=
  inserts_in_level_order (by decide)

end Programs

end csystems.trees
