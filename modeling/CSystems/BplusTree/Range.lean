import CSystems.BplusTree.Structure

open clib.array clib.format clib.heap clib.row clib.sorted_list

namespace csystems.bplus_tree

/-- What is printed of keys that are met one after the other, and whether `printRange`
returns at one of them. -/
def scan (start finish : Int32) : List Int32 → List Char × Bool
  | [] => ([], false)
  | k :: keys =>
    if k > finish then (print_key start finish k, true)
    else (print_key start finish k ++ (scan start finish keys).1, (scan start finish keys).2)

/-- The keys in the range, in ascending order. -/
def in_range (keys : List Int32) (start finish : Int32) : List Int32 :=
  (keys.mergeSort (· ≤ ·)).filter fun k => decide (start ≤ k ∧ k ≤ finish)

/-- What `printRange` prints of the keys: the scan only reaches the end of the leaves
when no key is above the range. -/
def range_text (keys : List Int32) (start finish : Int32) : List Char :=
  ((in_range keys start finish).flatMap fun k => decimal k.toInt ++ [' ']) ++
    if ∃ k ∈ keys, finish < k then [] else ['\n']

section Scan

variable {start finish : Int32} {heap : Heap BPlusTreeNode}

theorem scan_append (xs ys : List Int32) :
    scan start finish (xs ++ ys) =
      if (scan start finish xs).2 then scan start finish xs
      else ((scan start finish xs).1 ++ (scan start finish ys).1, (scan start finish ys).2) := by
  induction xs with
  | nil => rfl
  | cons k xs ih =>
    rw [List.cons_append, scan, scan, ih]
    split
    · rfl
    · split <;> simp_all

theorem print_keys_spec {keys : Slots Int32} {n : Nat} (passed : List Int32) {xs : List Int32}
    (h : Holds keys n (passed ++ xs)) :
    print_keys keys start finish passed.length xs.length = some (scan start finish xs) := by
  induction xs generalizing passed with
  | nil => rfl
  | cons k xs ih =>
    have hread : read keys passed.length = some k := h.read_eq (by simp)
    have hrest : passed ++ k :: xs = (passed ++ [k]) ++ xs := by simp
    have ih := ih (passed ++ [k]) (hrest ▸ h)
    rw [List.length_append, List.length_singleton] at ih
    rw [List.length_cons, print_keys, hread, Option.bind_eq_bind, Option.bind_some, ih, scan]
    split <;> rfl

/-- The loop over leaves that are linked prints what a scan of their keys does. -/
theorem print_leaves_spec {ls : List leaf_t} (h : Siblings (Represents heap (d := 0)) leaf_t.addr ls none)
    {fuel : Nat} (hfuel : ls.length < fuel) :
    print_leaves heap start finish fuel (bplus_tree.start leaf_t.addr ls none) =
      some ((scan start finish (ls.flatMap leaf_t.keys)).1 ++
        if (scan start finish (ls.flatMap leaf_t.keys)).2 then [] else ['\n']) := by
  induction ls generalizing fuel with
  | nil =>
    obtain ⟨fuel, rfl⟩ : ∃ k, fuel = k + 1 := ⟨fuel - 1, by omega⟩
    rfl
  | cons l ls ih =>
    obtain ⟨fuel, rfl⟩ : ∃ k, fuel = k + 1 := ⟨fuel - 1, by simp at hfuel; omega⟩
    obtain ⟨⟨node, hget, hnode⟩, hrest⟩ := h
    have hkeys : print_keys node.keys start finish 0 node.count = some (scan start finish l.keys) := by
      rw [hnode.count]
      exact print_keys_spec [] hnode.keys
    rw [bplus_tree.start, print_leaves, hget, Option.bind_eq_bind, Option.bind_some, hkeys, Option.bind_eq_bind,
      Option.bind_some, List.flatMap_cons, scan_append]
    dsimp only
    split
    · rw [List.append_nil]
    · rw [hnode.next, ih hrest (by simpa using hfuel)]
      simp

/-- A scan of keys in order meets every key that is in the range. -/
theorem scan_of_sorted (start finish : Int32) {xs : List Int32} (hsorted : xs.Pairwise (· ≤ ·)) :
    (scan start finish xs).1 =
        (xs.filter fun k => decide (start ≤ k ∧ k ≤ finish)).flatMap (fun k => decimal k.toInt ++ [' ']) ∧
      ((scan start finish xs).2 = true ↔ ∃ k ∈ xs, finish < k) := by
  induction xs with
  | nil => exact ⟨rfl, by simp [scan]⟩
  | cons k xs ih =>
    obtain ⟨hbelow, hrest⟩ := List.pairwise_cons.mp hsorted
    obtain ⟨htext, hreturned⟩ := ih hrest
    by_cases hk : finish < k
    · have hnone : (k :: xs).filter (fun k => decide (start ≤ k ∧ k ≤ finish)) = [] := by
        refine List.filter_eq_nil_iff.mpr fun x hx => ?_
        have hle : k ≤ x := by
          rcases List.mem_cons.mp hx with rfl | hx
          · exact Int32.le_refl x
          · exact hbelow x hx
        have hlt : finish < x := Int32.lt_of_lt_of_le hk hle
        simp [hlt]
      rw [scan, if_pos hk, hnone, print_key, if_neg (by simp [hk])]
      exact ⟨rfl, by simp [hk]⟩
    · rw [scan, if_neg hk, htext]
      refine ⟨?_, by simp [hk, hreturned]⟩
      rw [List.filter_cons, print_key]
      by_cases hin : start ≤ k ∧ k ≤ finish
      · simp [hin]
      · rw [if_neg hin, if_neg (by simpa using hin)]
        rfl

end Scan

section Descent

variable {heap : Heap BPlusTreeNode} {after : Option Nat}

/-- Below the root every leaf has two keys at least. -/
theorem Filled.two_le {d : Nat} {t : tree_t d} (h : Filled 2 t) : ∀ l ∈ leaves t, 2 ≤ l.keys.length := by
  induction d with
  | zero =>
    change leaf_t at t
    intro l hl
    rw [List.mem_singleton.mp hl]
    exact h.1
  | succ d ih =>
    change branch_t (tree_t d) at t
    intro l hl
    rw [leaves, Row.fold_nil] at hl
    obtain ⟨c, hc, hlc⟩ := List.mem_flatMap.mp hl
    exact ih (h.2.2 c hc) l hlc

/-- Only the root may be a leaf without keys. -/
theorem Filled.leaf_cases {d : Nat} {t : tree_t d} (h : Filled 0 t) :
    (∃ l, leaves t = [l]) ∨ ∀ l ∈ leaves t, l.keys ≠ [] := by
  cases d with
  | zero => exact Or.inl ⟨t, rfl⟩
  | succ d =>
    change branch_t (tree_t d) at t
    refine Or.inr fun l hl hnil => ?_
    rw [leaves, Row.fold_nil] at hl
    obtain ⟨c, hc, hlc⟩ := List.mem_flatMap.mp hl
    have htwo := (h.2.2 c hc).two_le l hlc
    rw [hnil] at htwo
    simp at htwo

/-- The descent passes leaves whose keys are below the range. -/
theorem descend_spec (lower : Int32) {d : Nat} {t : tree_t d} (h : Represents heap t after) (hordered : Ordered t)
    {fuel : Nat} (hfuel : d < fuel) :
    ∃ pre l post, leaves t = pre ++ l :: post ∧ (∀ m ∈ pre, ∀ k ∈ m.keys, k < lower) ∧
      descend heap lower fuel (root t) = some l.addr := by
  induction d generalizing after fuel with
  | zero =>
    change leaf_t at t
    obtain ⟨fuel, rfl⟩ : ∃ k, fuel = k + 1 := ⟨fuel - 1, by omega⟩
    obtain ⟨node, hget, hnode⟩ := h
    refine ⟨[], t, [], rfl, nofun, ?_⟩
    rw [root, descend, hget]
    simp [hnode.isLeaf]
  | succ d ih =>
    change branch_t (tree_t d) at t
    obtain ⟨fuel, rfl⟩ : ∃ k, fuel = k + 1 := ⟨fuel - 1, by omega⟩
    obtain ⟨⟨node, hget, hnode⟩, hchildren⟩ := h
    let p : Int32 → Bool := fun k => decide (k < lower)
    let z := locate p t.row.head t.row.entries
    have hrow : t.row = join z.pre z.focus z.post := (join_locate p t.row.head t.row.entries).symm
    have hpre : ∀ e ∈ z.pre, e.2 < lower := fun e he => by
      simpa [p] using locate_pre p t.row.head t.row.entries e he
    have hpost : ∀ e ∈ z.post.head?, lower ≤ e.1 := fun e he => by
      simpa [p] using locate_post p t.row.head t.row.entries e he
    have hmem : z.focus ∈ t.row.children := by
      rw [hrow, children_join]
      exact List.mem_append_right _ List.mem_cons_self
    obtain ⟨_, hfocus⟩ := hchildren.exists_of_mem hmem
    have hsorted : (t.row.fold (fun k => [k]) inorder).Pairwise (· ≤ ·) := hordered
    obtain ⟨pre, l, post, hleaves, hbelow, hrun⟩ :=
      ih hfocus (hsorted.sublist (Row.sublist_fold_of_mem_children hmem _ inorder)) (show d < fuel by omega)
    refine ⟨(z.pre.flatMap fun e => leaves e.1) ++ pre, l, post ++ z.post.flatMap fun e => leaves e.2, ?_, ?_, ?_⟩
    · rw [leaves, hrow, fold_join, hleaves]
      simp
    · intro m hm k hk
      rcases List.mem_append.mp hm with hm | hm
      · obtain ⟨e, he, hme⟩ := List.mem_flatMap.mp hm
        refine Int32.lt_of_le_of_lt ?_ (hpre e he)
        rw [hrow, fold_join] at hsorted
        have hblocks := (List.pairwise_append.mp (List.pairwise_append.mp hsorted).1).1
        have hblock := (List.pairwise_flatMap.mp hblocks).1 e he
        refine (List.pairwise_append.mp hblock).2.2 k ?_ e.2 List.mem_cons_self
        exact (contents_sublist_inorder e.1).subset (List.mem_flatMap.mpr ⟨m, hme, hk⟩)
      · exact hbelow m hm k hk
    · have hkeys := hnode.keys
      have hcount := hnode.count
      rw [hrow, keys_join] at hkeys hcount
      have hindex := child_index_spec [] hkeys
        (fun k hk => by obtain ⟨e, he, rfl⟩ := List.mem_map.mp hk; exact hpre e he)
        (fun k hk => by
          rw [List.head?_map] at hk
          obtain ⟨e, he, rfl⟩ := Option.map_eq_some_iff.mp hk
          exact hpost e he)
      rw [List.length_nil, ← hcount, List.nil_append, List.length_map] at hindex
      have hchild : read node.child z.pre.length = some (some (root z.focus)) := by
        apply hnode.child.read_eq
        rw [hrow, children_join]
        simp
      rw [root, descend, hget]
      simp [hnode.isLeaf, hindex, hchild, hrun]

end Descent

/-- Keys below the range do not matter to what is printed of the keys behind them. -/
private theorem text_of_append {start : Int32} (finish : Int32) {before keys : List Int32}
    (hsorted : (before ++ keys).Pairwise (· ≤ ·)) (hbelow : ∀ k ∈ before, k < start)
    (hne : before = [] ∨ keys ≠ []) :
    ((before ++ keys).filter fun k => decide (start ≤ k ∧ k ≤ finish)) =
        (keys.filter fun k => decide (start ≤ k ∧ k ≤ finish)) ∧
      ((∃ k ∈ before ++ keys, finish < k) ↔ ∃ k ∈ keys, finish < k) := by
  refine ⟨?_, ?_, fun ⟨k, hk, hlt⟩ => ⟨k, List.mem_append_right _ hk, hlt⟩⟩
  · rw [List.filter_append, List.filter_eq_nil_iff.mpr ?_, List.nil_append]
    intro k hk
    have hlt := hbelow k hk
    simp [hlt]
  · rintro ⟨k, hk, hlt⟩
    rcases List.mem_append.mp hk with hk | hk
    · obtain ⟨x, hx⟩ := List.exists_mem_of_ne_nil keys (hne.resolve_left (List.ne_nil_of_mem hk))
      exact ⟨x, hx, Int32.lt_of_lt_of_le hlt ((List.pairwise_append.mp hsorted).2.2 k hk x hx)⟩
    · exact ⟨k, hk, hlt⟩

/-- Whatever keys were inserted, the scan prints those in the range in order, each as
often as it was inserted. -/
theorem printRange_exact (keys : List Int32) (start finish : Int32) :
    ∃ tree, build keys = some tree ∧ printRange tree start finish = some (range_text keys start finish) ∧
      (finish < start → in_range keys start finish = []) := by
  obtain ⟨heap, r, d, t, hbuild, h⟩ := build_built keys
  have hfuel : d < heap.next + 1 := by
    have hdepth := depth_lt_length_addrs t
    have hle := h.length_addrs_le
    omega
  obtain ⟨pre, l, post, hleaves, hbelow, hdescend⟩ := descend_spec start h.represents h.ordered hfuel
  have hcontents : contents t = pre.flatMap leaf_t.keys ++ (l :: post).flatMap leaf_t.keys := by
    rw [contents, hleaves, List.flatMap_append]
  have hsorted : (pre.flatMap leaf_t.keys ++ (l :: post).flatMap leaf_t.keys).Pairwise (· ≤ ·) :=
    hcontents ▸ h.ordered.sublist (contents_sublist_inorder t)
  have hsort : keys.mergeSort (· ≤ ·) = pre.flatMap leaf_t.keys ++ (l :: post).flatMap leaf_t.keys :=
    mergeSort_eq_of_perm hsorted (hcontents ▸ h.holds)
  have hne : pre.flatMap leaf_t.keys = [] ∨ (l :: post).flatMap leaf_t.keys ≠ [] := by
    rcases h.filled.leaf_cases with ⟨m, hsingle⟩ | hkeys
    · rw [hleaves] at hsingle
      cases pre with
      | nil => exact Or.inl rfl
      | cons m' pre => simp at hsingle
    · refine Or.inr fun hnil => hkeys l (by simp [hleaves]) ?_
      exact List.flatMap_eq_nil_iff.mp hnil l List.mem_cons_self
  obtain ⟨hfilter, habove⟩ := text_of_append finish hsorted
    (fun k hk => by obtain ⟨m, hm, hkm⟩ := List.mem_flatMap.mp hk; exact hbelow m hm k hkm) hne
  refine ⟨(heap, r), hbuild, ?_, fun hlt => ?_⟩
  · have hchain := h.represents.leaves
    rw [hleaves, siblings_append] at hchain
    have hlength : (l :: post).length < heap.next + 1 := by
      have hle := (leaves_sublist_addrs t).length_le
      have haddrs := h.length_addrs_le
      rw [List.length_map, hleaves, List.length_append] at hle
      omega
    obtain ⟨htext, hreturned⟩ := scan_of_sorted start finish (List.pairwise_append.mp hsorted).2.1
    have hmem : (∃ k ∈ keys, finish < k) ↔ (scan start finish ((l :: post).flatMap leaf_t.keys)).2 = true := by
      rw [hreturned, ← habove, ← hcontents]
      exact exists_congr fun k => and_congr_left' h.holds.mem_iff.symm
    have hprint : print_leaves heap start finish (heap.next + 1) (some l.addr) = _ :=
      print_leaves_spec hchain.2 hlength
    rw [printRange]
    rw [← h.address, hdescend, Option.bind_eq_bind, Option.bind_some, hprint, htext, range_text, in_range, hsort,
      hfilter]
    simp only [hmem]
  · refine List.filter_eq_nil_iff.mpr fun k _ => ?_
    have hbetween : ¬(start ≤ k ∧ k ≤ finish) := fun hin =>
      Int32.not_le.mpr hlt (Int32.le_trans hin.1 hin.2)
    simpa using hbetween

end csystems.bplus_tree
