import CSystems.BplusTree.Insertion
import CSystems.BplusTree.Represents

open clib.array clib.heap clib.row clib.sorted_list

namespace csystems.bplus_tree

namespace grown_t

def trees {τ : Type} : grown_t τ → List τ
  | kept t => [t]
  | split left _ right => [left, right]

/-- What `insert` reports to its caller. -/
def pointers {d : Nat} : grown_t (tree_t d) → Option (Int32 × Nat)
  | kept _ => none
  | split _ upKey right => some (upKey, root right)

theorem start_trees {τ : Type} (g : grown_t τ) (first : τ → Nat) (after : Option Nat) :
    start first g.trees after = some (first g.left) := by
  cases g <;> rfl

end grown_t

theorem children_plug {τ : Type} (z : Zipper Int32 τ) (g : grown_t τ) :
    (plug z g).children = z.pre.map Prod.fst ++ g.trees ++ z.post.map Prod.snd := by
  cases g <;> simp [plug, grown_t.trees]

/-- `heap'` holds what insertion makes of the tree, and no other node of `heap`
has changed. -/
structure Refined (key : Int32) {d : Nat} (t : tree_t d) (heap heap' : Heap BPlusTreeNode) (after : Option Nat) :
    Prop where
  next : heap'.next = (insert_tree key t heap.next).2
  frame : ∀ a, a < heap.next → a ∉ addrs t → heap'.get a = heap.get a
  trees : Siblings (Represents heap') first_leaf (insert_tree key t heap.next).1.trees after

section Leaf

variable {key : Int32} {heap : Heap BPlusTreeNode} {after : Option Nat} {fuel least : Nat}

private theorem insert_leaf_refines {t : leaf_t} (h : Represents heap (d := 0) t after)
    (hsorted : t.keys.Pairwise (· ≤ ·)) (hmax : t.keys.length ≤ MAX) :
    ∃ heap', insert key (fuel + 1) heap t.addr =
        some (heap', (insert_tree key (d := 0) t heap.next).1.pointers) ∧
      Refined key (d := 0) t heap heap' after := by
  obtain ⟨node, hget, hnode⟩ := h
  have hne : t.addr ≠ heap.next := Nat.ne_of_lt (Heap.lt_next_of_get hget)
  have hlength := List.orderedInsert_length (· ≤ ·) t.keys key
  have hcount := hnode.count
  rcases grow_leaf_cases { addr := t.addr, keys := t.keys.orderedInsert (· ≤ ·) key } heap.next with
    ⟨hroom, heq⟩ | ⟨k, keys, hfull, hkeys, heq⟩
  · dsimp only at hroom
    have htree : insert_tree key (d := 0) t heap.next = _ := heq
    obtain ⟨node', hrun, hnode'⟩ := insertLeaf_spec hnode key hsorted (by omega)
    refine ⟨heap.update t.addr fun _ => node', ?_, ⟨?_, ?_, ?_⟩⟩
    · rw [htree]
      exact insert_leaf_room hget hnode.isLeaf (by omega) hrun
    · rw [htree]
      rfl
    · intro a _ ha
      exact Heap.get_update_of_ne _ (fun heq => ha (List.mem_singleton.mpr heq)) _
    · rw [htree]
      exact ⟨⟨node', by rw [Heap.get_update_self, hget]; rfl, hnode'⟩, trivial⟩
  · dsimp only at hfull hkeys
    have htree : insert_tree key (d := 0) t heap.next = _ := heq
    obtain ⟨node', new, hrun, hnode', hnew⟩ := splitLeaf_spec hnode hsorted (by omega) rfl hkeys
    refine ⟨(heap.alloc new).2.update t.addr fun _ => { node' with next := some heap.next }, ?_, ⟨?_, ?_, ?_⟩⟩
    · rw [htree]
      exact insert_leaf_full hget hnode.isLeaf (by omega) hrun
    · rw [htree]
      rfl
    · intro a hlt ha
      rw [Heap.get_update_of_ne _ (fun heq => ha (List.mem_singleton.mpr heq)), Heap.get_alloc_of_ne _ _ (by omega)]
    · rw [htree]
      refine ⟨⟨{ node' with next := some heap.next }, ?_, ?_⟩, ⟨new, ?_, hnew⟩, trivial⟩
      · rw [Heap.get_update_self, Heap.get_alloc_of_ne _ _ hne, hget]
        rfl
      · exact ⟨hnode'.isLeaf, hnode'.count, hnode'.keys, rfl⟩
      · rw [Heap.get_update_of_ne _ (Ne.symm hne)]
        exact Heap.get_alloc_self heap new

end Leaf

section Branch

variable {key : Int32} {d : Nat} {heap heap₁ : Heap BPlusTreeNode} {after : Option Nat} {z : Zipper Int32 (tree_t d)}

/-- The row after an insertion into the child in focus. -/
private theorem siblings_plug
    (hrow : Siblings (Represents heap) first_leaf (join z.pre z.focus z.post).children after)
    (hnodup : ((join z.pre z.focus z.post).fold (fun _ => []) addrs).Nodup)
    (hfocus : Refined key z.focus heap heap₁ (start first_leaf (z.post.map Prod.snd) after)) :
    Siblings (Represents heap₁) first_leaf (plug z (insert_tree key z.focus heap.next).1).children after := by
  rw [children_join, ← List.singleton_append, ← List.append_assoc, siblings_append, siblings_append] at hrow
  obtain ⟨⟨hpre, hchild⟩, hpost⟩ := hrow
  rw [fold_join, List.nodup_append, List.nodup_append] at hnodup
  obtain ⟨⟨-, -, hleft⟩, -, hright⟩ := hnodup
  rw [children_plug, siblings_append, siblings_append]
  refine ⟨⟨?_, hfocus.trees⟩, ?_⟩
  · have hstart : start first_leaf (insert_tree key z.focus heap.next).1.trees
        (start first_leaf (z.post.map Prod.snd) after) = some (first_leaf z.focus) := by
      rw [grown_t.start_trees, (insert_tree_left key z.focus heap.next).2]
    rw [hstart]
    refine Represents.siblings_congr hpre ?_
    intro c hc a ha
    obtain ⟨_, hrep⟩ := hpre.exists_of_mem hc
    obtain ⟨e, he, rfl⟩ := List.mem_map.mp hc
    refine hfocus.frame a (hrep.lt_next a ha) fun hmem => ?_
    exact hleft a (List.mem_flatMap.mpr ⟨e, he, List.mem_append_left _ ha⟩) a hmem rfl
  · refine Represents.siblings_congr hpost ?_
    intro c hc a ha
    obtain ⟨_, hrep⟩ := hpost.exists_of_mem hc
    obtain ⟨e, he, rfl⟩ := List.mem_map.mp hc
    refine hfocus.frame a (hrep.lt_next a ha) fun hmem => ?_
    exact hright a (List.mem_append_right _ hmem) a (List.mem_flatMap.mpr ⟨e, he, ha⟩) rfl

/-- The addresses in the row are old ones or new. -/
private theorem mem_addrs_plug {next a : Nat}
    (ha : a ∈ (plug z (insert_tree key z.focus next).1).fold (fun _ => []) addrs) :
    a ∈ (join z.pre z.focus z.post).fold (fun _ => []) addrs ∨ next ≤ a := by
  obtain ⟨m, -, hperm⟩ := insert_tree_addrs key z.focus next
  rw [fold_join]
  rw [fold_plug] at ha
  rcases List.mem_append.mp ha with ha | ha
  · rcases List.mem_append.mp ha with ha | ha
    · exact Or.inl (List.mem_append_left _ (List.mem_append_left _ ha))
    · rcases List.mem_append.mp (hperm.mem_iff.mp ha) with ha | ha
      · exact Or.inl (List.mem_append_left _ (List.mem_append_right _ ha))
      · exact Or.inr (List.mem_range'_1.mp ha).1
  · exact Or.inl (List.mem_append_right _ ha)

private theorem keys_plug_split (z : Zipper Int32 (tree_t d)) (left right : tree_t d) (k : Int32) :
    (plug z (.split left k right)).keys = (join z.pre z.focus z.post).keys.insertIdx z.pre.length k := by
  have hlength : z.pre.length = (z.pre.map Prod.snd).length := by simp
  rw [keys_join, hlength, insertIdx_length_append, plug, keys_join]
  simp

private theorem ptrs_plug_split {left : tree_t d} (hroot : root left = root z.focus) (right : tree_t d) (k : Int32) :
    (plug z (.split left k right)).children.map root =
      ((join z.pre z.focus z.post).children.map root).insertIdx (z.pre.length + 1) (root right) := by
  have hsplit : (join z.pre z.focus z.post).children.map root =
      (z.pre.map (root ∘ Prod.fst) ++ [root z.focus]) ++ z.post.map (root ∘ Prod.snd) := by simp
  have hlength : z.pre.length + 1 = (z.pre.map (root ∘ Prod.fst) ++ [root z.focus]).length := by simp
  rw [hsplit, hlength, insertIdx_length_append, children_plug]
  simp [grown_t.trees, hroot]

variable {t : branch_t (tree_t d)} {fuel : Nat}

/-- What `insert` knows of an internal node when the call for the child in focus
has returned. -/
private structure Visited (key : Int32) (t : branch_t (tree_t d)) (z : Zipper Int32 (tree_t d))
    (heap heap₁ : Heap BPlusTreeNode) (node : BPlusTreeNode) (after : Option Nat) : Prop where
  row : t.row = join z.pre z.focus z.post
  live : heap.get t.addr = some node
  internal : IsInternal node t.row.keys (t.row.children.map root)
  unchanged : heap₁.get t.addr = some node
  index : child_index node.keys key 0 node.count = some z.pre.length
  child : read node.child z.pre.length = some (some (root z.focus))
  siblings : Siblings (Represents heap₁) first_leaf (plug z (insert_tree key z.focus heap.next).1).children after
  apart : t.addr ∉ (plug z (insert_tree key z.focus heap.next).1).fold (fun _ => []) addrs
  frame : ∀ a, a < heap.next → a ∉ addrs (d := d + 1) t → heap₁.get a = heap.get a
  next : heap₁.next = (insert_tree key z.focus heap.next).2

private theorem Represents.visited (h : Represents heap (d := d + 1) t after) (hrow : t.row = join z.pre z.focus z.post)
    (hpre : ∀ e ∈ z.pre, e.2 < key) (hpost : ∀ e ∈ z.post.head?, key ≤ e.1)
    (hnodup : (addrs (d := d + 1) t).Nodup)
    (hfocus : Refined key z.focus heap heap₁ (start first_leaf (z.post.map Prod.snd) after)) :
    ∃ node, Visited key t z heap heap₁ node after := by
  obtain ⟨⟨node, hget, hnode⟩, hchildren⟩ := h
  have hlt := Heap.lt_next_of_get hget
  rw [addrs, List.nodup_cons] at hnodup
  have hmem : ∀ a ∈ addrs z.focus, a ∈ t.row.fold (fun _ => []) addrs := by
    intro a ha
    refine (Row.sublist_fold_of_mem_children ?_ _ addrs).subset ha
    rw [hrow, children_join]
    exact List.mem_append_right _ (List.mem_cons_self ..)
  refine ⟨node, hrow, hget, hnode, ?_, ?_, ?_, ?_, ?_, ?_, hfocus.next⟩
  · rw [hfocus.frame _ hlt fun ha => hnodup.1 (hmem _ ha), hget]
  · have hkeys := hnode.keys
    have hcount := hnode.count
    rw [hrow, keys_join] at hkeys hcount
    have hindex := child_index_spec [] hkeys
      (fun k hk => by obtain ⟨e, he, rfl⟩ := List.mem_map.mp hk; exact hpre e he)
      (fun k hk => by
        rw [List.head?_map] at hk
        obtain ⟨e, he, rfl⟩ := Option.map_eq_some_iff.mp hk
        exact hpost e he)
    rw [hcount]
    simpa using hindex
  · apply hnode.child.read_eq
    rw [hrow, children_join]
    simp
  · exact siblings_plug (hrow ▸ hchildren) (hrow ▸ hnodup.2) hfocus
  · intro ha
    rcases mem_addrs_plug ha with ha | ha
    · exact hnodup.1 (hrow ▸ ha)
    · omega
  · intro a ha hnot
    exact hfocus.frame a ha fun hmem' => hnot (List.mem_cons_of_mem _ (hmem a hmem'))

namespace Visited

variable {node : BPlusTreeNode} {heap' : Heap BPlusTreeNode}

/-- A store to the node leaves its children alone. -/
private theorem keep (v : Visited key t z heap heap₁ node after)
    (hsame : ∀ a, a ≠ t.addr → a < heap₁.next → heap'.get a = heap₁.get a) :
    Siblings (Represents heap') first_leaf (plug z (insert_tree key z.focus heap.next).1).children after := by
  refine Represents.siblings_congr v.siblings ?_
  intro c hc a ha
  obtain ⟨_, hrep⟩ := v.siblings.exists_of_mem hc
  refine hsame a ?_ (hrep.lt_next a ha)
  rintro rfl
  exact v.apart ((Row.sublist_fold_of_mem_children hc _ addrs).subset ha)

private theorem frame_of_same (v : Visited key t z heap heap₁ node after)
    (hsame : ∀ a, a ≠ t.addr → a < heap₁.next → heap'.get a = heap₁.get a) :
    ∀ a, a < heap.next → a ∉ addrs (d := d + 1) t → heap'.get a = heap.get a := by
  obtain ⟨m, hm, -⟩ := insert_tree_addrs key z.focus heap.next
  intro a ha hnot
  rw [← v.frame a ha hnot]
  refine hsame a ?_ (by have := v.next; omega)
  rintro rfl
  exact hnot (List.mem_cons_self ..)

/-- The node is stored again, cut in two if need be. -/
private structure Stores (t : branch_t (tree_t d)) (heap₁ heap' : Heap BPlusTreeNode) (after : Option Nat)
    (g : grown_t (branch_t (tree_t d)) × Nat) : Prop where
  next : heap'.next = g.2
  same : ∀ a, a ≠ t.addr → a < heap₁.next → heap'.get a = heap₁.get a
  trees : Siblings (Represents heap' (d := d + 1)) first_leaf g.1.trees after

/-- The child in focus has not split. -/
private theorem kept (v : Visited key t z heap heap₁ node after) (hmax : t.row.keys.length ≤ MAX)
    {c : tree_t d} (hchild : (insert_tree key z.focus heap.next).1 = .kept c)
    (hrun : insert key fuel heap (root z.focus) = some (heap₁, none)) {g : grown_t (branch_t (tree_t d)) × Nat}
    (hg : grow_branch { addr := t.addr, row := plug z (insert_tree key z.focus heap.next).1 } heap₁.next = g) :
    insert key (fuel + 1) heap t.addr = some (heap₁, grown_t.pointers (d := d + 1) g.1) ∧
      Stores t heap₁ heap₁ after g := by
  have hkeys : (plug z (insert_tree key z.focus heap.next).1).keys = t.row.keys := by
    rw [hchild, plug, v.row, keys_join, keys_join]
  have hptrs : (plug z (insert_tree key z.focus heap.next).1).children.map root = t.row.children.map root := by
    have hroot := (insert_tree_left key z.focus heap.next).1
    rw [hchild, grown_t.left] at hroot
    rw [hchild, plug, v.row, children_join, children_join]
    simp [hroot]
  rcases grow_branch_cases { addr := t.addr, row := plug z (insert_tree key z.focus heap.next).1 } heap₁.next with
    ⟨-, heq⟩ | ⟨_, _, _, hfull, -, -⟩
  · rw [← hg, heq]
    refine ⟨insert_internal_kept v.live v.internal.isLeaf v.index v.child hrun, rfl, fun _ _ _ => rfl,
      ⟨⟨node, v.unchanged, ?_⟩, v.siblings⟩, trivial⟩
    dsimp only
    rw [hkeys, hptrs]
    exact v.internal
  · have hlength := congrArg List.length hkeys
    rw [Row.keys, List.length_map] at hlength
    dsimp only at hfull
    omega

/-- The child in focus has split. -/
private theorem split (v : Visited key t z heap heap₁ node after) (hmax : t.row.keys.length ≤ MAX)
    {left right : tree_t d} {k : Int32} (hchild : (insert_tree key z.focus heap.next).1 = .split left k right)
    (hrun : insert key fuel heap (root z.focus) = some (heap₁, some (k, root right)))
    {g : grown_t (branch_t (tree_t d)) × Nat}
    (hg : grow_branch { addr := t.addr, row := plug z (insert_tree key z.focus heap.next).1 } heap₁.next = g) :
    ∃ heap', insert key (fuel + 1) heap t.addr = some (heap', grown_t.pointers (d := d + 1) g.1) ∧
      Stores t heap₁ heap' after g := by
  have hroot := (insert_tree_left key z.focus heap.next).1
  rw [hchild, grown_t.left] at hroot
  have hkeys : (plug z (insert_tree key z.focus heap.next).1).keys = t.row.keys.insertIdx z.pre.length k := by
    rw [hchild, v.row, keys_plug_split]
  have hptrs : (plug z (insert_tree key z.focus heap.next).1).children.map root =
      (t.row.children.map root).insertIdx (z.pre.length + 1) (root right) := by
    rw [hchild, v.row, ptrs_plug_split hroot]
  have hi : z.pre.length ≤ t.row.keys.length := by
    rw [v.row, keys_join]
    simp
  have hchildren : (t.row.children.map root).length = t.row.keys.length + 1 := by
    rw [List.length_map, Row.length_children]
  have hlength := congrArg List.length hkeys
  rw [List.length_insertIdx_of_le_length hi, Row.keys, List.length_map] at hlength
  have hcount := v.internal.count
  rcases grow_branch_cases { addr := t.addr, row := plug z (insert_tree key z.focus heap.next).1 } heap₁.next with
    ⟨hroom, heq⟩ | ⟨upKey, c, entries, hfull, hentries, heq⟩
  · dsimp only at hroom
    obtain ⟨node', hinsert, hnode'⟩ := insertChild_spec v.internal k (root right) hchildren hi (by omega)
    have hsame : ∀ a, a ≠ t.addr → a < heap₁.next → (heap₁.update t.addr fun _ => node').get a = heap₁.get a :=
      fun a hne _ => Heap.get_update_of_ne _ hne _
    rw [← hg, heq]
    refine ⟨heap₁.update t.addr fun _ => node', ?_, rfl, hsame, ⟨⟨node', ?_, ?_⟩, v.keep hsame⟩, trivial⟩
    · exact insert_internal_room v.live v.internal.isLeaf v.index v.child hrun v.unchanged (by omega) hinsert
    · rw [Heap.get_update_self, v.unchanged]
      rfl
    · dsimp only
      rw [hkeys, hptrs]
      exact hnode'
  · dsimp only at hfull hentries
    have hmax' : MAX = 3 := rfl
    have hmid : MID = 2 := rfl
    have hleft : ((plug z (insert_tree key z.focus heap.next).1).entries.take MID).length = MID := by
      rw [List.length_take]
      omega
    obtain ⟨htake, hk, hdrop⟩ := Row.keys_of_entries hentries
    have hcut := Row.children_of_entries hentries
    rw [hleft] at htake hk hdrop
    rw [hkeys] at hk
    obtain ⟨node', new, hsplit, hnode', hnew⟩ :=
      splitInternal_spec v.internal (root right) hchildren hi (by omega) hk
    rw [← hkeys, ← hptrs, hcut, List.map_append] at hnode' hnew
    rw [htake, List.take_left' (by simpa [Row.children] using hleft)] at hnode'
    rw [hdrop, List.drop_left' (by simpa [Row.children] using hleft)] at hnew
    have hne : t.addr ≠ heap₁.next := Nat.ne_of_lt (Heap.lt_next_of_get v.unchanged)
    have hsame : ∀ a, a ≠ t.addr → a < heap₁.next →
        ((heap₁.alloc new).2.update t.addr fun _ => node').get a = heap₁.get a := by
      intro a hne' hlt
      rw [Heap.get_update_of_ne _ hne', Heap.get_alloc_of_ne _ _ (Nat.ne_of_lt hlt)]
    have hsiblings := v.keep hsame
    rw [hcut, siblings_append] at hsiblings
    rw [← hg, heq]
    refine ⟨(heap₁.alloc new).2.update t.addr fun _ => node', ?_, rfl, hsame,
      ⟨⟨node', ?_, hnode'⟩, hsiblings.1⟩, ⟨⟨new, ?_, hnew⟩, hsiblings.2⟩, trivial⟩
    · exact insert_internal_full v.live v.internal.isLeaf v.index v.child hrun v.unchanged (by omega) hsplit
    · rw [Heap.get_update_self, Heap.get_alloc_of_ne _ _ hne, v.unchanged]
      rfl
    · rw [Heap.get_update_of_ne _ (Ne.symm hne)]
      exact Heap.get_alloc_self heap₁ new

end Visited

end Branch

/-- `insert` refines insertion into the tree. -/
theorem insert_refines (key : Int32) {d : Nat} {t : tree_t d} {heap : Heap BPlusTreeNode} {after : Option Nat}
    {least fuel : Nat} (h : Represents heap t after) (hordered : Ordered t) (hfilled : Filled least t)
    (hnodup : (addrs t).Nodup) (hfuel : d < fuel) :
    ∃ heap', insert key fuel heap (root t) = some (heap', (insert_tree key t heap.next).1.pointers) ∧
      Refined key t heap heap' after := by
  induction d generalizing after least fuel with
  | zero =>
    obtain ⟨fuel, rfl⟩ : ∃ k, fuel = k + 1 := ⟨fuel - 1, by omega⟩
    exact insert_leaf_refines h hordered hfilled.2
  | succ d ih =>
    obtain ⟨fuel, rfl⟩ : ∃ k, fuel = k + 1 := ⟨fuel - 1, by omega⟩
    change branch_t (tree_t d) at t
    obtain ⟨-, hmax, hchildren⟩ := hfilled
    obtain ⟨z, hrow, hpre, hpost, htree⟩ := insert_tree_succ key t heap.next
    have hmem : z.focus ∈ t.row.children := by
      rw [hrow, children_join]
      exact List.mem_append_right _ (List.mem_cons_self ..)
    have hrep : Represents heap z.focus (start first_leaf (z.post.map Prod.snd) after) := by
      have hsiblings := h.2
      rw [hrow, children_join, siblings_append] at hsiblings
      exact hsiblings.2.1
    have hordered' : Ordered z.focus :=
      List.Pairwise.sublist (Row.sublist_fold_of_mem_children hmem (fun k => [k]) inorder) hordered
    have hnodup' : (addrs z.focus).Nodup :=
      (List.nodup_cons.mp hnodup).2.sublist (Row.sublist_fold_of_mem_children hmem (fun _ => []) addrs)
    obtain ⟨heap₁, hrun, hfocus⟩ := ih hrep hordered' (hchildren _ hmem) hnodup' (Nat.lt_of_succ_lt_succ hfuel)
    obtain ⟨node, v⟩ := h.visited hrow hpre hpost hnodup hfocus
    rw [← hfocus.next] at htree
    have hresult : ∃ heap', insert key (fuel + 1) heap t.addr =
        some (heap', (insert_tree key (d := d + 1) t heap.next).1.pointers) ∧
        Visited.Stores t heap₁ heap' after (insert_tree key (d := d + 1) t heap.next) := by
      cases hchild : (insert_tree key z.focus heap.next).1 with
      | kept c =>
        rw [hchild] at hrun
        exact ⟨heap₁, v.kept hmax hchild hrun htree.symm⟩
      | split left k right =>
        rw [hchild] at hrun
        exact v.split hmax hchild hrun htree.symm
    obtain ⟨heap', hrun', hstores⟩ := hresult
    exact ⟨heap', hrun', hstores.next, v.frame_of_same hstores.same, hstores.trees⟩

end csystems.bplus_tree
