import CSystems.BplusTree.Nodes

open clib.array clib.heap clib.row

namespace csystems.bplus_tree

section Siblings

variable {τ : Type} {P Q : τ → Option Nat → Prop} {first : τ → Nat} {xs ys : List τ} {after : Option Nat}

/-- The address at which the trees start, or what follows them. -/
def start (first : τ → Nat) (ts : List τ) (after : Option Nat) : Option Nat :=
  match ts with
  | [] => after
  | t :: _ => some (first t)

/-- Each tree is followed by the next one, and the last one by `after`. -/
def Siblings (P : τ → Option Nat → Prop) (first : τ → Nat) : List τ → Option Nat → Prop
  | [], _ => True
  | t :: ts, after => P t (start first ts after) ∧ Siblings P first ts after

theorem start_append : start first (xs ++ ys) after = start first xs (start first ys after) := by
  cases xs <;> rfl

theorem siblings_append :
    Siblings P first (xs ++ ys) after ↔ Siblings P first xs (start first ys after) ∧ Siblings P first ys after := by
  induction xs with
  | nil => simp [Siblings]
  | cons t xs ih => rw [List.cons_append, Siblings, Siblings, ih, start_append, and_assoc]

theorem Siblings.imp (h : Siblings P first xs after) (himp : ∀ t ∈ xs, ∀ after, P t after → Q t after) :
    Siblings Q first xs after := by
  induction xs with
  | nil => trivial
  | cons t xs ih =>
    exact ⟨himp t (List.mem_cons_self ..) _ h.1, ih h.2 fun u hu => himp u (List.mem_cons_of_mem _ hu)⟩

theorem Siblings.exists_of_mem (h : Siblings P first xs after) {t : τ} (ht : t ∈ xs) : ∃ after, P t after := by
  induction xs with
  | nil => cases ht
  | cons u xs ih =>
    rcases List.mem_cons.mp ht with rfl | ht
    · exact ⟨_, h.1⟩
    · exact ih h.2 ht

end Siblings

/-- The heap holds the tree: leaves at the bottom, internal nodes with keys and
pointers to their children above, and each leaf linked to the one on its right,
the last one to `after`. -/
def Represents (heap : Heap BPlusTreeNode) : {d : Nat} → tree_t d → Option Nat → Prop
  | 0, t, after => ∃ node, heap.get (leaf_t.addr t) = some node ∧ IsLeaf node (leaf_t.keys t) after
  | _ + 1, t, after =>
    (∃ node, heap.get (branch_t.addr t) = some node ∧
      IsInternal node (branch_t.row t).keys ((branch_t.row t).children.map root)) ∧
    Siblings (Represents heap) first_leaf (branch_t.row t).children after

namespace Represents

variable {heap heap' : Heap BPlusTreeNode} {d : Nat} {t : tree_t d} {after : Option Nat}

/-- Only the nodes of the tree matter. -/
theorem congr (h : Represents heap t after) (hsame : ∀ a ∈ addrs t, heap'.get a = heap.get a) :
    Represents heap' t after := by
  induction d generalizing after with
  | zero =>
    obtain ⟨node, hget, hnode⟩ := h
    exact ⟨node, by rw [hsame _ (List.mem_cons_self ..), hget], hnode⟩
  | succ d ih =>
    change branch_t (tree_t d) at t
    obtain ⟨⟨node, hget, hnode⟩, hchildren⟩ := h
    refine ⟨⟨node, by rw [hsame _ (List.mem_cons_self ..), hget], hnode⟩, hchildren.imp ?_⟩
    intro c hc after hrep
    refine ih hrep fun a ha => hsame a ?_
    exact List.mem_cons_of_mem _ ((Row.sublist_fold_of_mem_children hc _ addrs).subset ha)

theorem siblings_congr {ts : List (tree_t d)} (h : Siblings (Represents heap) first_leaf ts after)
    (hsame : ∀ t ∈ ts, ∀ a ∈ addrs t, heap'.get a = heap.get a) :
    Siblings (Represents heap') first_leaf ts after :=
  h.imp fun t ht _ hrep => hrep.congr (hsame t ht)

theorem lt_next (h : Represents heap t after) : ∀ a ∈ addrs t, a < heap.next := by
  induction d generalizing after with
  | zero =>
    obtain ⟨node, hget, -⟩ := h
    intro a ha
    rw [List.mem_singleton.mp ha]
    exact Heap.lt_next_of_get hget
  | succ d ih =>
    change branch_t (tree_t d) at t
    obtain ⟨⟨node, hget, -⟩, hchildren⟩ := h
    intro a ha
    rcases List.mem_cons.mp ha with rfl | ha
    · exact Heap.lt_next_of_get hget
    · rw [Row.fold_nil] at ha
      obtain ⟨c, hc, hac⟩ := List.mem_flatMap.mp ha
      obtain ⟨_, hrep⟩ := hchildren.exists_of_mem hc
      exact ih hrep a hac

end Represents

section Insert

variable {heap heap₁ : Heap BPlusTreeNode} {key k : Int32} {fuel a i c p : Nat} {node node' new : BPlusTreeNode}

theorem insert_leaf_room (hget : heap.get a = some node) (hleaf : node.isLeaf = true) (hroom : node.count < MAX)
    (hrun : insertLeaf node key = some node') :
    insert key (fuel + 1) heap a = some (heap.update a fun _ => node', none) := by
  rw [insert, hget]
  simp only [Option.bind_eq_bind, Option.bind_some, hleaf, if_true, if_pos hroom, hrun, Heap.modify_of_get hget]

theorem insert_leaf_full (hget : heap.get a = some node) (hleaf : node.isLeaf = true) (hfull : ¬ node.count < MAX)
    (hrun : splitLeaf node key = some (node', new, k)) :
    insert key (fuel + 1) heap a =
      some ((heap.alloc new).2.update a fun _ => { node' with next := some heap.next }, some (k, heap.next)) := by
  have hne : a ≠ heap.next := Nat.ne_of_lt (Heap.lt_next_of_get hget)
  have hget' : (heap.alloc new).2.get a = some node := by rw [Heap.get_alloc_of_ne _ _ hne, hget]
  rw [insert, hget]
  simp only [Option.bind_eq_bind, Option.bind_some, hleaf, if_true, if_neg hfull, hrun, Heap.modify_of_get hget',
    Heap.fst_alloc]

theorem insert_internal_kept (hget : heap.get a = some node) (hleaf : node.isLeaf = false)
    (hindex : child_index node.keys key 0 node.count = some i) (hchild : read node.child i = some (some c))
    (hrun : insert key fuel heap c = some (heap₁, none)) :
    insert key (fuel + 1) heap a = some (heap₁, none) := by
  rw [insert, hget]
  simp [hleaf, hindex, hchild, hrun]

theorem insert_internal_room (hget : heap.get a = some node) (hleaf : node.isLeaf = false)
    (hindex : child_index node.keys key 0 node.count = some i) (hchild : read node.child i = some (some c))
    (hrun : insert key fuel heap c = some (heap₁, some (k, p))) (hget₁ : heap₁.get a = some node)
    (hroom : node.count < MAX) (hinsert : insertChild node i k p = some node') :
    insert key (fuel + 1) heap a = some (heap₁.update a fun _ => node', none) := by
  rw [insert, hget]
  simp [hleaf, hindex, hchild, hrun, hget₁, hroom, hinsert, Heap.modify_of_get hget₁]

theorem insert_internal_full {upKey : Int32} (hget : heap.get a = some node) (hleaf : node.isLeaf = false)
    (hindex : child_index node.keys key 0 node.count = some i) (hchild : read node.child i = some (some c))
    (hrun : insert key fuel heap c = some (heap₁, some (k, p))) (hget₁ : heap₁.get a = some node)
    (hfull : ¬ node.count < MAX) (hsplit : splitInternal node i k p = some (node', new, upKey)) :
    insert key (fuel + 1) heap a =
      some ((heap₁.alloc new).2.update a fun _ => node', some (upKey, heap₁.next)) := by
  have hne : a ≠ heap₁.next := Nat.ne_of_lt (Heap.lt_next_of_get hget₁)
  have hget' : (heap₁.alloc new).2.get a = some node := by rw [Heap.get_alloc_of_ne _ _ hne, hget₁]
  rw [insert, hget]
  simp only [Option.bind_eq_bind, Option.bind_some, hleaf, Bool.false_eq_true, if_false, hindex, hchild, hrun, hget₁,
    if_neg hfull, hsplit, Heap.modify_of_get hget', Heap.fst_alloc]

end Insert

end csystems.bplus_tree
