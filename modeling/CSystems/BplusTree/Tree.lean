import CSystems.Lib.Row
import CSystems.Lib.SortedList
import CSystems.BplusTree.Operations

open clib.row clib.sorted_list

namespace csystems.bplus_tree

/-- Where a full node is cut. -/
def MID : Nat := (MAX + 1) / 2

structure leaf_t where
  addr : Nat
  keys : List Int32

structure branch_t (τ : Type) where
  addr : Nat
  row : Row Int32 τ

/-- The trees whose leaves are all at depth `d`. -/
abbrev tree_t : Nat → Type
  | 0 => leaf_t
  | d + 1 => branch_t (tree_t d)

/-- A tree after an insertion: it may have split. -/
inductive grown_t (τ : Type) where
  | kept (t : τ)
  | split (left : τ) (upKey : Int32) (right : τ)

/-- The address of the topmost node. -/
def root : {d : Nat} → tree_t d → Nat
  | 0, t => leaf_t.addr t
  | _ + 1, t => branch_t.addr t

/-- The address of the leftmost leaf. -/
def first_leaf : {d : Nat} → tree_t d → Nat
  | 0, t => leaf_t.addr t
  | _ + 1, t => first_leaf (branch_t.row t).head

/-- The leaves from left to right. -/
def leaves : {d : Nat} → tree_t d → List leaf_t
  | 0, t => [t]
  | _ + 1, t => (branch_t.row t).fold (fun _ => []) leaves

/-- The keys of all nodes, separators between the children they separate. -/
def inorder : {d : Nat} → tree_t d → List Int32
  | 0, t => leaf_t.keys t
  | _ + 1, t => (branch_t.row t).fold (fun k => [k]) inorder

/-- The addresses of all nodes. -/
def addrs : {d : Nat} → tree_t d → List Nat
  | 0, t => [leaf_t.addr t]
  | _ + 1, t => branch_t.addr t :: (branch_t.row t).fold (fun _ => []) addrs

/-- The keys in the leaves. -/
def contents {d : Nat} (t : tree_t d) : List Int32 := (leaves t).flatMap leaf_t.keys

/-- A leaf with one key too many is cut in two; `next` is the next fresh
address. -/
def grow_leaf (t : leaf_t) (next : Nat) : grown_t leaf_t × Nat :=
  match t.keys.drop MID with
  | [] => (.kept t, next)
  | k :: keys =>
    if MAX < t.keys.length then
      (.split { addr := t.addr, keys := t.keys.take MID } k { addr := next, keys := k :: keys }, next + 1)
    else (.kept t, next)

/-- A branch with one key too many is cut in two, and the key in the middle
leaves it. -/
def grow_branch {τ : Type} (t : branch_t τ) (next : Nat) : grown_t (branch_t τ) × Nat :=
  match t.row.entries.drop MID with
  | [] => (.kept t, next)
  | (k, c) :: entries =>
    if MAX < t.row.entries.length then
      (.split { addr := t.addr, row := { head := t.row.head, entries := t.row.entries.take MID } } k
        { addr := next, row := { head := c, entries := entries } }, next + 1)
    else (.kept t, next)

/-- The row with what has become of the child in focus. -/
def plug {τ : Type} (z : Zipper Int32 τ) : grown_t τ → Row Int32 τ
  | .kept t => join z.pre t z.post
  | .split left upKey right => join (z.pre ++ [(left, upKey)]) right z.post

/-- Insertion as a function on trees. -/
def insert_tree (key : Int32) : {d : Nat} → tree_t d → Nat → grown_t (tree_t d) × Nat
  | 0, t, next => grow_leaf { addr := leaf_t.addr t, keys := (leaf_t.keys t).orderedInsert (· ≤ ·) key } next
  | _ + 1, t, next =>
    let z := locate (fun k => decide (k < key)) (branch_t.row t).head (branch_t.row t).entries
    let child := insert_tree key z.focus next
    grow_branch { addr := branch_t.addr t, row := plug z child.1 } child.2

/-- Every node has at most `MAX` keys, a leaf at least `least`; below the root
that is two. -/
def Filled (least : Nat) : {d : Nat} → tree_t d → Prop
  | 0, t => least ≤ (leaf_t.keys t).length ∧ (leaf_t.keys t).length ≤ MAX
  | _ + 1, t =>
    1 ≤ (branch_t.row t).keys.length ∧ (branch_t.row t).keys.length ≤ MAX ∧
      ∀ c ∈ (branch_t.row t).children, Filled 2 c

/-- The keys of every node are in order, as are the keys on both sides of a
separator. -/
def Ordered {d : Nat} (t : tree_t d) : Prop := (inorder t).Pairwise (· ≤ ·)

namespace grown_t

variable {τ α : Type}

/-- What a tree that may have split lists. -/
def list (s : Int32 → List α) (f : τ → List α) : grown_t τ → List α
  | kept t => f t
  | split left upKey right => f left ++ s upKey ++ f right

/-- The tree, or its left half. -/
def left : grown_t τ → τ
  | kept t => t
  | split left _ _ => left

end grown_t

section Grow

variable {τ α : Type}

theorem fold_plug (z : Zipper Int32 τ) (g : grown_t τ) (s : Int32 → List α) (f : τ → List α) :
    (plug z g).fold s f =
      (z.pre.flatMap fun e => f e.1 ++ s e.2) ++ g.list s f ++ z.post.flatMap fun e => s e.1 ++ f e.2 := by
  cases g with
  | kept t => rw [plug, fold_join, grown_t.list]
  | split left upKey right =>
    rw [plug, fold_join, grown_t.list]
    simp

/-- A leaf is cut only when it is too full. -/
theorem grow_leaf_cases (t : leaf_t) (next : Nat) :
    (t.keys.length ≤ MAX ∧ grow_leaf t next = (.kept t, next)) ∨
    ∃ k keys, MAX < t.keys.length ∧ t.keys = t.keys.take MID ++ k :: keys ∧
      grow_leaf t next =
        (.split { addr := t.addr, keys := t.keys.take MID } k { addr := next, keys := k :: keys }, next + 1) := by
  unfold grow_leaf
  split
  · next hdrop =>
    refine Or.inl ⟨?_, rfl⟩
    have hle := List.drop_eq_nil_iff.mp hdrop
    exact Nat.le_trans hle (by decide)
  · next k keys hdrop =>
    split
    · next hfull => exact Or.inr ⟨k, keys, hfull, by rw [← hdrop, List.take_append_drop], rfl⟩
    · next hroom => exact Or.inl ⟨Nat.le_of_not_lt hroom, rfl⟩

/-- A branch is cut only when it is too full. -/
theorem grow_branch_cases (t : branch_t τ) (next : Nat) :
    (t.row.entries.length ≤ MAX ∧ grow_branch t next = (.kept t, next)) ∨
    ∃ k c entries, MAX < t.row.entries.length ∧ t.row.entries = t.row.entries.take MID ++ (k, c) :: entries ∧
      grow_branch t next =
        (.split { addr := t.addr, row := { head := t.row.head, entries := t.row.entries.take MID } } k
          { addr := next, row := { head := c, entries := entries } }, next + 1) := by
  unfold grow_branch
  split
  · next hdrop =>
    refine Or.inl ⟨?_, rfl⟩
    have hle := List.drop_eq_nil_iff.mp hdrop
    exact Nat.le_trans hle (by decide)
  · next k c entries hdrop =>
    split
    · next hfull => exact Or.inr ⟨k, c, entries, hfull, by rw [← hdrop, List.take_append_drop], rfl⟩
    · next hroom => exact Or.inl ⟨Nat.le_of_not_lt hroom, rfl⟩

/-- Cutting a branch moves no key and no child. -/
theorem list_grow_branch (t : branch_t τ) (next : Nat) (s : Int32 → List α) (f : τ → List α) :
    (grow_branch t next).1.list s (fun b => b.row.fold s f) = t.row.fold s f := by
  rcases grow_branch_cases t next with ⟨-, heq⟩ | ⟨k, c, entries, -, hentries, heq⟩
  · rw [heq, grown_t.list]
  · rw [heq, Row.fold_of_entries hentries, grown_t.list]

end Grow

end csystems.bplus_tree
