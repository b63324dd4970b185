import CSystems.Lib.CArray
import CSystems.Lib.Format
import CSystems.Lib.Heap

open clib.array clib.format clib.heap

namespace csystems.bplus_tree

/-- Max keys per node. -/
def MAX : Nat := 3

structure BPlusTreeNode where
  keys : Slots Int32
  count : Nat
  child : Slots (Option Nat)
  next : Option Nat
  isLeaf : Bool
  deriving DecidableEq, Repr

/-- The node `createNode` returns; `malloc` leaves the keys uninitialised. -/
def createNode (isLeaf : Bool) : BPlusTreeNode :=
  { keys := uninit MAX, count := 0, child := List.replicate (MAX + 1) (some none), next := none, isLeaf := isLeaf }

/-- The loop of `insertLeaf`, which ends with `i + 1 = i'` for the result `i'`. -/
def make_room (key : Int32) : Nat → Slots Int32 → Option (Nat × Slots Int32)
  | 0, keys => some (0, keys)
  | i + 1, keys => do
    let k ← read keys i
    if k > key then
      let keys ← write keys (i + 1) k
      make_room key i keys
    else some (i + 1, keys)

/-- The leaf after `insertLeaf`. -/
def insertLeaf (leaf : BPlusTreeNode) (key : Int32) : Option BPlusTreeNode := do
  let (i, keys) ← make_room key leaf.count leaf.keys
  let keys ← write keys i key
  some { leaf with keys := keys, count := leaf.count + 1 }

/-- The loop that sorts `tempKeys`, whose entries below `i` are sorted. -/
def sift : Nat → Slots Int32 → Option (Slots Int32)
  | 0, tempKeys => some tempKeys
  | i + 1, tempKeys => do
    let temp ← read tempKeys (i + 1)
    let below ← read tempKeys i
    if temp < below then
      let tempKeys ← write tempKeys (i + 1) below
      let tempKeys ← write tempKeys i temp
      sift i tempKeys
    else some tempKeys

/-- `splitLeaf`, up to the links: the leaf, the new leaf and the key to insert
above them. -/
def splitLeaf (leaf : BPlusTreeNode) (key : Int32) : Option (BPlusTreeNode × BPlusTreeNode × Int32) := do
  let tempKeys ← for_up (copy leaf.keys 0) MAX (uninit (MAX + 1))
  let tempKeys ← write tempKeys MAX key
  let tempKeys ← sift MAX tempKeys
  let mid := (MAX + 1) / 2
  let newLeaf := { createNode true with count := MAX + 1 - mid }
  let keys ← for_up (copy tempKeys 0) mid leaf.keys
  let newKeys ← for_up (copy tempKeys mid) newLeaf.count newLeaf.keys
  let upKey ← read newKeys 0
  some ({ leaf with count := mid, keys := keys }, { newLeaf with keys := newKeys, next := leaf.next }, upKey)

/-- The loop `while (i < root->count && key > root->keys[i]) i++;` with `n` keys
left. -/
def child_index (keys : Slots Int32) (key : Int32) (i : Nat) : Nat → Option Nat
  | 0 => some i
  | n + 1 => do
    let k ← read keys i
    if key > k then child_index keys key (i + 1) n else some i

/-- An internal node with room for the new child. -/
def insertChild (root : BPlusTreeNode) (i : Nat) (tempKey : Int32) (tempChild : Nat) : Option BPlusTreeNode := do
  let (keys, child) ← for_down (both (shift 0) (shift 1)) i (root.count - i) (root.keys, root.child)
  let keys ← write keys i tempKey
  let child ← write child (i + 1) (some tempChild)
  some { root with keys := keys, child := child, count := root.count + 1 }

/-- An internal node that is full: the node, the new node and the key to insert
above them. -/
def splitInternal (root : BPlusTreeNode) (i : Nat) (tempKey : Int32) (tempChild : Nat) :
    Option (BPlusTreeNode × BPlusTreeNode × Int32) := do
  let tempKeys ← for_up (copy root.keys 0) MAX (uninit (MAX + 1))
  let tempChildren ← for_up (copy root.child 0) (MAX + 1) (uninit (MAX + 2))
  let (tempKeys, tempChildren) ← for_down (both (shift 0) (shift 1)) i (MAX - i) (tempKeys, tempChildren)
  let tempKeys ← write tempKeys i tempKey
  let tempChildren ← write tempChildren (i + 1) (some tempChild)
  let mid := (MAX + 1) / 2
  let (keys, child) ← for_up (both (copy tempKeys 0) (copy tempChildren 0)) mid (root.keys, root.child)
  let last ← read tempChildren mid
  let child ← write child mid last
  let upKey ← read tempKeys mid
  let newInternal := { createNode false with count := MAX - mid }
  let (newKeys, newChildren) ← for_up (both (copy tempKeys (mid + 1)) (copy tempChildren (mid + 1))) newInternal.count
    (newInternal.keys, newInternal.child)
  let last ← read tempChildren (MAX + 1)
  let newChildren ← write newChildren newInternal.count last
  some ({ root with count := mid, keys := keys, child := child },
    { newInternal with keys := newKeys, child := newChildren }, upKey)

/-- `insert`. The result is `NULL`, or the values of `*upKey` and `*newChild`. -/
def insert (key : Int32) :
    Nat → Heap BPlusTreeNode → Nat → Option (Heap BPlusTreeNode × Option (Int32 × Nat))
  | 0, _, _ => none
  | fuel + 1, heap, root => do
    let node ← heap.get root
    if node.isLeaf then
      if node.count < MAX then
        let leaf ← insertLeaf node key
        let heap ← heap.modify root fun _ => leaf
        some (heap, none)
      else
        let (leaf, newLeaf, upKey) ← splitLeaf node key
        let (a, heap) := heap.alloc newLeaf
        let heap ← heap.modify root fun _ => { leaf with next := some a }
        some (heap, some (upKey, a))
    else
      let i ← child_index node.keys key 0 node.count
      let child ← read node.child i
      let child ← child
      let (heap, result) ← insert key fuel heap child
      match result with
      | none => some (heap, none)
      | some (tempKey, tempChild) =>
        let node ← heap.get root
        if node.count < MAX then
          let node ← insertChild node i tempKey tempChild
          let heap ← heap.modify root fun _ => node
          some (heap, none)
        else
          let (node, newInternal, upKey) ← splitInternal node i tempKey tempChild
          let (a, heap) := heap.alloc newInternal
          let heap ← heap.modify root fun _ => node
          some (heap, some (upKey, a))

/-- One round of the loop of `main` that inserts the keys. -/
def insert_key (tree : Heap BPlusTreeNode × Nat) (key : Int32) : Option (Heap BPlusTreeNode × Nat) := do
  let (heap, root) := tree
  let (heap, result) ← insert key (heap.next + 1) heap root
  match result with
  | none => some (heap, root)
  | some (upKey, newChild) =>
    let newRoot := createNode false
    let keys ← write newRoot.keys 0 upKey
    let child ← write newRoot.child 0 (some root)
    let child ← write child 1 (some newChild)
    let (a, heap) := heap.alloc { newRoot with keys := keys, child := child, count := 1 }
    some (heap, a)

/-- The tree `main` builds. -/
def build (keys : List Int32) : Option (Heap BPlusTreeNode × Nat) :=
  let (root, heap) := Heap.empty.alloc (createNode true)
  keys.foldlM insert_key (heap, root)

/-- The leaves met by following `next`, with their keys. -/
def leaf_chain (heap : Heap BPlusTreeNode) : Nat → Option Nat → Option (List (Nat × List Int32))
  | 0, _ => none
  | _ + 1, none => some []
  | fuel + 1, some a => do
    let leaf ← heap.get a
    let keys ← (List.range leaf.count).mapM (read leaf.keys)
    let rest ← leaf_chain heap fuel leaf.next
    some ((a, keys) :: rest)

/-- The first loop of `printRange`, down to a leaf. -/
def descend (heap : Heap BPlusTreeNode) (start : Int32) : Nat → Nat → Option Nat
  | 0, _ => none
  | fuel + 1, root => do
    let node ← heap.get root
    if node.isLeaf then some root
    else
      let i ← child_index node.keys start 0 node.count
      let child ← read node.child i
      let child ← child
      descend heap start fuel child

/-- `printf("%d ", key)` if the key is in the range. -/
def print_key (start finish key : Int32) : List Char :=
  if key ≥ start ∧ key ≤ finish then decimal key.toInt ++ [' '] else []

/-- The loop of `printRange` over the keys of a leaf, from key `i` on with `n` keys
left: what is printed, and whether the function returns. -/
def print_keys (keys : Slots Int32) (start finish : Int32) (i : Nat) : Nat → Option (List Char × Bool)
  | 0 => some ([], false)
  | n + 1 => do
    let k ← read keys i
    if k > finish then some (print_key start finish k, true)
    else
      let (text, returned) ← print_keys keys start finish (i + 1) n
      some (print_key start finish k ++ text, returned)

/-- The loop of `printRange` over the leaves. -/
def print_leaves (heap : Heap BPlusTreeNode) (start finish : Int32) : Nat → Option Nat → Option (List Char)
  | 0, _ => none
  | _ + 1, none => some ['\n']
  | fuel + 1, some root => do
    let leaf ← heap.get root
    let (text, returned) ← print_keys leaf.keys start finish 0 leaf.count
    if returned then some text
    else
      let rest ← print_leaves heap start finish fuel leaf.next
      some (text ++ rest)

def printRange (tree : Heap BPlusTreeNode × Nat) (start finish : Int32) : Option (List Char) := do
  let (heap, root) := tree
  let leaf ← descend heap start (heap.next + 1) root
  print_leaves heap start finish (heap.next + 1) (some leaf)

end csystems.bplus_tree
