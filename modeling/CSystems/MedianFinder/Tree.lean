import CSystems.AvlTree.Tree

open csystems.avl_tree (and_then)

namespace csystems.median_finder

/-- A subtree, as the program reaches it through a pointer. No node is reachable
in two ways, so a store through a pointer is a rebuilt subtree. -/
inductive AVLNode where
  | null
  | mk (val height count size : Int32) (left right : AVLNode)
  deriving DecidableEq, Repr

def height : AVLNode → Int32
  | .null => 0
  | .mk _ height _ _ _ _ => height

def size : AVLNode → Int32
  | .null => 0
  | .mk _ _ _ size _ _ => size

def max (a b : Int32) : Int32 := if a > b then a else b

def update : AVLNode → AVLNode
  | .null => .null
  | .mk val _ count _ left right =>
    .mk val (1 + max (height left) (height right)) count (count + size left + size right) left right

/-- `none` is an access through a null pointer, here and below. -/
def rightRotate : AVLNode → Option AVLNode
  | .mk y hy cy sy (.mk x hx cx sx l T2) r => some (update (.mk x hx cx sx l (update (.mk y hy cy sy T2 r))))
  | _ => none

def leftRotate : AVLNode → Option AVLNode
  | .mk x hx cx sx l (.mk y hy cy sy T2 r) => some (update (.mk y hy cy sy (update (.mk x hx cx sx l T2)) r))
  | _ => none

def getBalance : AVLNode → Int32
  | .null => 0
  | .mk _ _ _ _ left right => height left - height right

/-- `n->val`. -/
def value : AVLNode → Option Int32
  | .null => none
  | .mk val _ _ _ _ _ => some val

/-- The end of `insert`, after `update(root)`. -/
def rebalance (val : Int32) : AVLNode → Option AVLNode
  | .null => none
  | .mk v h c s left right => do
    let balance := getBalance (.mk v h c s left right)
    if ← and_then (balance > 1) (do some (decide (val < (← value left)))) then rightRotate (.mk v h c s left right)
    else if ← and_then (balance < -1) (do some (decide (val > (← value right)))) then
      leftRotate (.mk v h c s left right)
    else if ← and_then (balance > 1) (do some (decide (val > (← value left)))) then
      let left ← leftRotate left
      rightRotate (.mk v h c s left right)
    else if ← and_then (balance < -1) (do some (decide (val < (← value right)))) then
      let right ← rightRotate right
      leftRotate (.mk v h c s left right)
    else some (.mk v h c s left right)

def insert : AVLNode → Int32 → Option AVLNode
  | .null, val => some (.mk val 1 1 1 .null .null)
  | .mk v h c s left right, val =>
    if val < v then do
      let left ← insert left val
      rebalance val (update (.mk v h c s left right))
    else if val > v then do
      let right ← insert right val
      rebalance val (update (.mk v h c s left right))
    else rebalance val (update (.mk v h (c + 1) s left right))

def kth : AVLNode → Int32 → Int32
  | .null, _ => -1
  | .mk val _ count _ left right, k =>
    if k ≤ size left then kth left k
    else if k ≤ size left + count then val
    else kth right (k - size left - count)

structure MedianFinder where
  root : AVLNode
  total : Int32

def medianFinderCreate : MedianFinder := { root := .null, total := 0 }

def medianFinderAddNum (obj : MedianFinder) (num : Int32) : Option MedianFinder := do
  let root ← insert obj.root num
  some { root := root, total := obj.total + 1 }

/-- The numbers that a subtree counts, in order. -/
def elements : AVLNode → List Int32
  | .null => []
  | .mk val _ count _ left right => elements left ++ List.replicate count.toInt.toNat val ++ elements right

/-- The tree without its counts and sizes. -/
def shape : AVLNode → avl_tree.node
  | .null => .null
  | .mk val height _ _ left right => .mk val height.toInt (shape left) (shape right)

/-- Every node counts its value at least once, and every stored size is the
number of numbers in the subtree. -/
def SizesStored : AVLNode → Prop
  | .null => True
  | .mk val height count size left right =>
    0 < count.toInt ∧ size.toInt = (elements (.mk val height count size left right)).length ∧
      SizesStored left ∧ SizesStored right

/-- The tree is a balanced search tree of these numbers with right heights and
sizes, and `kth` finds each of them at its place in increasing order. -/
structure AnswersOrder (nums : List Int32) (obj : MedianFinder) : Prop where
  search_tree : avl_tree.IsSearchTree (shape obj.root)
  balanced : avl_tree.Balanced (shape obj.root)
  heights : avl_tree.HeightsStored (shape obj.root)
  sizes : SizesStored obj.root
  elements_perm : (elements obj.root).Perm nums
  total_eq : obj.total.toInt = nums.length
  kth_eq : ∀ k, 1 ≤ k → k ≤ obj.total → (nums.mergeSort (· ≤ ·))[k.toInt.toNat - 1]? = some (kth obj.root k)

end csystems.median_finder
