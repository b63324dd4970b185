import Mathlib.Data.List.Basic

namespace csystems.avl_tree

/-- A subtree, as the program reaches it through a pointer. No node is reachable
in two ways, so a store through a pointer is a rebuilt subtree. -/
inductive node where
  | null
  | mk (val : Int32) (height : Int) (leftChild rightChild : node)
  deriving DecidableEq, Repr

def getHeight : node → Int
  | .null => 0
  | .mk _ height _ _ => height

def getBalance : node → Int
  | .null => 0
  | .mk _ _ leftChild rightChild => getHeight leftChild - getHeight rightChild

def newNode (val : Int32) : node := .mk val 1 .null .null

/-- A node whose height is computed from its children. -/
def with_height (val : Int32) (leftChild rightChild : node) : node :=
  .mk val (max (getHeight leftChild) (getHeight rightChild) + 1) leftChild rightChild

/-- `none` is an access through a null pointer, here and below. -/
def rotateRight : node → Option node
  | .mk y _ (.mk x _ l T2) r => some (with_height x l (with_height y T2 r))
  | _ => none

def rotateLeft : node → Option node
  | .mk x _ l (.mk y _ T2 r) => some (with_height y (with_height x l T2) r)
  | _ => none

/-- `n->val`. -/
def value : node → Option Int32
  | .null => none
  | .mk val _ _ _ => some val

/-- `a && b`, where `b` is evaluated only if `a` holds. -/
def and_then (a : Prop) [Decidable a] (b : Option Bool) : Option Bool := if a then b else some false

/-- The end of `insert`: the height is updated and the tree rotated. -/
def rebalance_insert (val root : Int32) (leftChild rightChild : node) : Option node := do
  let t := with_height root leftChild rightChild
  let balance := getBalance t
  if ← and_then (balance > 1) (do some (decide (val < (← value leftChild)))) then rotateRight t
  else if ← and_then (balance < -1) (do some (decide (val > (← value rightChild)))) then rotateLeft t
  else if ← and_then (balance > 1) (do some (decide (val > (← value leftChild)))) then
    let leftChild ← rotateLeft leftChild
    rotateRight (.mk root (getHeight t) leftChild rightChild)
  else if ← and_then (balance < -1) (do some (decide (val < (← value rightChild)))) then
    let rightChild ← rotateRight rightChild
    rotateLeft (.mk root (getHeight t) leftChild rightChild)
  else some t

def insert : node → Int32 → Option node
  | .null, val => some (newNode val)
  | .mk root height leftChild rightChild, val =>
    if val < root then do
      let leftChild ← insert leftChild val
      rebalance_insert val root leftChild rightChild
    else if val > root then do
      let rightChild ← insert rightChild val
      rebalance_insert val root leftChild rightChild
    else some (.mk root height leftChild rightChild)

def findMin : node → node
  | .null => .null
  | .mk val height .null rightChild => .mk val height .null rightChild
  | .mk _ _ leftChild _ => findMin leftChild

/-- The end of `deleteNode`: the height is updated and the tree rotated. -/
def rebalance_delete (root : Int32) (leftChild rightChild : node) : Option node := do
  let t := with_height root leftChild rightChild
  let balance := getBalance t
  if balance > 1 ∧ getBalance leftChild ≥ 0 then rotateRight t
  else if balance > 1 ∧ getBalance leftChild < 0 then
    let leftChild ← rotateLeft leftChild
    rotateRight (.mk root (getHeight t) leftChild rightChild)
  else if balance < -1 ∧ getBalance rightChild ≤ 0 then rotateLeft t
  else if balance < -1 ∧ getBalance rightChild > 0 then
    let rightChild ← rotateRight rightChild
    rotateLeft (.mk root (getHeight t) leftChild rightChild)
  else some t

def deleteNode : node → Int32 → Option node
  | .null, _ => some .null
  | .mk root _ leftChild rightChild, val =>
    if val < root then do
      let leftChild ← deleteNode leftChild val
      rebalance_delete root leftChild rightChild
    else if val > root then do
      let rightChild ← deleteNode rightChild val
      rebalance_delete root leftChild rightChild
    else if leftChild = .null ∨ rightChild = .null then
      some (if leftChild ≠ .null then leftChild else rightChild)
    else do
      let temp ← value (findMin rightChild)
      let rightChild ← deleteNode rightChild temp
      rebalance_delete temp leftChild rightChild

inductive call_t where
  | insert (val : Int32)
  | deleteNode (val : Int32)
  deriving DecidableEq, Repr

def call (root : node) : call_t → Option node
  | .insert val => insert root val
  | .deleteNode val => deleteNode root val

def run (calls : List call_t) : Option node := calls.foldlM call .null

def in_order : node → List Int32
  | .null => []
  | .mk val _ leftChild rightChild => in_order leftChild ++ val :: in_order rightChild

/-- The real height; a leaf has height 1. -/
def real_height : node → Nat
  | .null => 0
  | .mk _ _ leftChild rightChild => max (real_height leftChild) (real_height rightChild) + 1

/-- Smaller values to the left of every node, greater values to its right. -/
def IsSearchTree : node → Prop
  | .null => True
  | .mk val _ leftChild rightChild =>
    (∀ x ∈ in_order leftChild, x < val) ∧ (∀ x ∈ in_order rightChild, val < x) ∧
      IsSearchTree leftChild ∧ IsSearchTree rightChild

/-- Every stored height is the real one. -/
def HeightsStored : node → Prop
  | .null => True
  | .mk val height leftChild rightChild =>
    height = real_height (.mk val height leftChild rightChild) ∧ HeightsStored leftChild ∧ HeightsStored rightChild

/-- The two subtrees of every node differ in height by at most one. -/
def Balanced : node → Prop
  | .null => True
  | .mk _ _ leftChild rightChild =>
    real_height leftChild ≤ real_height rightChild + 1 ∧ real_height rightChild ≤ real_height leftChild + 1 ∧
      Balanced leftChild ∧ Balanced rightChild

end csystems.avl_tree
