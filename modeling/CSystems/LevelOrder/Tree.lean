import Mathlib.Algebra.Order.Ring.Int
import CSystems.Lib.BinaryTree
import CSystems.Lib.Heap

open clib.binary_tree clib.heap

namespace csystems.trees

structure Node where
  data : Int32
  left : Option Nat
  right : Option Nat

namespace Node

def set_left (p : Option Nat) (n : Node) : Node := { n with left := p }
def set_right (p : Option Nat) (n : Node) : Node := { n with right := p }

end Node

/-- What stops the program: an `enqueue` at this index, which is not below the size of
the queue, or a pointer that leads to no node. -/
inductive fault_t
  | overflow (index : Nat)
  | dangling
  deriving DecidableEq, Repr

/-- The size of both queues. -/
def QUEUE_SIZE : Nat := 100

/-- A queue. The elements of `arr` written so far are `arr`, and their number is `rear`. -/
structure Queue where
  arr : List Nat
  front : Nat
  size : Nat
  order : front ≤ arr.length
  room : arr.length ≤ size

def Queue.rear (q : Queue) : Nat := q.arr.length

def createQueue (size : Nat) : Queue where
  arr := []
  front := 0
  size := size
  order := Nat.zero_le _
  room := Nat.zero_le _

def isEmpty (q : Queue) : Bool := q.front = q.rear

def enqueue (q : Queue) (node : Nat) : Except fault_t Queue :=
  if h : q.rear < q.size then
    .ok { q with
      arr := q.arr ++ [node]
      order := by rw [List.length_append]; exact Nat.le_add_right_of_le q.order
      room := by rw [List.length_append]; exact h }
  else .error (.overflow q.rear)

theorem front_lt {q : Queue} (h : isEmpty q = false) : q.front < q.arr.length :=
  Nat.lt_of_le_of_ne q.order (of_decide_eq_false h)

def dequeue (q : Queue) (h : isEmpty q = false) : Nat × Queue :=
  (q.arr.get ⟨q.front, front_lt h⟩, { q with front := q.front + 1, order := front_lt h })

/-- The places that the loops have still to go. -/
def Queue.left (q : Queue) : Nat := q.size - q.front

theorem left_dequeue {q : Queue} (h : isEmpty q = false) : (dequeue q h).2.left < q.left := by
  have hlt := front_lt h
  have hroom := q.room
  change q.size - (q.front + 1) < q.size - q.front
  omega

theorem left_enqueue {q q' : Queue} {node : Nat} (h : enqueue q node = .ok q') : q'.left = q.left := by
  unfold enqueue at h
  split at h
  · cases h
    rfl
  · cases h

def get (heap : Heap Node) (node : Nat) : Except fault_t Node :=
  match heap.get node with
  | none => .error .dangling
  | some n => .ok n

def createNode (heap : Heap Node) (value : Int32) : Nat × Heap Node :=
  heap.alloc { data := value, left := none, right := none }

/-- The loop of `insertLevelOrder`. -/
def insert_loop (heap : Heap Node) (value : Int32) (q : Queue) : Except fault_t (Heap Node) :=
  if h : isEmpty q then .ok heap
  else
    let temp := dequeue q (Bool.not_eq_true _ ▸ h)
    match get heap temp.1 with
    | .error e => .error e
    | .ok n =>
      match n.left with
      | none =>
        let (node, heap) := createNode heap value
        .ok (heap.update temp.1 (.set_left (some node)))
      | some left =>
        match _hl : enqueue temp.2 left with
        | .error e => .error e
        | .ok q =>
          match n.right with
          | none =>
            let (node, heap) := createNode heap value
            .ok (heap.update temp.1 (.set_right (some node)))
          | some right =>
            match _hr : enqueue q right with
            | .error e => .error e
            | .ok q => insert_loop heap value q
termination_by q.left
decreasing_by
  rw [left_enqueue _hr, left_enqueue _hl]
  exact left_dequeue _

/-- The tree: its nodes and the pointer to its root. -/
structure tree_t where
  heap : Heap Node
  root : Option Nat

def empty : tree_t := ⟨Heap.empty, none⟩

def insertLevelOrder (t : tree_t) (value : Int32) : Except fault_t tree_t :=
  match t.root with
  | none =>
    let (node, heap) := createNode t.heap value
    .ok ⟨heap, some node⟩
  | some root => do
    let q ← enqueue (createQueue QUEUE_SIZE) root
    let heap ← insert_loop t.heap value q
    return ⟨heap, some root⟩

/-- `if (child) enqueue(q, child);` -/
def enqueue_if (q : Queue) (child : Option Nat) : Except fault_t Queue :=
  match child with
  | none => .ok q
  | some child => enqueue q child

theorem left_enqueue_if {q q' : Queue} {child : Option Nat} (h : enqueue_if q child = .ok q') : q'.left = q.left := by
  cases child with
  | none =>
    cases h
    rfl
  | some child => exact left_enqueue h

/-- The loop of `printLevelOrder`: the numbers it prints. -/
def print_loop (heap : Heap Node) (q : Queue) : Except fault_t (List Int32) :=
  if h : isEmpty q then .ok []
  else
    let temp := dequeue q (Bool.not_eq_true _ ▸ h)
    match get heap temp.1 with
    | .error e => .error e
    | .ok n =>
      match _hl : enqueue_if temp.2 n.left with
      | .error e => .error e
      | .ok q =>
        match _hr : enqueue_if q n.right with
        | .error e => .error e
        | .ok q => do
          let printed ← print_loop heap q
          return n.data :: printed
termination_by q.left
decreasing_by
  rw [left_enqueue_if _hr, left_enqueue_if _hl]
  exact left_dequeue _

def printLevelOrder (t : tree_t) : Except fault_t (List Int32) :=
  match t.root with
  | none => .ok []
  | some root => do
    let q ← enqueue (createQueue QUEUE_SIZE) root
    print_loop t.heap q

/-- Inserting numbers one by one. -/
def insert_all (t : tree_t) (values : List Int32) : Except fault_t tree_t := values.foldlM insertLevelOrder t

/-- `main` for the `n` and the values that it reads: what it prints after inserting them. -/
def main (n : Int32) (value : Nat → Int32) : Except fault_t (List Int32) := do
  let t ← insert_all empty ((List.range n.toNatClampNeg).map value)
  printLevelOrder t

/-- The tree that lies in the heap below a pointer. -/
inductive Spells (heap : Heap Node) : Option Nat → BinaryTree Int32 → Prop where
  | nil : Spells heap none .nil
  | node {a : Nat} {n : Node} {left right : BinaryTree Int32} (hget : heap.get a = some n)
      (hleft : Spells heap n.left left) (hright : Spells heap n.right right) :
      Spells heap (some a) (.node n.data left right)

end csystems.trees
