import CSystems.Lib.LinkedList

open clib.heap

namespace csystems.skip_list

def MAX_LEVEL : Nat := 6

structure skiplevelNode where
  data : Int32
  forward : List (Option Nat)
  deriving DecidableEq, Repr

/-- `node->forward[i] = p`. -/
def skiplevelNode.set_forward (i : Nat) (p : Option Nat) (node : skiplevelNode) : skiplevelNode :=
  { node with forward := node.forward.set i p }

/-- A skip list and the heap its nodes live in. -/
structure skiplevel where
  heap : Heap skiplevelNode
  level : Nat
  header : Nat

/-- The node `createNode` returns. -/
def createNode (level : Nat) (data : Int32) : skiplevelNode :=
  { data := data, forward := List.replicate (level + 1) none }

def createSkipList : skiplevel :=
  let (header, heap) := Heap.empty.alloc (createNode MAX_LEVEL (-1))
  { heap := heap, level := 0, header := header }

private def count_level (heads : Nat → Bool) : Nat → Nat → Nat
  | 0, level => level
  | room + 1, level => if heads level then count_level heads room (level + 1) else level

/-- `randomLevel`, where `heads i` says whether the `i`-th random number is
below `P`. -/
def randomLevel (heads : Nat → Bool) : Nat := count_level heads MAX_LEVEL 0

/-- `a->forward[i]`; `none` when `a` is dangling or its array too short. -/
def forward (heap : Heap skiplevelNode) (i a : Nat) : Option (Option Nat) := do
  let node ← heap.get a
  node.forward[i]?

/-- `a->forward[i] = p`. -/
def store_forward (heap : Heap skiplevelNode) (i a : Nat) (p : Option Nat) : Option (Heap skiplevelNode) := do
  let _ ← forward heap i a
  heap.modify a (.set_forward i p)

/-- Every walk along a level is at most as long as there are addresses. -/
def skiplevel.fuel (list : skiplevel) : Nat := list.heap.next + 1

/-- The loop `while (current->forward[i] && current->forward[i]->data < data)`. -/
def advance (heap : Heap skiplevelNode) (i : Nat) (data : Int32) : Nat → Nat → Option Nat
  | 0, _ => none
  | fuel + 1, current => do
    match ← forward heap i current with
    | none => some current
    | some a => if (← heap.field skiplevelNode.data a) < data then advance heap i data fuel a else some current

/-- The loop over the levels `count - 1, ..., 0`: where it ends, and `update`. -/
def descend (heap : Heap skiplevelNode) (data : Int32) (fuel : Nat) : Nat → Nat → Option (Nat × List Nat)
  | 0, current => some (current, [])
  | i + 1, current => do
    let current ← advance heap i data fuel current
    let (last, update) ← descend heap data fuel i current
    some (last, update ++ [current])

/-- `p && p->data == data`. -/
def holds (heap : Heap skiplevelNode) (data : Int32) : Option Nat → Option Bool
  | none => some false
  | some a => do
    let d ← heap.field skiplevelNode.data a
    some (decide (d = data))

/-- The loop that links `newNode` in at the levels `0, ..., count - 1`. -/
def splice (newNode : Nat) (update : List Nat) (heap : Heap skiplevelNode) : Nat → Option (Heap skiplevelNode)
  | 0 => some heap
  | i + 1 => do
    let heap ← splice newNode update heap i
    let u ← update[i]?
    let p ← forward heap i u
    let heap ← store_forward heap i newNode p
    store_forward heap i u (some newNode)

/-- `insertElement` when `randomLevel` answers `newLevel`. -/
def insertElement (list : skiplevel) (data : Int32) (newLevel : Nat) : Option skiplevel := do
  let (current, update) ← descend list.heap data list.fuel (list.level + 1) list.header
  let next ← forward list.heap 0 current
  if ← holds list.heap data next then some list
  else
    let update := update ++ List.replicate (newLevel - list.level) list.header
    let level := if newLevel > list.level then newLevel else list.level
    let (newNode, heap) := list.heap.alloc (createNode newLevel data)
    let heap ← splice newNode update heap (newLevel + 1)
    some { list with heap := heap, level := level }

def searchElement (list : skiplevel) (data : Int32) : Option Int32 := do
  let (current, _) ← descend list.heap data list.fuel (list.level + 1) list.header
  let next ← forward list.heap 0 current
  if ← holds list.heap data next then some 1 else some 0

/-- The loop that unlinks `current` at the levels `i, i + 1, ...`, `count` of
them at most. -/
def unlink (current : Nat) (update : List Nat) : Nat → Nat → Heap skiplevelNode → Option (Heap skiplevelNode)
  | 0, _, heap => some heap
  | count + 1, i, heap => do
    let u ← update[i]?
    if (← forward heap i u) ≠ some current then some heap
    else
      let p ← forward heap i current
      let heap ← store_forward heap i u p
      unlink current update count (i + 1) heap

/-- The loop `while (list->level > 0 && list->header->forward[list->level] == NULL)`. -/
def shrink (heap : Heap skiplevelNode) (header : Nat) : Nat → Option Nat
  | 0 => some 0
  | level + 1 => do
    match ← forward heap (level + 1) header with
    | none => shrink heap header level
    | some _ => some (level + 1)

def deleteElement (list : skiplevel) (data : Int32) : Option skiplevel := do
  let (current, update) ← descend list.heap data list.fuel (list.level + 1) list.header
  match ← forward list.heap 0 current with
  | none => some list
  | some current =>
    if (← list.heap.field skiplevelNode.data current) = data then
      let heap ← unlink current update (list.level + 1) 0 list.heap
      let heap ← heap.free current
      let level ← shrink heap list.header list.level
      some { list with heap := heap, level := level }
    else some list

/-- The walk of `displaySkipList` along one level. -/
def walk (heap : Heap skiplevelNode) (i : Nat) : Nat → Option Nat → Option (List Nat)
  | 0, _ => none
  | _ + 1, none => some []
  | fuel + 1, some a => do
    let rest ← walk heap i fuel (← forward heap i a)
    some (a :: rest)

/-- The nodes of level `i` in the order of its forward chain. -/
def level_nodes (list : skiplevel) (i : Nat) : Option (List Nat) := do
  walk list.heap i list.fuel (← forward list.heap i list.header)

inductive call_t where
  | insert (data : Int32) (heads : Nat → Bool)
  | delete (data : Int32)

def call (list : skiplevel) : call_t → Option skiplevel
  | .insert data heads => insertElement list data (randomLevel heads)
  | .delete data => deleteElement list data

def run (calls : List call_t) : Option skiplevel := calls.foldlM call createSkipList

theorem randomLevel_le (heads : Nat → Bool) : randomLevel heads ≤ MAX_LEVEL := by
  have hcount (room level : Nat) : count_level heads room level ≤ level + room := by
    induction room generalizing level with
    | zero => exact Nat.le_refl _
    | succ room ih =>
      rw [count_level]
      split
      · have hle := ih (level + 1)
        omega
      · omega
  have hle := hcount MAX_LEVEL 0
  rw [Nat.zero_add] at hle
  exact hle

end csystems.skip_list
