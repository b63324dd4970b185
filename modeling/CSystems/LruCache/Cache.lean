import Mathlib.Algebra.Order.Ring.Int
import CSystems.Lib.HashTable
import CSystems.Lib.Recency
import CSystems.Lib.Run

open clib.heap clib.run

namespace csystems.lru_cache

def HASH_SIZE : Nat := 10007

def INT_MAX : Nat := 2 ^ 31 - 1

structure Node where
  key : Int32
  value : Int32
  prev : Option Nat
  next : Option Nat
  deriving DecidableEq, Repr

structure Entry where
  key : Int32
  node : Option Nat
  next : Option Nat
  deriving DecidableEq, Repr

namespace Node

def set_prev (p : Option Nat) (n : Node) : Node := { n with prev := p }
def set_next (p : Option Nat) (n : Node) : Node := { n with next := p }
def set_value (value : Int32) (n : Node) : Node := { n with value := value }

/-- What the node holds, without its links. -/
def contents (n : Node) : Int32 × Int32 := (n.key, n.value)

end Node

namespace Entry

def set_node (p : Option Nat) (e : Entry) : Entry := { e with node := p }
def set_next (p : Option Nat) (e : Entry) : Entry := { e with next := p }

end Entry

/-- The cache object, with the heaps its nodes and its entries live in. -/
structure LRUCache where
  nodes : Heap Node
  entries : Heap Entry
  capacity : Int32
  size : Int32
  hashTable : List (Option Nat)
  head : Option Nat
  tail : Option Nat

/-- The remainder of a negative key is negative, and a large number as `unsigned`. -/
def hash (key : Int32) : UInt32 := (key % 10007).toUInt32

/-- The bucket of a key. -/
def bucket (key : Int32) : Nat := (hash key).toNat

def createNode (object : LRUCache) (key value : Int32) : Nat × LRUCache :=
  let (node, nodes) := object.nodes.alloc { key := key, value := value, prev := none, next := none }
  (node, { object with nodes := nodes })

def addToHead (object : LRUCache) (node : Nat) : Option LRUCache := do
  let nodes ← object.nodes.modify node (.set_next object.head)
  let nodes ← nodes.modify node (.set_prev none)
  let nodes ← nodes.modify_if object.head (.set_prev (some node))
  some { object with
    nodes := nodes
    head := some node
    tail := if object.tail = none then some node else object.tail }

def removeNode (object : LRUCache) (node : Nat) : Option LRUCache := do
  let n ← object.nodes.get node
  let nodes ← object.nodes.modify_if n.prev (.set_next n.next)
  let head := if n.prev = none then n.next else object.head
  let n ← nodes.get node
  let nodes ← nodes.modify_if n.next (.set_prev n.prev)
  let tail := if n.next = none then n.prev else object.tail
  some { object with nodes := nodes, head := head, tail := tail }

/-- The node taken off the end; removing from an empty list follows a null pointer. -/
def removeTail (object : LRUCache) : Option (Nat × LRUCache) := do
  let tail ← object.tail
  let object ← removeNode object tail
  some (tail, object)

def moveToHead (object : LRUCache) (node : Nat) : Option LRUCache := do
  let object ← removeNode object node
  addToHead object node

/-- Every walk along a chain visits an address at most once. -/
def LRUCache.fuel (object : LRUCache) : Nat := object.entries.next + 1

def hashGetEntry (object : LRUCache) (key : Int32) : Option (Option Nat) := do
  let entry ← object.hashTable[bucket key]?
  find_cell (object.entries.field Entry.next) (object.entries.field fun e => decide (e.key = key)) object.fuel entry

def hashGet (object : LRUCache) (key : Int32) : Option (Option Nat) := do
  match ← hashGetEntry object key with
  | none => some none
  | some entry => object.entries.field Entry.node entry

def hashPut (object : LRUCache) (key : Int32) (node : Nat) : Option LRUCache := do
  match ← hashGetEntry object key with
  | some entry =>
    let entries ← object.entries.modify entry (.set_node (some node))
    some { object with entries := entries }
  | none =>
    let head ← object.hashTable[bucket key]?
    let (newEntry, entries) := object.entries.alloc { key := key, node := some node, next := head }
    some { object with entries := entries, hashTable := object.hashTable.set (bucket key) (some newEntry) }

def hashRemove (object : LRUCache) (key : Int32) : Option LRUCache := do
  let head ← object.hashTable[bucket key]?
  match ← find_prev (object.entries.field Entry.next) (object.entries.field fun e => decide (e.key = key))
    object.fuel none head with
  | none => some object
  | some (prev, entry) =>
    let e ← object.entries.get entry
    let entries ← object.entries.modify_if prev (.set_next e.next)
    let hashTable := if prev = none then object.hashTable.set (bucket key) e.next else object.hashTable
    let entries ← entries.free entry
    some { object with entries := entries, hashTable := hashTable }

def lRUCacheCreate (capacity : Int32) : LRUCache where
  nodes := Heap.empty
  entries := Heap.empty
  capacity := capacity
  size := 0
  hashTable := List.replicate HASH_SIZE none
  head := none
  tail := none

def lRUCacheGet (obj : LRUCache) (key : Int32) : Option (LRUCache × Int32) := do
  match ← hashGet obj key with
  | none => some (obj, -1)
  | some node =>
    let obj ← moveToHead obj node
    let value ← obj.nodes.field Node.value node
    some (obj, value)

/-- `size++`; `none` is signed overflow. -/
def increment (size : Int32) : Option Int32 := if size.toInt = INT_MAX then none else some (size + 1)

/-- The part of `lRUCachePut` that drops the least recently used entry. -/
def evict (obj : LRUCache) : Option LRUCache := do
  let (tail, obj) ← removeTail obj
  let key ← obj.nodes.field Node.key tail
  let obj ← hashRemove obj key
  let nodes ← obj.nodes.free tail
  some { obj with nodes := nodes, size := obj.size - 1 }

def lRUCachePut (obj : LRUCache) (key value : Int32) : Option LRUCache := do
  match ← hashGet obj key with
  | some node =>
    let nodes ← obj.nodes.modify node (.set_value value)
    moveToHead { obj with nodes := nodes } node
  | none =>
    let (newNode, obj) := createNode obj key value
    let obj ← addToHead obj newNode
    let obj ← hashPut obj key newNode
    let size ← increment obj.size
    let obj := { obj with size := size }
    if obj.size > obj.capacity then evict obj else some obj

/-- A call of the interface. -/
inductive call_t where
  | get (key : Int32)
  | put (key value : Int32)
  deriving DecidableEq, Repr

/-- A call and what it returns; `lRUCachePut` returns nothing. -/
def call (obj : LRUCache) : call_t → Option (LRUCache × Option Int32)
  | .get key => (lRUCacheGet obj key).map fun (obj, value) => (obj, some value)
  | .put key value => (lRUCachePut obj key value).map fun obj => (obj, none)

/-- A sequence of calls and what they return; `none` is undefined behaviour. -/
def run (obj : LRUCache) (calls : List call_t) : Option (LRUCache × List (Option Int32)) := exec call obj calls

end csystems.lru_cache
