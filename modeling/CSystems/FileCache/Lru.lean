import CSystems.Lib.CString
import CSystems.Lib.Path
import CSystems.Lib.Recency
import CSystems.Lib.Run

open clib.heap clib.string clib.run

namespace csystems.file_cache

def CACHE_SIZE : Nat := 5
def KEY_SIZE : Nat := 32
def DATA_SIZE : Nat := 256

/-- A node. Its character arrays are given by the strings in them. -/
structure cache_node_t where
  key : List UInt8
  data : List UInt8
  prev : Option Nat
  next : Option Nat
  deriving DecidableEq, Repr

namespace cache_node_t

def set_prev (p : Option Nat) (n : cache_node_t) : cache_node_t := { n with prev := p }
def set_next (p : Option Nat) (n : cache_node_t) : cache_node_t := { n with next := p }
def set_data (data : List UInt8) (n : cache_node_t) : cache_node_t := { n with data := data }

/-- What the node holds, without its links. -/
def contents (n : cache_node_t) : List UInt8 × List UInt8 := (n.key, n.data)

end cache_node_t

/-- The cache and the heap its nodes live in. The field `next` of a node links both
the recency list and the chain of its bucket. -/
structure lru_cache_t where
  heap : Heap cache_node_t
  head : Option Nat
  tail : Option Nat
  nodes : List (Option Nat)
  count : Int
  capacity : Int

def hash (key : List UInt8) : Nat :=
  ((c_str key).foldl (fun (hash_value : UInt32) c => hash_value * 31 + char_to_unsigned c) 0).toNat % CACHE_SIZE

def create_lru_cache : lru_cache_t where
  heap := Heap.empty
  head := none
  tail := none
  nodes := List.replicate CACHE_SIZE none
  count := 0
  capacity := CACHE_SIZE

def move_to_front (cache : lru_cache_t) (node : Nat) : Option lru_cache_t :=
  if cache.head = some node then some cache
  else do
    let n ← cache.heap.get node
    let heap ← cache.heap.modify_if n.prev (.set_next n.next)
    let n ← heap.get node
    let heap ← heap.modify_if n.next (.set_prev n.prev)
    let n ← heap.get node
    let tail := if cache.tail = some node then n.prev else cache.tail
    let heap ← heap.modify node (.set_prev none)
    let heap ← heap.modify node (.set_next cache.head)
    let heap ← heap.modify_if cache.head (.set_prev (some node))
    some { cache with heap := heap, head := some node, tail := if tail = none then some node else tail }

def add_to_front (cache : lru_cache_t) (node : Nat) : Option lru_cache_t := do
  let heap ← cache.heap.modify node (.set_prev none)
  let heap ← heap.modify node (.set_next cache.head)
  let heap ← heap.modify_if cache.head (.set_prev (some node))
  some { cache with
    heap := heap
    head := some node
    tail := if cache.tail = none then some node else cache.tail }

/-- The node taken off the end, if there is one. -/
def remove_lru (cache : lru_cache_t) : Option (Option Nat × lru_cache_t) :=
  match cache.tail with
  | none => some (none, cache)
  | some lru => do
    let n ← cache.heap.get lru
    let heap ← cache.heap.modify_if n.prev (.set_next none)
    let head := if n.prev = none then none else cache.head
    let n ← heap.get lru
    some (some lru, { cache with heap := heap, head := head, tail := n.prev })

/-- Every walk along the links visits an address at most once. -/
def lru_cache_t.fuel (cache : lru_cache_t) : Nat := cache.heap.next + 1

/-- The loop along the chain of the key's bucket. -/
def search (cache : lru_cache_t) (key : List UInt8) : Option (Option Nat) := do
  let current ← cache.nodes[hash key]?
  find_cell (cache.heap.field cache_node_t.next) (cache.heap.field fun n => decide (strcmp n.key key = 0)) cache.fuel
    current

def cache_get (cache : lru_cache_t) (key : List UInt8) : Option (lru_cache_t × Option (List UInt8)) := do
  match ← search cache key with
  | none => some (cache, none)
  | some current =>
    let cache ← move_to_front cache current
    let data ← cache.heap.field cache_node_t.data current
    some (cache, some data)

/-- The string in a character array of `size` bytes after `strncpy` of `size - 1`
characters and the final NUL. -/
def copied (size : Nat) (src : List UInt8) : List UInt8 := (c_str src).take (size - 1)

/-- The part of `cache_put` that drops the least recently used node. -/
def evict (cache : lru_cache_t) : Option lru_cache_t := do
  match ← remove_lru cache with
  | (none, cache) => some cache
  | (some lru, cache) =>
    let n ← cache.heap.get lru
    let first ← cache.nodes[hash n.key]?
    let nodes := if first = some lru then cache.nodes.set (hash n.key) n.next else cache.nodes
    let heap ← cache.heap.free lru
    some { cache with heap := heap, nodes := nodes, count := cache.count - 1 }

/-- The part of `cache_put` that makes room for a new node. -/
def make_room (cache : lru_cache_t) : Option lru_cache_t :=
  if cache.count ≥ cache.capacity then evict cache else some cache

def cache_put (cache : lru_cache_t) (key data : List UInt8) : Option lru_cache_t := do
  let (cache, existing) ← cache_get cache key
  match existing with
  | some _ =>
    match ← search cache key with
    | none => some cache
    | some current =>
      let heap ← cache.heap.modify current (.set_data (copied DATA_SIZE data))
      some { cache with heap := heap }
  | none =>
    let (new_node, heap) := cache.heap.alloc
      { key := copied KEY_SIZE key, data := copied DATA_SIZE data, prev := none, next := none }
    let cache := { cache with heap := heap }
    let cache ← make_room cache
    let cache ← add_to_front cache new_node
    let first ← cache.nodes[hash key]?
    let heap ← cache.heap.modify new_node (.set_next first)
    some { cache with
      heap := heap
      nodes := cache.nodes.set (hash key) (some new_node)
      count := cache.count + 1 }

/-- A call of the interface. -/
inductive call_t where
  | get (key : List UInt8)
  | put (key data : List UInt8)
  deriving DecidableEq, Repr

def call_t.key : call_t → List UInt8
  | .get key => key
  | .put key _ => key

def call_t.is_put : call_t → Bool
  | .get _ => false
  | .put _ _ => true

/-- A call and what it returns; `cache_put` returns nothing. -/
def call (cache : lru_cache_t) : call_t → Option (lru_cache_t × Option (List UInt8))
  | .get key => cache_get cache key
  | .put key data => (cache_put cache key data).map fun cache => (cache, none)

/-- A sequence of calls and what they return; `none` is undefined behaviour or a
loop that does not end. -/
def run (cache : lru_cache_t) (calls : List call_t) : Option (lru_cache_t × List (Option (List UInt8))) :=
  exec call cache calls

end csystems.file_cache
