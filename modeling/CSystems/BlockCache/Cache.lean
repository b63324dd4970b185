import Mathlib.Algebra.Order.Ring.Int
import CSystems.Lib.CString
import CSystems.Lib.LinkedList

open clib.string clib.heap

namespace csystems.block_cache

/-- `size_t` is 64 bits wide. -/
def SIZE_MOD : Nat := 2 ^ 64

structure cache_entry_t where
  key : List UInt8
  data : List UInt8
  size : Nat
  last_accessed : Int64
  next : Option Nat
  lru_prev : Option Nat
  lru_next : Option Nat
  deriving DecidableEq, Repr

namespace cache_entry_t

def set_next (p : Option Nat) (e : cache_entry_t) : cache_entry_t := { e with next := p }
def set_lru_prev (p : Option Nat) (e : cache_entry_t) : cache_entry_t := { e with lru_prev := p }
def set_lru_next (p : Option Nat) (e : cache_entry_t) : cache_entry_t := { e with lru_next := p }
def set_last_accessed (now : Int64) (e : cache_entry_t) : cache_entry_t := { e with last_accessed := now }

end cache_entry_t

/-- The cache and the heap its entries live in. Calls are made one after
another, so the mutex carries no state. -/
structure cache_t where
  heap : Heap cache_entry_t
  hash_table : List (Option Nat)
  lru_head : Option Nat
  lru_tail : Option Nat
  bucket_count : Nat
  current_size : Nat
  max_size : Nat

def hash_key (key : List UInt8) (bucket_count : Nat) : Nat :=
  ((c_str key).foldl (fun (hash : UInt32) c => ((hash <<< 5) + hash) + char_to_unsigned c) 5381).toNat % bucket_count

def create_cache (max_size bucket_count : Nat) : cache_t where
  heap := Heap.empty
  hash_table := List.replicate bucket_count none
  lru_head := none
  lru_tail := none
  bucket_count := bucket_count
  current_size := 0
  max_size := max_size

def move_to_front (cache : cache_t) (entry : Nat) : Option cache_t :=
  if some entry = cache.lru_head then some cache
  else do
    let e ← cache.heap.get entry
    let heap ← cache.heap.modify_if e.lru_prev (.set_lru_next e.lru_next)
    let e ← heap.get entry
    let heap ← heap.modify_if e.lru_next (.set_lru_prev e.lru_prev)
    let e ← heap.get entry
    let lru_tail := if some entry = cache.lru_tail then e.lru_prev else cache.lru_tail
    let heap ← heap.modify entry (.set_lru_prev none)
    let heap ← heap.modify entry (.set_lru_next cache.lru_head)
    let heap ← heap.modify_if cache.lru_head (.set_lru_prev (some entry))
    some { cache with
      heap := heap
      lru_head := some entry
      lru_tail := if lru_tail = none then some entry else lru_tail }

/-- The places a `cache_entry_t **` can point to. -/
inductive link_t where
  | bucket (index : Nat)
  | next (entry : Nat)
  deriving DecidableEq, Repr

/-- `*current`. -/
def load_link (cache : cache_t) : link_t → Option (Option Nat)
  | .bucket index => cache.hash_table[index]?
  | .next entry => cache.heap.field cache_entry_t.next entry

/-- `*current = value`. -/
def store_link (cache : cache_t) (value : Option Nat) : link_t → Option cache_t
  | .bucket index =>
    if index < cache.hash_table.length then some { cache with hash_table := cache.hash_table.set index value }
    else none
  | .next entry => do
    let heap ← cache.heap.modify entry (.set_next value)
    some { cache with heap := heap }

/-- The loop of `evict_lru` that looks for the link leading to the victim. -/
def find_link (cache : cache_t) (victim : Nat) : Nat → link_t → Option link_t
  | 0, _ => none
  | fuel + 1, current => do
    match ← load_link cache current with
    | none => some current
    | some entry => if entry = victim then some current else find_link cache victim fuel (.next entry)

/-- Every loop over the entries runs at most once per address handed out. -/
def cache_t.fuel (cache : cache_t) : Nat := cache.heap.next + 1

/-- The part of `evict_lru` that takes the victim out of its bucket chain. -/
def unlink_victim (cache : cache_t) (victim : Nat) (v : cache_entry_t) : Option cache_t := do
  let current ← find_link cache victim cache.fuel (.bucket (hash_key v.key cache.bucket_count))
  match ← load_link cache current with
  | none => some cache
  | some _ => store_link cache v.next current

def evict_lru (cache : cache_t) : Option cache_t :=
  match cache.lru_tail with
  | none => some cache
  | some victim => do
    let v ← cache.heap.get victim
    let heap ← cache.heap.modify_if v.lru_prev (.set_lru_next none)
    let cache := { cache with
      heap := heap
      lru_tail := v.lru_prev
      lru_head := if v.lru_prev = none then none else cache.lru_head }
    let v ← cache.heap.get victim
    let cache ← unlink_victim cache victim v
    let heap ← cache.heap.free victim
    some { cache with
      heap := heap
      current_size := (cache.current_size + SIZE_MOD - v.size) % SIZE_MOD }

/-- `strcmp(entry->key, key) == 0`. -/
def key_matches (cache : cache_t) (key : List UInt8) (entry : Nat) : Option Bool :=
  cache.heap.field (fun e => decide (strcmp e.key key = 0)) entry

/-- `cache_get` at time `now`: the data behind the returned pointer, if any. -/
def cache_get (now : Int64) (cache : cache_t) (key : List UInt8) : Option (cache_t × Option (List UInt8)) := do
  let head ← cache.hash_table[hash_key key cache.bucket_count]?
  match ← find_cell (cache.heap.field cache_entry_t.next) (key_matches cache key) cache.fuel head with
  | none => some (cache, none)
  | some entry =>
    let heap ← cache.heap.modify entry (.set_last_accessed now)
    let cache ← move_to_front { cache with heap := heap } entry
    let data ← cache.heap.field cache_entry_t.data entry
    some (cache, some data)

/-- The eviction loop of `cache_put`; `none` when it does not end in time. -/
def evict_until_fits (size : Nat) : Nat → cache_t → Option cache_t
  | 0, _ => none
  | fuel + 1, cache =>
    if (cache.current_size + size) % SIZE_MOD > cache.max_size then do
      let cache ← evict_lru cache
      evict_until_fits size fuel cache
    else some cache

/-- `cache_put` at time `now` of the first `size` bytes of `data`. -/
def cache_put (now : Int64) (cache : cache_t) (key data : List UInt8) (size : Nat) : Option cache_t := do
  let cache ← evict_until_fits size cache.fuel cache
  let bucket := hash_key key cache.bucket_count
  let head ← cache.hash_table[bucket]?
  let (entry, heap) := cache.heap.alloc
    { key := c_str key, data := data.take size, size := size, last_accessed := now, next := head
      lru_prev := none, lru_next := cache.lru_head }
  let heap ← heap.modify_if cache.lru_head (.set_lru_prev (some entry))
  some { cache with
    heap := heap
    hash_table := cache.hash_table.set bucket (some entry)
    lru_head := some entry
    lru_tail := if cache.lru_tail = none then some entry else cache.lru_tail
    current_size := (cache.current_size + size) % SIZE_MOD }

end csystems.block_cache
