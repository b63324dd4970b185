import CSystems.FileCache.BufferPool
import CSystems.FileCache.Lru

open clib.heap clib.string clib.run

namespace csystems.file_cache.cached_files

/-- `sizeof(new_cached->filename)`. -/
def FILENAME_SIZE : Nat := 256

/-- An entry. Its file name is given by the string in the array. -/
structure cached_file_t where
  filename : List UInt8
  buffer : Nat
  file_size : Nat
  last_accessed : Int64
  next : Option Nat

namespace cached_file_t

def set_next (p : Option Nat) (f : cached_file_t) : cached_file_t := { f with next := p }
def set_last_accessed (now : Int64) (f : cached_file_t) : cached_file_t := { f with last_accessed := now }

end cached_file_t

/-- The cache, with the heap its entries live in. -/
structure file_cache_t where
  buffer_pool : buffer_pool_t
  files : List (Option Nat)
  cached_files_count : Int32
  heap : Heap cached_file_t

/-- The cache when there is memory for it. `cached_files_count` is what `malloc`
finds in memory. -/
def create_file_cache (memory : Nat → Vector UInt8 BUFFER_SIZE) (cached_files_count : Int32) : file_cache_t where
  buffer_pool := create_buffer_pool memory POOL_SIZE
  files := List.replicate CACHE_SIZE none
  cached_files_count := cached_files_count
  heap := Heap.empty

/-- Every walk along a chain visits an address at most once. -/
def file_cache_t.fuel (cache : file_cache_t) : Nat := cache.heap.next + 1

/-- How `open` and `read` end. The buffer has room for a terminator behind the
bytes read. -/
inductive read_t where
  | open_failed
  | read_failed
  | bytes (data : List UInt8) (length_lt : data.length < BUFFER_SIZE)

/-- What `read_file_cached` finds outside: the time, the file, and whether there
is memory for an entry. -/
structure outcome_t where
  now : Int64
  read : read_t
  malloc : Bool

/-- The comparison of the walks along a chain. -/
def file_cache_t.named (cache : file_cache_t) (filename : List UInt8) : Nat → Option Bool :=
  cache.heap.field fun f => decide (strcmp f.filename filename = 0)

/-- The end of a read that fails after a buffer was acquired. -/
def give_back (cache : file_cache_t) (buffer : Nat) : Option (file_cache_t × Option Nat) := do
  let pool ← release_buffer cache.buffer_pool buffer
  some ({ cache with buffer_pool := pool }, none)

/-- The part of `read_file_cached` after a miss in the chain that starts at
`head`. -/
def load_file (out : outcome_t) (cache : file_cache_t) (filename : List UInt8) (head : Option Nat) :
    Option (file_cache_t × Option Nat) := do
  let (pool, acquired) ← acquire_buffer cache.buffer_pool
  let cache := { cache with buffer_pool := pool }
  match acquired with
  | none => some (cache, none)
  | some buffer =>
    match out.read with
    | .open_failed => give_back cache buffer
    | .read_failed => give_back cache buffer
    | .bytes data _ =>
      let pool ← fill_buffer cache.buffer_pool buffer data
      let cache := { cache with buffer_pool := pool }
      if out.malloc then
        let (new_cached, heap) := cache.heap.alloc
          { filename := copied FILENAME_SIZE filename
            buffer := buffer
            file_size := data.length
            last_accessed := out.now
            next := head }
        some ({ cache with
          heap := heap
          files := cache.files.set (hash filename) (some new_cached)
          cached_files_count := cache.cached_files_count + 1 }, some buffer)
      else give_back cache buffer

/-- `read_file_cached`, with the buffer whose data it returns. -/
def read_file_cached (out : outcome_t) (cache : file_cache_t) (filename : List UInt8) :
    Option (file_cache_t × Option Nat) := do
  let head ← cache.files[hash filename]?
  match ← find_cell (cache.heap.field cached_file_t.next) (cache.named filename) cache.fuel head with
  | some cached =>
    let heap ← cache.heap.modify cached (.set_last_accessed out.now)
    let buffer ← heap.field cached_file_t.buffer cached
    some ({ cache with heap := heap }, some buffer)
  | none => load_file out cache filename head

/-- The removal of entry `current` of bucket `i`, which follows `prev` there. -/
def remove_entry (cache : file_cache_t) (i : Nat) (prev : Option Nat) (current : Nat) : Option file_cache_t := do
  let f ← cache.heap.get current
  let heap ← cache.heap.modify_if prev (.set_next f.next)
  let files := if prev = none then cache.files.set i f.next else cache.files
  let f ← heap.get current
  let pool ← release_buffer cache.buffer_pool f.buffer
  let heap ← heap.free current
  some { buffer_pool := pool
         files := files
         cached_files_count := cache.cached_files_count - 1
         heap := heap }

def remove_cache_file (cache : file_cache_t) (filename : List UInt8) : Option file_cache_t := do
  let head ← cache.files[hash filename]?
  match ← find_prev (cache.heap.field cached_file_t.next) (cache.named filename) cache.fuel none head with
  | none => some cache
  | some (prev, current) => remove_entry cache (hash filename) prev current

/-- `lru`, `lru_prev` and `lru_index`, and the same for `mru`. -/
structure best_t where
  entry : Nat
  prev : Option Nat
  index : Nat
  deriving DecidableEq

/-- The inner loop of the two removals by time, which differ in the comparison. -/
def scan_chain (heap : Heap cached_file_t) (better : Int64 → Int64 → Bool) (i : Nat) :
    Nat → Option Nat → Option Nat → Option best_t → Option (Option best_t)
  | 0, _, _, _ => none
  | _ + 1, none, _, best => some best
  | fuel + 1, some curr, prev, best => do
    let f ← heap.get curr
    match best with
    | none => scan_chain heap better i fuel f.next (some curr) (some ⟨curr, prev, i⟩)
    | some b =>
      let g ← heap.get b.entry
      scan_chain heap better i fuel f.next (some curr)
        (some (if better f.last_accessed g.last_accessed then ⟨curr, prev, i⟩ else b))

/-- The outer loop, over the buckets. -/
def scan_files (cache : file_cache_t) (better : Int64 → Int64 → Bool) :
    List Nat → Option best_t → Option (Option best_t)
  | [], best => some best
  | i :: rest, best => do
    let head ← cache.files[i]?
    let best ← scan_chain cache.heap better i cache.fuel head none best
    scan_files cache better rest best

def remove_by_time (better : Int64 → Int64 → Bool) (cache : file_cache_t) : Option file_cache_t := do
  match ← scan_files cache better (List.range CACHE_SIZE) none with
  | none => some cache
  | some best => remove_entry cache best.index best.prev best.entry

def remove_lru_cached_file (cache : file_cache_t) : Option file_cache_t :=
  remove_by_time (fun curr lru => decide (curr < lru)) cache

def remove_mru_cached_file (cache : file_cache_t) : Option file_cache_t :=
  remove_by_time (fun curr mru => decide (curr > mru)) cache

inductive call_t where
  | read_file_cached (filename : List UInt8) (out : outcome_t)
  | remove_cache_file (filename : List UInt8)
  | remove_lru_cached_file
  | remove_mru_cached_file

/-- A call, with the buffer that a read returns. -/
def call (cache : file_cache_t) : call_t → Option (file_cache_t × Option Nat)
  | .read_file_cached filename out => read_file_cached out cache filename
  | .remove_cache_file filename => (remove_cache_file cache filename).map (·, none)
  | .remove_lru_cached_file => (remove_lru_cached_file cache).map (·, none)
  | .remove_mru_cached_file => (remove_mru_cached_file cache).map (·, none)

end csystems.file_cache.cached_files
