import CSystems.BlockCache.Cache
import CSystems.Lib.File
import CSystems.Lib.Format

open clib.string clib.heap clib.file clib.format

namespace csystems.block_cache

def BLOCK_SIZE : Nat := 4096
def BUFFER_POOL_SIZE : Nat := 64
def CACHE_BUCKETS : Nat := 128
def MAX_CACHE_SIZE : Nat := 1024 * 1024

structure buffer_t where
  data : List UInt8
  block_id : Int32
  dirty : Bool
  ref_count : Int32

/-- Buffers are named by their index in `buffers`. -/
structure buffer_pool_t where
  buffers : List buffer_t
  free_list : List Nat
  free_count : Nat
  pool_size : Nat

structure filesystem_t where
  disk : File
  buffer_pool : buffer_pool_t
  cache : cache_t

/-- One block of memory. -/
abbrev block_t := Vector UInt8 BLOCK_SIZE

/-- `aligned_alloc` leaves the buffers' memory as it is: `memory i` is what
buffer `i` starts with. -/
def create_buffer_pool (memory : Nat → block_t) (size : Nat) : buffer_pool_t where
  buffers := (List.range size).map fun i =>
    { data := (memory i).toList, block_id := -1, dirty := false, ref_count := 0 }
  free_list := List.range size
  free_count := size
  pool_size := size

/-- `get_buffer`: the index of the buffer handed out, or null. An access out of
bounds is `none`. -/
def get_buffer (pool : buffer_pool_t) : Option (buffer_pool_t × Option Nat) :=
  if pool.free_count = 0 then some (pool, none)
  else do
    let free_count := pool.free_count - 1
    let buffer_idx ← pool.free_list[free_count]?
    let buffer ← pool.buffers[buffer_idx]?
    let buffers := pool.buffers.set buffer_idx { buffer with ref_count := 1 }
    some ({ pool with free_count := free_count, buffers := buffers }, some buffer_idx)

def release_buffer (pool : buffer_pool_t) (buffer_idx : Nat) : Option buffer_pool_t := do
  let buffer ← pool.buffers[buffer_idx]?
  let ref_count := buffer.ref_count - 1
  if ref_count = 0 then
    if pool.free_count < pool.free_list.length then
      let buffer := { buffer with ref_count := ref_count, dirty := false, block_id := -1 }
      some { pool with
        buffers := pool.buffers.set buffer_idx buffer
        free_list := pool.free_list.set pool.free_count buffer_idx
        free_count := pool.free_count + 1 }
    else none
  else some { pool with buffers := pool.buffers.set buffer_idx { buffer with ref_count := ref_count } }

/-- Storing to a buffer. -/
def set_buffer (pool : buffer_pool_t) (buffer_idx : Nat) (f : buffer_t → buffer_t) : Option buffer_pool_t := do
  let buffer ← pool.buffers[buffer_idx]?
  some { pool with buffers := pool.buffers.set buffer_idx (f buffer) }

/-- `memcpy(dest, src, count)`; `none` when it leaves one of the two. -/
def memcpy (dest src : List UInt8) (count : Nat) : Option (List UInt8) :=
  if count ≤ dest.length ∧ count ≤ src.length then some (src.take count ++ dest.drop count) else none

def create_filesystem (memory : Nat → block_t) (image : List UInt8) : filesystem_t where
  disk := { bytes := image, pos := 0 }
  buffer_pool := create_buffer_pool memory BUFFER_POOL_SIZE
  cache := create_cache MAX_CACHE_SIZE CACHE_BUCKETS

/-- `snprintf(cache_key, sizeof(cache_key), "block_%d", block_id)`. -/
def cache_key (block_id : Int32) : List UInt8 :=
  snprintf 32 (['b', 'l', 'o', 'c', 'k', '_'] ++ decimal block_id.toInt)

/-- The disk offset `block_id * BLOCK_SIZE`, computed in `int`. -/
def block_offset (block_id : Int32) : Int := (block_id * 4096).toInt

/-- A call's status and what it leaves in the caller's buffer. -/
structure result_t where
  status : Int32
  buffer : List UInt8
  deriving DecidableEq

/-- `read_block` at time `now`. Either `cache_get` or `cache_put` asks for the
time, never both. -/
def read_block (now : Int64) (fs : filesystem_t) (block_id : Int32) (buffer : List UInt8) :
    Option (filesystem_t × result_t) := do
  let (cache, cached_data) ← cache_get now fs.cache (cache_key block_id)
  match cached_data with
  | some cached_data =>
    let buffer ← memcpy buffer cached_data BLOCK_SIZE
    some ({ fs with cache := cache }, { status := 0, buffer := buffer })
  | none =>
    let (pool, buf) ← get_buffer fs.buffer_pool
    match buf with
    | none => some ({ fs with cache := cache, buffer_pool := pool }, { status := -1, buffer := buffer })
    | some buf =>
      let (disk, bytes) := read (lseek fs.disk (block_offset block_id)) BLOCK_SIZE
      let pool ← set_buffer pool buf fun b => { b with data := bytes ++ b.data.drop bytes.length }
      if bytes.length ≠ BLOCK_SIZE then
        let pool ← release_buffer pool buf
        some ({ disk := disk, cache := cache, buffer_pool := pool }, { status := -1, buffer := buffer })
      else
        let pool ← set_buffer pool buf fun b => { b with block_id := block_id }
        let b ← pool.buffers[buf]?
        let buffer ← memcpy buffer b.data BLOCK_SIZE
        let cache ← cache_put now cache (cache_key block_id) b.data BLOCK_SIZE
        let pool ← release_buffer pool buf
        some ({ disk := disk, cache := cache, buffer_pool := pool }, { status := 0, buffer := buffer })

/-- `write_block` at time `now`. -/
def write_block (now : Int64) (fs : filesystem_t) (block_id : Int32) (buffer : List UInt8) :
    Option (filesystem_t × result_t) := do
  let (pool, buf) ← get_buffer fs.buffer_pool
  match buf with
  | none => some ({ fs with buffer_pool := pool }, { status := -1, buffer := buffer })
  | some buf =>
    let b ← pool.buffers[buf]?
    let data ← memcpy b.data buffer BLOCK_SIZE
    let pool ← set_buffer pool buf fun b => { b with data := data, block_id := block_id, dirty := true }
    let cache ← cache_put now fs.cache (cache_key block_id) buffer BLOCK_SIZE
    let disk := write (lseek fs.disk (block_offset block_id)) (buffer.take BLOCK_SIZE)
    let pool ← release_buffer pool buf
    some ({ disk := disk, cache := cache, buffer_pool := pool }, { status := 0, buffer := buffer })

/-- A call of the file system with the caller's buffer and the time it is made. -/
inductive call_t where
  | read (now : Int64) (block_id : Int32) (buffer : block_t)
  | write (now : Int64) (block_id : Int32) (buffer : block_t)

def call_t.block_id : call_t → Int32
  | .read _ block_id _ => block_id
  | .write _ block_id _ => block_id

def call (fs : filesystem_t) : call_t → Option (filesystem_t × result_t)
  | .read now block_id buffer => read_block now fs block_id buffer.toList
  | .write now block_id buffer => write_block now fs block_id buffer.toList

/-- A sequence of calls: after each one the file system and its result. -/
def run (fs : filesystem_t) : List call_t → Option (List (filesystem_t × result_t))
  | [] => some []
  | c :: calls => do
    let (fs, result) ← call fs c
    let rest ← run fs calls
    some ((fs, result) :: rest)

/-- `read_block` without a cache: the disk is always read. -/
def read_uncached (disk : File) (block_id : Int32) (buffer : List UInt8) : File × result_t :=
  let (disk, bytes) := read (lseek disk (block_offset block_id)) BLOCK_SIZE
  if bytes.length ≠ BLOCK_SIZE then (disk, { status := -1, buffer := buffer })
  else (disk, { status := 0, buffer := bytes ++ buffer.drop BLOCK_SIZE })

/-- `write_block` without a cache. -/
def write_uncached (disk : File) (block_id : Int32) (buffer : List UInt8) : File × result_t :=
  (write (lseek disk (block_offset block_id)) (buffer.take BLOCK_SIZE), { status := 0, buffer := buffer })

def call_uncached (disk : File) : call_t → File × result_t
  | .read _ block_id buffer => read_uncached disk block_id buffer.toList
  | .write _ block_id buffer => write_uncached disk block_id buffer.toList

def run_uncached (disk : File) : List call_t → List result_t
  | [] => []
  | c :: calls => (call_uncached disk c).2 :: run_uncached (call_uncached disk c).1 calls

end csystems.block_cache
