import Mathlib.Algebra.Order.Ring.Int
import CSystems.Lib.LinkedList

open clib.heap

namespace csystems.memory_pool

/-- `size_t` and pointers are 64 bits wide. -/
def SIZE_MOD : Nat := 2 ^ 64

/-- `sizeof(Block)`: two 8-byte fields and an `int`, padded. -/
def BLOCK_SIZE : Nat := 24

structure Block where
  size : Nat
  free : Bool
  next : Option Nat
  deriving DecidableEq, Repr

/-- The headers in memory, by their offset from `MemoryPool`; `none` where there
is no intact header. -/
abbrev memory_t := Nat → Option Block

/-- Storing a header. What is left of other headers that overlap it is lost. -/
def write (memory : memory_t) (offset : Nat) (block : Block) : memory_t := fun a =>
  if a = offset then some block
  else if a < offset + BLOCK_SIZE ∧ offset < a + BLOCK_SIZE then none
  else memory a

structure pool_t where
  memory : memory_t
  PoolSize : Nat
  FreeList : Option Nat

/-- `PoolInit` when `malloc` succeeds. -/
def PoolInit (size : Nat) : pool_t where
  memory := write (fun _ => none) 0
    { size := (size + SIZE_MOD - BLOCK_SIZE) % SIZE_MOD, free := true, next := none }
  PoolSize := size
  FreeList := some 0

def SplitBlock (memory : memory_t) (block : Nat) (size : Nat) : Option memory_t := do
  let NewBlock := (block + BLOCK_SIZE + size) % SIZE_MOD
  let b ← memory block
  let memory := write memory NewBlock
    { size := (b.size + 2 * SIZE_MOD - size - BLOCK_SIZE) % SIZE_MOD, free := true, next := b.next }
  let _ ← memory block
  some (write memory block { size := size, free := false, next := some NewBlock })

/-- `curr->next`. -/
def next (memory : memory_t) (a : Nat) : Option (Option Nat) := (memory a).map Block.next

/-- `curr->free && curr->size >= size`. -/
def fits (memory : memory_t) (size : Nat) (a : Nat) : Option Bool :=
  (memory a).map fun b => b.free && decide (b.size ≥ size)

/-- The loops over the blocks end within one step per byte of the pool, and one for
the first block where the pool has no bytes. -/
def pool_t.fuel (pool : pool_t) : Nat := pool.PoolSize + 2

/-- `PoolAllocate`: the offset of the payload handed out, if any. -/
def PoolAllocate (pool : pool_t) (size : Nat) : Option (pool_t × Option Nat) := do
  match ← find_cell (next pool.memory) (fits pool.memory size) pool.fuel pool.FreeList with
  | none => some (pool, none)
  | some curr =>
    let b ← pool.memory curr
    let memory ← if b.size > (size + BLOCK_SIZE) % SIZE_MOD then SplitBlock pool.memory curr size
      else some (write pool.memory curr { b with free := false })
    some ({ pool with memory := memory }, some ((curr + BLOCK_SIZE) % SIZE_MOD))

/-- The loop of `MergeBlock`. -/
def merge (memory : memory_t) : Nat → Option Nat → Option memory_t
  | 0, _ => none
  | _ + 1, none => some memory
  | fuel + 1, some curr => do
    let b ← memory curr
    match b.next with
    | none => some memory
    | some a =>
      let n ← memory a
      if b.free && n.free then
        merge (write memory curr { b with size := (b.size + BLOCK_SIZE + n.size) % SIZE_MOD, next := n.next })
          fuel (some curr)
      else merge memory fuel (some a)

def MergeBlock (pool : pool_t) : Option pool_t := do
  let memory ← merge pool.memory pool.fuel pool.FreeList
  some { pool with memory := memory }

def PoolFree (pool : pool_t) (ptr : Option Nat) : Option pool_t :=
  match ptr with
  | none => some pool
  | some ptr => do
    let block_ptr := (ptr + SIZE_MOD - BLOCK_SIZE) % SIZE_MOD
    let b ← pool.memory block_ptr
    MergeBlock { pool with memory := write pool.memory block_ptr { b with free := true } }

/-- The caller's side: the pointers it holds, with the sizes it asked for. -/
structure client_t where
  pool : pool_t
  live : List (Nat × Nat)

/-- The calls a client may make: it frees a pointer it holds, named by its place
in `live`, or `NULL`. -/
inductive call_t where
  | allocate (size : UInt64)
  | free (index : Nat)
  deriving DecidableEq

def call (c : client_t) : call_t → Option client_t
  | .allocate size => do
    let (pool, ptr) ← PoolAllocate c.pool size.toNat
    some { pool := pool, live := ptr.toList.map (·, size.toNat) ++ c.live }
  | .free index => do
    let pool ← PoolFree c.pool (c.live[index]?.map Prod.fst)
    some { pool := pool, live := c.live.eraseIdx index }

def run (size : UInt64) (calls : List call_t) : Option client_t :=
  calls.foldlM call { pool := PoolInit size.toNat, live := [] }

/-- A block of the list with the offset of its header. -/
structure placed_t where
  start : Nat
  size : Nat
  free : Bool
  deriving DecidableEq, Repr

/-- The blocks met by following `next`. -/
def walk (memory : memory_t) : Nat → Option Nat → Option (List placed_t)
  | 0, _ => none
  | _ + 1, none => some []
  | fuel + 1, some a => do
    let b ← memory a
    let rest ← walk memory fuel b.next
    some ({ start := a, size := b.size, free := b.free } :: rest)

def block_list (pool : pool_t) : Option (List placed_t) := walk pool.memory pool.fuel pool.FreeList

end csystems.memory_pool
