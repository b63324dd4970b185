import Mathlib.Data.List.Basic

namespace csystems.memory_allocation

/-- `NULL`. -/
def NULL : UInt64 := 0

/-- `sizeof(MemoryNode)`. -/
def node_size : UInt64 := 32

structure MemoryNode where
  address : UInt64
  size : UInt64
  is_freed : Bool
  deriving DecidableEq

inductive action_t where
  | TRACKER_ALLOC_FAILED
  | MALLOCZERO
  | MALLOC
  | MALLOC_FAILED
  | CALLOC_ZERO
  | CALLOC
  | CALLOC_FAILED
  | REALLOC_ZERO
  | REALLOC
  | REALLOC_UNTRACKED
  | REALLOC_FAILED
  | FREE_NULL
  | FREE
  | FREE_UNTRACKED
  deriving DecidableEq

/-- The lines of the log file. -/
inductive line_t where
  | memory_log
  | event (action : action_t) (address size : UInt64)
  | memory_leak
  | block (address size : UInt64)
  | total_leaked (total : UInt64)
  deriving DecidableEq

/-- The global variables. `logFile` holds the lines written since the file was
opened, and is `none` while the pointer is `NULL`. -/
structure globals_t where
  head : List MemoryNode
  logFile : Option (List line_t)
  deriving DecidableEq

def initial : globals_t where
  head := []
  logFile := none

/-- What a call finds outside the tracker: the pointer the allocator answers
with, whether it has room for a node of the tracker, and whether the log file
can be opened. -/
structure outcome_t where
  answer : UInt64
  node : Bool
  fopen : Bool
  deriving DecidableEq

variable (out : outcome_t)

/-- `LogEvent`, whose result no caller looks at. -/
def LogEvent (action : action_t) (address size : UInt64) (g : globals_t) : globals_t :=
  match g.logFile with
  | some lines => { g with logFile := some (lines ++ [.event action address size]) }
  | none => if out.fopen then { g with logFile := some [.memory_log, .event action address size] } else g

def AddAllocation (address size : UInt64) (g : globals_t) : globals_t :=
  if out.node then { g with head := { address := address, size := size, is_freed := false } :: g.head }
  else LogEvent out .TRACKER_ALLOC_FAILED NULL node_size g

def FindeValue (address : UInt64) (g : globals_t) : Option MemoryNode :=
  g.head.find? fun curr => decide (curr.address = address)

/-- Setting `is_freed` of the node that `FindeValue` finds. -/
def set_freed (address : UInt64) : List MemoryNode → List MemoryNode
  | [] => []
  | curr :: next =>
    if curr.address = address then { curr with is_freed := true } :: next else curr :: set_freed address next

def TrackMalloc (size : UInt64) (g : globals_t) : globals_t × UInt64 :=
  if size = 0 then (LogEvent out .MALLOCZERO NULL 0 g, NULL)
  else
    let ptr := out.answer
    if ptr ≠ NULL then (LogEvent out .MALLOC ptr size (AddAllocation out ptr size g), ptr)
    else (LogEvent out .MALLOC_FAILED NULL size g, ptr)

def TrackCalloc (num size : UInt64) (g : globals_t) : globals_t × UInt64 :=
  if num = 0 ∨ size = 0 then (LogEvent out .CALLOC_ZERO NULL 0 g, NULL)
  else
    let ptr := out.answer
    if ptr ≠ NULL then (LogEvent out .CALLOC ptr (num * size) (AddAllocation out ptr (num * size) g), ptr)
    else (LogEvent out .CALLOC_FAILED NULL (num * size) g, ptr)

def TrackRealloc (ptr size : UInt64) (g : globals_t) : globals_t × UInt64 :=
  if size = 0 then (LogEvent out .REALLOC_ZERO ptr 0 g, NULL)
  else
    let new_ptr := out.answer
    if new_ptr ≠ NULL then
      match FindeValue ptr g with
      | some _ =>
        let g := AddAllocation out new_ptr size { g with head := set_freed ptr g.head }
        (LogEvent out .REALLOC new_ptr size g, new_ptr)
      | none => (LogEvent out .REALLOC_UNTRACKED new_ptr size g, new_ptr)
    else (LogEvent out .REALLOC_FAILED ptr size g, new_ptr)

/-- `TrackFree`, with the pointer it passes to `free`, if it does. -/
def TrackFree (ptr : UInt64) (g : globals_t) : globals_t × Int32 × Option UInt64 :=
  if ptr = NULL then (LogEvent out .FREE_NULL NULL 0 g, 1, none)
  else
    match FindeValue ptr g with
    | some node =>
      if node.is_freed then (LogEvent out .FREE_UNTRACKED ptr 0 g, 1, none)
      else (LogEvent out .FREE ptr node.size { g with head := set_freed ptr g.head }, 0, some ptr)
    | none => (LogEvent out .FREE_UNTRACKED ptr 0 g, 1, none)

/-- The loop of `MemoryLeaks`: the lines it writes and the total it reaches. -/
def leak_loop : List MemoryNode → UInt64 → List line_t × UInt64
  | [], total_leaked => ([], total_leaked)
  | curr :: next, total_leaked =>
    if curr.is_freed then leak_loop next total_leaked
    else
      let (lines, total) := leak_loop next (total_leaked + curr.size)
      (.block curr.address curr.size :: lines, total)

def MemoryLeaks (g : globals_t) : globals_t × Int32 :=
  match g.logFile with
  | none => (g, 1)
  | some lines =>
    let (blocks, total) := leak_loop g.head 0
    ({ g with logFile := some (lines ++ [.memory_leak] ++ blocks ++ [.total_leaked total]) }, 0)

/-- A block of the allocator, with its size in bytes. -/
structure block_t where
  address : UInt64
  size : Nat
  deriving DecidableEq

/-- The tracker and the blocks that were obtained through it and have not been
released. -/
structure system_t where
  tracker : globals_t
  live : List block_t
  deriving DecidableEq

inductive call_t where
  | TrackMalloc (size : UInt64)
  | TrackCalloc (num size : UInt64)
  | TrackRealloc (ptr size : UInt64)
  | TrackFree (ptr : UInt64)
  deriving DecidableEq

structure event_t where
  call : call_t
  out : outcome_t
  deriving DecidableEq

/-- The caller now has this block, unless the pointer it got is `NULL`. -/
def obtained (ptr : UInt64) (size : Nat) (live : List block_t) : List block_t :=
  if ptr = NULL then live else { address := ptr, size := size } :: live

/-- The block at the pointer is gone. -/
def released (ptr : UInt64) (live : List block_t) : List block_t :=
  live.filter fun block => decide (block.address ≠ ptr)

/-- A call, and what it does to the blocks: a pointer returned is a new block, a
`realloc` that succeeds also releases the old one, and `free` releases one. -/
def step (s : system_t) (e : event_t) : system_t :=
  match e.call with
  | .TrackMalloc size =>
    let (tracker, ptr) := TrackMalloc e.out size s.tracker
    { tracker := tracker, live := obtained ptr size.toNat s.live }
  | .TrackCalloc num size =>
    let (tracker, ptr) := TrackCalloc e.out num size s.tracker
    { tracker := tracker, live := obtained ptr (num.toNat * size.toNat) s.live }
  | .TrackRealloc ptr size =>
    let (tracker, new_ptr) := TrackRealloc e.out ptr size s.tracker
    { tracker := tracker
      live := if new_ptr = NULL then s.live else obtained new_ptr size.toNat (released ptr s.live) }
  | .TrackFree ptr =>
    let (tracker, _, freed) := TrackFree e.out ptr s.tracker
    { tracker := tracker, live := freed.elim s.live fun ptr => released ptr s.live }

def start : system_t where
  tracker := initial
  live := []

def run (events : List event_t) : system_t := events.foldl step start

/-- The address is that of a live block. -/
def Live (live : List block_t) (ptr : UInt64) : Prop := ptr ∈ live.map block_t.address

instance (live : List block_t) (ptr : UInt64) : Decidable (Live live ptr) :=
  inferInstanceAs (Decidable (ptr ∈ live.map block_t.address))

/-- What the allocator may answer: no new block is at the address of a live one,
unless `realloc` leaves that one in place, and `calloc` fails where the size
overflows. Nodes of the tracker can be allocated, and `TrackRealloc` is called
for live blocks only. -/
def Legal (s : system_t) (e : event_t) : Prop :=
  e.out.node = true ∧
  match e.call with
  | .TrackMalloc _ => ¬ Live s.live e.out.answer
  | .TrackCalloc num size =>
    ¬ Live s.live e.out.answer ∧ (e.out.answer ≠ NULL → num.toNat * size.toNat < UInt64.size)
  | .TrackRealloc ptr _ => Live s.live ptr ∧ (e.out.answer = ptr ∨ ¬ Live s.live e.out.answer)
  | .TrackFree _ => True

instance (s : system_t) (e : event_t) : Decidable (Legal s e) :=
  match e with
  | ⟨.TrackMalloc _, _⟩ => inferInstanceAs (Decidable (_ ∧ ¬ Live _ _))
  | ⟨.TrackCalloc num size, out⟩ =>
    inferInstanceAs (Decidable (_ ∧ ¬ Live _ _ ∧ (out.answer ≠ NULL → num.toNat * size.toNat < UInt64.size)))
  | ⟨.TrackRealloc _ _, _⟩ => inferInstanceAs (Decidable (_ ∧ Live _ _ ∧ (_ = _ ∨ ¬ Live _ _)))
  | ⟨.TrackFree _, _⟩ => inferInstanceAs (Decidable (_ ∧ True))

end csystems.memory_allocation
