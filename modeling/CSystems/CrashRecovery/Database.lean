import Mathlib.Data.List.Basic
import CSystems.Lib.CString

open clib.string

namespace csystems.crash_recovery

def MAX_RECORDS : Nat := 100

/-- A database record, laid out in memory as 4 + 32 + 4 bytes without padding. -/
structure record_t where
  id : Int32
  name : Vector UInt8 32
  active : Int32
  deriving DecidableEq, Repr

structure wal_entry_t where
  record_id : Int32
  data : record_t
  timestamp : Int64
  checksum : Vector UInt8 16
  deriving DecidableEq, Repr

/-- The memory-mapped slots of the database file. -/
abbrev slots_t := Vector record_t MAX_RECORDS

/-- The record that `ftruncate` leaves in every slot of a new database file. -/
def zero_record : record_t := { id := 0, name := Vector.replicate 32 0, active := 0 }

/-- The persistent files of the program. A WAL is the list of its complete
entries, in file order. -/
structure disk_t where
  slots : slots_t
  wal : List wal_entry_t
  deriving DecidableEq, Repr

/-- The part of `db_context_t` that the operations read: the mapped slots, the
contents of the WAL file, and the identifier counter. -/
structure db_context_t where
  db_mmap : slots_t
  wal : List wal_entry_t
  next_id : Int32
  deriving DecidableEq, Repr

/-- What one `write_wal_entry` call takes from its surroundings: the clock, and
the uninitialised stack bytes that `snprintf` leaves behind its terminator. -/
structure call_env where
  time : Int64
  stack : Vector UInt8 16
  deriving DecidableEq, Repr

/-- The four little-endian bytes of an `int`. -/
def int_bytes (x : Int32) : List UInt8 :=
  let u := x.toUInt32
  [u.toUInt8, (u >>> 8).toUInt8, (u >>> 16).toUInt8, (u >>> 24).toUInt8]

def record_t.bytes (record : record_t) : List UInt8 :=
  int_bytes record.id ++ record.name.toList ++ int_bytes record.active

/-- The polynomial hash accumulated by `calculate_checksum`. -/
def record_hash (record : record_t) : UInt32 :=
  record.bytes.foldl (fun hash b => hash * 31 + char_to_unsigned b) 0

/-- One upper-case hexadecimal digit, as ASCII. -/
def hex_digit (d : UInt8) : UInt8 := if d < 10 then 48 + d else 55 + d

/-- The `%08X` rendering of a 32-bit value: eight digits, the highest first. -/
def format_08X (hash : UInt32) : List UInt8 :=
  ([28, 24, 20, 16, 12, 8, 4, 0] : List UInt32).map fun shift => hex_digit ((hash >>> shift).toUInt8 &&& 15)

/-- `calculate_checksum` prints the hash and its terminator over the first nine
bytes of the caller's buffer. -/
def calculate_checksum (record : record_t) (checksum : Vector UInt8 16) : Vector UInt8 16 :=
  let printed := format_08X (record_hash record) ++ [0]
  Vector.ofFn fun i => printed.getD i checksum[i]

/-- `init_database` on an existing or newly extended database file: the next
identifier is one past the largest active one, and at least 1. -/
def init_database (disk : disk_t) : db_context_t where
  db_mmap := disk.slots
  wal := disk.wal
  next_id := disk.slots.foldl (fun next_id slot =>
    if slot.active ≠ 0 ∧ slot.id ≥ next_id then slot.id + 1 else next_id) 1

def make_wal_entry (env : call_env) (record : record_t) : wal_entry_t where
  record_id := record.id
  data := record
  timestamp := env.time
  checksum := calculate_checksum record env.stack

/-- `write_wal_entry` with a complete write and a successful `fsync`. -/
def write_wal_entry (ctx : db_context_t) (env : call_env) (record : record_t) : db_context_t :=
  { ctx with wal := ctx.wal ++ [make_wal_entry env record] }

/-- The slot `apply_to_database` selects: the first active slot with the same
identifier, else the first inactive one. -/
def find_slot (slots : slots_t) (record : record_t) : Option (Fin MAX_RECORDS) :=
  match slots.findFinIdx? fun slot => slot.active != 0 && slot.id == record.id with
  | some slot => some slot
  | none => slots.findFinIdx? fun slot => slot.active == 0

/-- `apply_to_database`: the changed slots and the return code. A failing
`msync` is reported after the mapped slot has already been overwritten. -/
def apply_to_database (msync_ok : Bool) (slots : slots_t) (record : record_t) : slots_t × Int32 :=
  match find_slot slots record with
  | none => (slots, -1)
  | some slot => (slots.set slot record, if msync_ok then 0 else -1)

/-- The record that `insert_record` and the crash path of `main` build on the
stack: a copied, terminated name and the active flag. Every byte of the name is
written, so the uninitialised buffer does not matter. -/
def new_record (id : Int32) (name : List UInt8) : record_t where
  id := id
  name := (strncpy (Vector.replicate 32 0) name 31).set 31 0
  active := 1

/-- `insert_record` with every OS call succeeding. -/
def insert_record (ctx : db_context_t) (env : call_env) (name : List UInt8) : db_context_t × Int32 :=
  let record := new_record ctx.next_id name
  let ctx := write_wal_entry { ctx with next_id := ctx.next_id + 1 } env record
  let (slots, code) := apply_to_database true ctx.db_mmap record
  ({ ctx with db_mmap := slots }, if code = -1 then -1 else record.id)

/-- The crash-after-wal path of `main`: the entry is logged and the process
exits before the database is updated. -/
def crash_after_wal (ctx : db_context_t) (env : call_env) (name : List UInt8) : db_context_t :=
  write_wal_entry { ctx with next_id := ctx.next_id + 1 } env (new_record ctx.next_id name)

/-- The checksum comparison of the replay loop, on a stack buffer. -/
def checksum_matches (stack : Vector UInt8 16) (entry : wal_entry_t) : Bool :=
  strcmp entry.checksum.toList (calculate_checksum entry.data stack).toList = 0

/-- The already-applied scan of the replay loop. -/
def already_applied (slots : slots_t) (record : record_t) : Bool :=
  slots.any fun slot =>
    slot.active != 0 && slot.id == record.id && strcmp slot.name.toList record.name.toList == 0

/-- What one iteration of the replay loop takes from its surroundings. -/
structure replay_env where
  stack : Vector UInt8 16
  msync_ok : Bool
  deriving DecidableEq, Repr

/-- One iteration of the replay loop, on the slots and `entries_recovered`. -/
def replay_entry (env : replay_env) (state : slots_t × Nat) (entry : wal_entry_t) : slots_t × Nat :=
  if !checksum_matches env.stack entry then state
  else if already_applied state.1 entry.data then state
  else
    let (slots, code) := apply_to_database env.msync_ok state.1 entry.data
    if code = -1 then (slots, state.2) else (slots, state.2 + 1)

/-- The replay loop of `recover_from_wal` over the entries read from the WAL.
The surroundings of the iterations are given by their index. -/
def replay_loop (env : Nat → replay_env) : Nat → slots_t × Nat → List wal_entry_t → slots_t × Nat
  | _, state, [] => state
  | i, state, entry :: rest => replay_loop env (i + 1) (replay_entry (env i) state entry) rest

/-- `recover_from_wal`: replay, then clear the WAL if anything was replayed. -/
def recover_from_wal (env : Nat → replay_env) (ctx : db_context_t) : db_context_t × Nat :=
  let (slots, entries_recovered) := replay_loop env 0 (ctx.db_mmap, 0) ctx.wal
  let wal := if entries_recovered > 0 then [] else ctx.wal
  ({ ctx with db_mmap := slots, wal := wal }, entries_recovered)

end csystems.crash_recovery
