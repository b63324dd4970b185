import CSystems.Lib.Bytes
import CSystems.Lib.File
import CSystems.CrashRecovery.Capacity

open clib.bytes clib.file

namespace csystems.crash_recovery

/-- `sizeof(wal_entry_t)`: four bytes of padding follow the record. -/
def sizeof_wal_entry : Nat := 72

/-- The eight little-endian bytes of a `long`. -/
def long_bytes (x : Int64) : List UInt8 := le_bytes 8 x.toUInt64.toNat

/-- A `wal_entry_t` as it lies in memory, with the stack bytes of its padding. -/
def entry_bytes (padding : Vector UInt8 4) (entry : wal_entry_t) : List UInt8 :=
  int_bytes entry.record_id ++
    (entry.data.bytes ++ (padding.toList ++ (long_bytes entry.timestamp ++ entry.checksum.toList)))

def bytes_int (bytes : List UInt8) : Int32 := (UInt32.ofNat (le_nat bytes)).toInt32

def bytes_long (bytes : List UInt8) : Int64 := (UInt64.ofNat (le_nat bytes)).toInt64

def bytes_chars (n : Nat) (bytes : List UInt8) : Vector UInt8 n := Vector.ofFn fun i => bytes.getD i 0

/-- The entry that the bytes stand for once `read` has put them into it. -/
def decode_entry (bytes : List UInt8) : wal_entry_t where
  record_id := bytes_int (slice bytes 0 4)
  data :=
    { id := bytes_int (slice bytes 4 4)
      name := bytes_chars 32 (slice bytes 8 32)
      active := bytes_int (slice bytes 40 4) }
  timestamp := bytes_long (slice bytes 48 8)
  checksum := bytes_chars 16 (slice bytes 56 16)

/-- What the `read` calls of the replay loop deliver: whole entries, up to the
first short read. -/
def read_entries (file : File) : List wal_entry_t :=
  if h : (clib.file.read file sizeof_wal_entry).2.length = sizeof_wal_entry then
    decode_entry (clib.file.read file sizeof_wal_entry).2 :: read_entries (clib.file.read file sizeof_wal_entry).1
  else []
termination_by file.bytes.length - file.pos
decreasing_by
  simp only [clib.file.read, length_slice, sizeof_wal_entry] at h ⊢
  omega

/-- The files of the program: the mapped slots and the bytes of the WAL. -/
structure files_t where
  slots : slots_t
  wal : List UInt8

/-- `write_wal_entry` with a complete write to the end of the WAL. -/
def append_entry (padding : Vector UInt8 4) (env : call_env) (files : files_t) (record : record_t) : files_t :=
  { files with wal := files.wal ++ entry_bytes padding (make_wal_entry env record) }

/-- `recover_from_wal`: the entries are read from offset 0, and the WAL is
cleared if anything was replayed. -/
def recover_files (env : Nat → replay_env) (files : files_t) : files_t × Nat :=
  let entries := read_entries (lseek { bytes := files.wal, pos := 0 } 0)
  let (slots, entries_recovered) := replay_loop env 0 (files.slots, 0) entries
  ({ slots, wal := if entries_recovered > 0 then [] else files.wal }, entries_recovered)

/-- Recovery of the files is recovery of the list of entries that the WAL
starts with. -/
theorem recover_files_refines (env : Nat → replay_env) (slots : slots_t) (wal : List UInt8) (next_id : Int32) :
    recover_files env { slots, wal } =
      ({ slots := (recover_from_wal env ⟨slots, read_entries ⟨wal, 0⟩, next_id⟩).1.db_mmap
         wal := if (recover_from_wal env ⟨slots, read_entries ⟨wal, 0⟩, next_id⟩).2 > 0 then [] else wal },
        (recover_from_wal env ⟨slots, read_entries ⟨wal, 0⟩, next_id⟩).2) := rfl

theorem int_bytes_eq (x : Int32) : int_bytes x = le_bytes 4 x.toUInt32.toNat := by
  have hbyte (u : UInt32) (k : Nat) (hk : k < 32) :
      (u >>> UInt32.ofNat k).toUInt8 = UInt8.ofNat (u.toNat / 2 ^ k) := by
    apply UInt8.toNat_inj.mp
    simp only [UInt32.toNat_toUInt8, UInt32.toNat_shiftRight, UInt32.toNat_ofNat', UInt8.toNat_ofNat',
      Nat.shiftRight_eq_div_pow]
    rw [Nat.mod_eq_of_lt (by omega : k < 2 ^ 32), Nat.mod_eq_of_lt hk]
  have hzero (u : UInt32) : u.toUInt8 = UInt8.ofNat u.toNat := by
    apply UInt8.toNat_inj.mp
    simp
  simp only [int_bytes, le_bytes, Nat.div_div_eq_div_mul, Nat.reduceMul]
  rw [hzero, show (8 : UInt32) = UInt32.ofNat 8 from rfl, show (16 : UInt32) = UInt32.ofNat 16 from rfl,
    show (24 : UInt32) = UInt32.ofNat 24 from rfl, hbyte _ 8 (by omega), hbyte _ 16 (by omega), hbyte _ 24 (by omega)]
  simp only [Nat.reducePow]

private theorem bytes_int_int_bytes (x : Int32) : bytes_int (int_bytes x) = x := by
  rw [int_bytes_eq, bytes_int, le_nat_le_bytes x.toUInt32.toNat_lt, UInt32.ofNat_toNat]
  simp

private theorem bytes_long_long_bytes (x : Int64) : bytes_long (long_bytes x) = x := by
  rw [long_bytes, bytes_long, le_nat_le_bytes x.toUInt64.toNat_lt, UInt64.ofNat_toNat]
  simp

private theorem bytes_chars_toList {n : Nat} (chars : Vector UInt8 n) : bytes_chars n chars.toList = chars := by
  ext i hi
  simp [bytes_chars]

@[simp] theorem length_entry_bytes (padding : Vector UInt8 4) (entry : wal_entry_t) :
    (entry_bytes padding entry).length = sizeof_wal_entry := by
  simp [entry_bytes, record_t.bytes, int_bytes, long_bytes, sizeof_wal_entry]

/-- What `write_wal_entry` writes is read back as it was, whatever the padding. -/
theorem decode_entry_bytes (padding : Vector UInt8 4) (entry : wal_entry_t) :
    decode_entry (entry_bytes padding entry) = entry := by
  have hint (x : Int32) : (int_bytes x).length = 4 := rfl
  have hlong (x : Int64) : (long_bytes x).length = 8 := length_le_bytes 8 _
  have hhead (first second : List UInt8) (count : Nat) (hcount : first.length = count) :
      slice (first ++ second) 0 count = first := by
    rw [← hcount]
    exact slice_append_left first second
  have hlast : slice entry.checksum.toList 0 16 = entry.checksum.toList := by simp [slice]
  unfold decode_entry entry_bytes record_t.bytes
  simp only [List.append_assoc]
  rw [hhead _ _ 4 (hint _)]
  simp (disch := simp [hint, hlong]) only [slice_append_right, hint, hlong, Vector.length_toList, Nat.reduceSub]
  rw [hhead _ _ 4 (hint _), hhead _ _ 32 (by simp), hhead _ _ 4 (hint _), hhead _ _ 8 (hlong _), hlast]
  simp only [bytes_int_int_bytes, bytes_long_long_bytes, bytes_chars_toList]

/-- A file from which nothing whole can be read any more. -/
theorem read_entries_short {file : File} (h : file.bytes.length < file.pos + sizeof_wal_entry) :
    read_entries file = [] := by
  rw [read_entries, dif_neg]
  simp only [clib.file.read, length_slice, sizeof_wal_entry] at h ⊢
  omega

/-- Entries are read at the multiples of their size from the file offset on. -/
theorem read_entries_cons {first rest : List UInt8} {padding : Vector UInt8 4} {entry : wal_entry_t} :
    read_entries ⟨first ++ (entry_bytes padding entry ++ rest), first.length⟩ =
      entry ::
        read_entries ⟨(first ++ entry_bytes padding entry) ++ rest, (first ++ entry_bytes padding entry).length⟩ := by
  have hslice : slice (first ++ (entry_bytes padding entry ++ rest)) first.length sizeof_wal_entry =
      entry_bytes padding entry := by
    rw [slice_append_right _ (Nat.le_refl _), Nat.sub_self, ← length_entry_bytes padding entry, slice_append_left]
  have hread : clib.file.read ⟨first ++ (entry_bytes padding entry ++ rest), first.length⟩ sizeof_wal_entry =
      (⟨(first ++ entry_bytes padding entry) ++ rest, (first ++ entry_bytes padding entry).length⟩,
        entry_bytes padding entry) := by
    unfold clib.file.read
    dsimp only
    rw [hslice, List.append_assoc, List.length_append]
  rw [read_entries, hread, dif_pos (length_entry_bytes padding entry), decode_entry_bytes]

/-- The bytes of complete entries, each with its padding. -/
def entries_bytes (entries : List (Vector UInt8 4 × wal_entry_t)) : List UInt8 :=
  entries.flatMap fun e => entry_bytes e.1 e.2

theorem length_entries_bytes (entries : List (Vector UInt8 4 × wal_entry_t)) :
    (entries_bytes entries).length = entries.length * sizeof_wal_entry := by
  induction entries with
  | nil => simp [entries_bytes]
  | cons e rest ih =>
    unfold entries_bytes at ih ⊢
    rw [List.flatMap_cons, List.length_append, ih, length_entry_bytes, List.length_cons, Nat.succ_mul, Nat.add_comm]

/-- Complete entries are all read back; what follows them is too short to be one. -/
theorem read_entries_bytes (entries : List (Vector UInt8 4 × wal_entry_t)) {torn : List UInt8}
    (htorn : torn.length < sizeof_wal_entry) :
    read_entries ⟨entries_bytes entries ++ torn, 0⟩ = entries.map Prod.snd := by
  have hfrom (first : List UInt8) :
      read_entries ⟨first ++ (entries_bytes entries ++ torn), first.length⟩ = entries.map Prod.snd := by
    induction entries generalizing first with
    | nil =>
      apply read_entries_short
      simpa [entries_bytes] using htorn
    | cons e rest ih =>
      have hsplit : entries_bytes (e :: rest) ++ torn = entry_bytes e.1 e.2 ++ (entries_bytes rest ++ torn) := by
        simp [entries_bytes]
      rw [hsplit, read_entries_cons, ih, List.map_cons]
  exact hfrom []

end csystems.crash_recovery
