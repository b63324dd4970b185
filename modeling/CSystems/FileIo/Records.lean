import CSystems.Lib.Bytes
import CSystems.Lib.File

open clib.bytes clib.file

namespace csystems.low_level_file_io

/-- A record; `value` is the bit pattern of the `double`. -/
structure Record where
  id : UInt32
  value : UInt64
  name : Vector UInt8 32
  deriving DecidableEq

/-- The memory of a packed record. -/
def Record.bytes (record : Record) : List UInt8 :=
  le_bytes 4 record.id.toNat ++ le_bytes 8 record.value.toNat ++ record.name.toList

/-- `sizeof(Record)` -/
def Record.size : Nat := 44

/-- The record that lies in memory. -/
def Record.of_bytes (memory : List UInt8) : Record where
  id := UInt32.ofNat (le_nat (slice memory 0 4))
  value := UInt64.ofNat (le_nat (slice memory 4 8))
  name := Vector.ofFn fun i => memory.getD (12 + i) 0

/-- What one call of `read` or `write` does: it is interrupted, it fails otherwise, or it
moves at most `n` bytes. -/
inductive outcome_t
  | eintr
  | error
  | moved (n : Nat)
  deriving DecidableEq, Repr

/-- The calls that a schedule has in store. Once it is used up every call moves all the
bytes asked for. -/
def next (schedule : List outcome_t) (left : Nat) : outcome_t × List outcome_t :=
  match schedule with
  | [] => (.moved left, [])
  | outcome :: schedule => (outcome, schedule)

theorem next_decreases {schedule rest : List outcome_t} {outcome : outcome_t} {left left' : Nat}
    (h : next schedule left = (outcome, rest)) (hmoved : outcome = .moved left → left' < left) :
    Prod.Lex (· < ·) (· < ·) (rest.length, left') (schedule.length, left) := by
  cases schedule with
  | nil =>
    obtain ⟨rfl, rfl⟩ := Prod.mk.inj h
    exact Prod.Lex.right _ (hmoved rfl)
  | cons first schedule =>
    obtain ⟨rfl, rfl⟩ := Prod.mk.inj h
    exact Prod.Lex.left _ _ (Nat.lt_succ_self _)

/-- What `read_all` leaves: the calls to come, the open file, the memory it read into and
the bytes it returns the number of. -/
structure read_t where
  schedule : List outcome_t
  file : File
  buffer : List UInt8
  bytes_read : Nat

/-- The loop of `read_all`, which has still to read `left` of `count` bytes to `pointer`;
`none` if it returns -1. -/
def read_loop (schedule : List outcome_t) (file : File) (buffer : List UInt8) (pointer left count : Nat) :
    Option read_t :=
  if _h : left = 0 then some ⟨schedule, file, buffer, count - left⟩
  else
    match _hnext : next schedule left with
    | (.eintr, schedule) => read_loop schedule file buffer pointer left count
    | (.error, _) => none
    | (.moved n, schedule) =>
      let r := read file (min n left)
      if _hend : r.2.length = 0 then some ⟨schedule, r.1, buffer, count - left⟩
      else read_loop schedule r.1 (write_at buffer pointer r.2) (pointer + r.2.length) (left - r.2.length) count
termination_by (schedule.length, left)
decreasing_by
  · exact next_decreases _hnext nofun
  · exact next_decreases _hnext fun _ => Nat.sub_lt (Nat.pos_of_ne_zero _h) (Nat.pos_of_ne_zero _hend)

def read_all (schedule : List outcome_t) (file : File) (buffer : List UInt8) (count : Nat) : Option read_t :=
  read_loop schedule file buffer 0 count count

/-- The loop of `write_all`, which has still to write the `left` bytes at `pointer`: the
calls to come and the open file, `none` if it returns -1. -/
def write_loop (schedule : List outcome_t) (file : File) (buffer : List UInt8) (pointer left : Nat) :
    Option (List outcome_t × File) :=
  if _h : left = 0 then some (schedule, file)
  else
    match _hnext : next schedule left with
    | (.eintr, schedule) => write_loop schedule file buffer pointer left
    | (.error, _) => none
    | (.moved n, schedule) =>
      let bytes_written := min n left
      write_loop schedule (write file (slice buffer pointer bytes_written)) buffer (pointer + bytes_written)
        (left - bytes_written)
termination_by (schedule.length, left)
decreasing_by
  · exact next_decreases _hnext nofun
  · exact next_decreases _hnext fun hmoved => by
      obtain rfl := outcome_t.moved.inj hmoved
      omega

/-- `write_all` of the first `count` bytes of a buffer, which returns `count` unless it fails. -/
def write_all (schedule : List outcome_t) (file : File) (buffer : List UInt8) (count : Nat) :
    Option (List outcome_t × File) :=
  write_loop schedule file buffer 0 count

/-- The loop of `main` that writes `n` records from an array. -/
def write_records (records : List Record) (schedule : List outcome_t) (file : File) : Nat → Nat → Option File
  | _, 0 => some file
  | iterator, n + 1 => do
    let record ← records[iterator]?
    let (schedule, file) ← write_all schedule file record.bytes Record.size
    write_records records schedule file (iterator + 1) n

/-- The part of `main` that writes the count and the records to an empty file. -/
def write_file (schedule : List outcome_t) (n : UInt32) (records : List Record) : Option File := do
  let (schedule, file) ← write_all schedule ⟨[], 0⟩ (le_bytes 4 n.toNat) 4
  write_records records schedule file 0 n.toNat

/-- The loop of `main` that reads `n` records, each to the same variable. -/
def read_records (schedule : List outcome_t) (file : File) (record : Record) : Nat → Option (List Record)
  | 0 => some []
  | n + 1 => do
    let r ← read_all schedule file record.bytes Record.size
    if r.bytes_read ≠ Record.size then none
    else
      let record := Record.of_bytes r.buffer
      let records ← read_records r.schedule r.file record n
      return record :: records

/-- The part of `main` that reads the count and the records of a file: the records it
prints. `n_read` and `record` start with what their memory holds. -/
def read_file (schedule : List outcome_t) (file : File) (n_read : UInt32) (record : Record) :
    Option (List Record) := do
  let r ← read_all schedule file (le_bytes 4 n_read.toNat) 4
  if r.bytes_read ≠ 4 then none
  else read_records r.schedule r.file record (UInt32.ofNat (le_nat r.buffer)).toNat

/-- A call that is interrupted or moves some byte. -/
def outcome_t.transfers : outcome_t → Prop
  | .eintr => True
  | .error => False
  | .moved n => 1 ≤ n

theorem transfers_next {schedule rest : List outcome_t} {outcome : outcome_t} {left : Nat}
    (hall : ∀ o ∈ schedule, o.transfers) (hleft : left ≠ 0) (h : next schedule left = (outcome, rest)) :
    outcome.transfers ∧ ∀ o ∈ rest, o.transfers := by
  cases schedule with
  | nil =>
    obtain ⟨rfl, rfl⟩ := Prod.mk.inj h
    exact ⟨Nat.pos_of_ne_zero hleft, hall⟩
  | cons first schedule =>
    obtain ⟨rfl, rfl⟩ := Prod.mk.inj h
    exact ⟨hall _ List.mem_cons_self, fun o ho => hall o (List.mem_cons_of_mem _ ho)⟩

/-- One turn of the loop, by what the next call does. -/
private theorem read_loop_next {schedule rest : List outcome_t} {outcome : outcome_t} {file : File}
    {buffer : List UInt8} {pointer left count : Nat} (hmore : left ≠ 0) (hnext : next schedule left = (outcome, rest)) :
    read_loop schedule file buffer pointer left count =
      match outcome with
      | .eintr => read_loop rest file buffer pointer left count
      | .error => none
      | .moved n =>
        let r := read file (min n left)
        if r.2.length = 0 then some ⟨rest, r.1, buffer, count - left⟩
        else read_loop rest r.1 (write_at buffer pointer r.2) (pointer + r.2.length) (left - r.2.length) count := by
  rw [read_loop, dif_neg hmore]
  split <;> (rename_i heq; rw [hnext] at heq; cases heq; rfl)

/-- The loop does what one read of all the bytes left would do. -/
private theorem read_loop_eq {schedule : List outcome_t} {file : File} {buffer : List UInt8}
    {pointer left count : Nat} (hall : ∀ o ∈ schedule, o.transfers) (hinside : pointer ≤ buffer.length)
    (hle : left ≤ count) :
    ∃ rest, (∀ o ∈ rest, o.transfers) ∧ read_loop schedule file buffer pointer left count =
      some ⟨rest, (read file left).1, write_at buffer pointer (read file left).2,
        count - left + (read file left).2.length⟩ := by
  induction schedule, file, buffer, pointer, left using read_loop.induct with
  | case1 schedule file buffer pointer =>
    refine ⟨schedule, hall, ?_⟩
    rw [read_loop, dif_pos rfl, read_zero, write_at_nil hinside]
    rfl
  | case2 schedule file buffer pointer left hmore rest hnext ih =>
    rw [read_loop_next hmore hnext]
    exact ih (transfers_next hall hmore hnext).2 hinside hle
  | case3 schedule file buffer pointer left hmore rest hnext =>
    exact absurd (transfers_next hall hmore hnext).1 id
  | case4 schedule file buffer pointer left hmore n rest hnext r hend =>
    obtain ⟨hn, hrest⟩ := transfers_next hall hmore hnext
    refine ⟨rest, hrest, ?_⟩
    rw [read_loop_next hmore hnext]
    dsimp only
    have hcount : 0 < min n left := Nat.lt_min.mpr ⟨hn, Nat.pos_of_ne_zero hmore⟩
    rw [if_pos hend, read_of_eof hcount hend, read_of_eof hcount hend, write_at_nil hinside]
    rfl
  | case5 schedule file buffer pointer left hmore n rest hnext r hmoved ih =>
    have hread : read file left = ((read r.1 (left - r.2.length)).1, r.2 ++ (read r.1 (left - r.2.length)).2) :=
      read_read file (Nat.min_le_right n left)
    have hfew : r.2.length ≤ left := by
      have hlen : r.2.length = _ := length_slice file.bytes file.pos (min n left)
      omega
    obtain ⟨rest', hrest, hrun⟩ := ih (transfers_next hall hmore hnext).2 (by rw [length_write_at]; omega) (by omega)
    refine ⟨rest', hrest, ?_⟩
    rw [read_loop_next hmore hnext]
    dsimp only
    rw [if_neg hmoved, hrun, hread, write_at_write_at, List.length_append]
    congr 2
    omega

/-- However its calls go, `read_all` reads what one read of `count` bytes would. -/
theorem read_all_eq {schedule : List outcome_t} (hall : ∀ o ∈ schedule, o.transfers) (file : File)
    (buffer : List UInt8) (count : Nat) :
    ∃ rest, (∀ o ∈ rest, o.transfers) ∧ read_all schedule file buffer count =
      some ⟨rest, (read file count).1, write_at buffer 0 (read file count).2, (read file count).2.length⟩ := by
  obtain ⟨rest, hrest, hrun⟩ := read_loop_eq hall (Nat.zero_le buffer.length) (Nat.le_refl count)
  rw [Nat.sub_self, Nat.zero_add] at hrun
  exact ⟨rest, hrest, hrun⟩

private theorem write_loop_next {schedule rest : List outcome_t} {outcome : outcome_t} {file : File}
    {buffer : List UInt8} {pointer left : Nat} (hmore : left ≠ 0) (hnext : next schedule left = (outcome, rest)) :
    write_loop schedule file buffer pointer left =
      match outcome with
      | .eintr => write_loop rest file buffer pointer left
      | .error => none
      | .moved n => write_loop rest (write file (slice buffer pointer (min n left))) buffer
          (pointer + min n left) (left - min n left) := by
  rw [write_loop, dif_neg hmore]
  split <;> (rename_i heq; rw [hnext] at heq; cases heq; rfl)

private theorem write_loop_eq {schedule : List outcome_t} {file : File} (buffer : List UInt8) (pointer left : Nat)
    (hall : ∀ o ∈ schedule, o.transfers) (hend : file.pos = file.bytes.length) :
    ∃ rest, (∀ o ∈ rest, o.transfers) ∧ write_loop schedule file buffer pointer left =
      some (rest, write file (slice buffer pointer left)) := by
  induction schedule, file, pointer, left using write_loop.induct buffer with
  | case1 schedule file pointer =>
    refine ⟨schedule, hall, ?_⟩
    rw [write_loop, dif_pos rfl, slice, List.take_zero, write_end hend, List.append_nil, ← hend]
  | case2 schedule file pointer left hmore rest hnext ih =>
    rw [write_loop_next hmore hnext]
    exact ih (transfers_next hall hmore hnext).2 hend
  | case3 schedule file pointer left hmore rest hnext =>
    exact absurd (transfers_next hall hmore hnext).1 id
  | case4 schedule file pointer left hmore n rest hnext bytes_written ih =>
    obtain ⟨rest', hrest, hrun⟩ := ih (transfers_next hall hmore hnext).2 (by rw [write_end hend])
    have hsplit := slice_add buffer pointer (min n left) (left - min n left)
    rw [Nat.add_sub_cancel' (Nat.min_le_right n left)] at hsplit
    refine ⟨rest', hrest, ?_⟩
    rw [write_loop_next hmore hnext]
    dsimp only
    rw [hrun, write_write, hsplit]

/-- However its calls go, `write_all` appends the `count` bytes. -/
theorem write_all_eq {schedule : List outcome_t} (file : File) (hall : ∀ o ∈ schedule, o.transfers)
    (hend : file.pos = file.bytes.length) (buffer : List UInt8) :
    ∃ rest, (∀ o ∈ rest, o.transfers) ∧ write_all schedule file buffer buffer.length =
      some (rest, ⟨file.bytes ++ buffer, (file.bytes ++ buffer).length⟩) := by
  obtain ⟨rest, hrest, hrun⟩ := write_loop_eq buffer 0 buffer.length hall hend
  refine ⟨rest, hrest, ?_⟩
  rw [write_all, hrun, slice, List.drop_zero, List.take_length, write_end hend]

@[simp] theorem Record.length_bytes (record : Record) : record.bytes.length = Record.size := by
  simp [Record.bytes, Record.size]

/-- A record is read back from its memory. -/
theorem Record.of_bytes_bytes (record : Record) : Record.of_bytes record.bytes = record := by
  have hid : slice record.bytes 0 4 = le_bytes 4 record.id.toNat := by
    have h := slice_append_left (le_bytes 4 record.id.toNat) (le_bytes 8 record.value.toNat ++ record.name.toList)
    rwa [length_le_bytes, ← List.append_assoc] at h
  have hvalue : slice record.bytes 4 8 = le_bytes 8 record.value.toNat := by
    have h := slice_append_left (le_bytes 8 record.value.toNat) record.name.toList
    rw [length_le_bytes] at h
    rw [Record.bytes, List.append_assoc, slice_append_right _ (by simp), length_le_bytes, h]
  have hname : (Vector.ofFn fun i : Fin 32 => record.bytes.getD (12 + i) 0) = record.name := by
    ext i hi
    have hfront : (le_bytes 4 record.id.toNat ++ le_bytes 8 record.value.toNat).length = 12 := by simp
    rw [Vector.getElem_ofFn, Record.bytes, List.getD_eq_getElem?_getD,
      List.getElem?_append_right (by rw [hfront]; exact Nat.le_add_right 12 i), hfront, Nat.add_sub_cancel_left,
      Vector.getElem?_toList, Vector.getElem?_eq_getElem hi, Option.getD_some]
  have hidlt : record.id.toNat < 256 ^ 4 := record.id.toNat_lt
  have hvaluelt : record.value.toNat < 256 ^ 8 := record.value.toNat_lt
  rw [Record.of_bytes, hid, hvalue, hname, le_nat_le_bytes hidlt, le_nat_le_bytes hvaluelt, UInt32.ofNat_toNat,
    UInt64.ofNat_toNat]

/-- The loop appends the records. -/
private theorem write_records_eq {records : List Record} {schedule : List outcome_t} (file : File) {iterator n : Nat}
    (hn : iterator + n = records.length) (hall : ∀ o ∈ schedule, o.transfers) (hend : file.pos = file.bytes.length) :
    ∃ pos, write_records records schedule file iterator n =
      some ⟨file.bytes ++ (records.drop iterator).flatMap Record.bytes, pos⟩ := by
  induction n generalizing schedule file iterator with
  | zero =>
    refine ⟨file.pos, ?_⟩
    rw [write_records, List.drop_eq_nil_of_le (by omega), List.flatMap_nil, List.append_nil]
  | succ n ih =>
    have hlt : iterator < records.length := by omega
    obtain ⟨rest, hrest, hwrite⟩ := write_all_eq file hall hend records[iterator].bytes
    rw [Record.length_bytes] at hwrite
    have hnext : iterator + 1 + n = records.length := by omega
    obtain ⟨pos, hrun⟩ := ih ⟨_, (file.bytes ++ records[iterator].bytes).length⟩ hnext hrest rfl
    refine ⟨pos, ?_⟩
    rw [write_records, List.getElem?_eq_getElem hlt]
    rw [Option.bind_eq_bind, Option.bind_some, hwrite]
    rw [Option.bind_eq_bind, Option.bind_some]
    dsimp only
    rw [hrun, List.drop_eq_getElem_cons hlt, List.flatMap_cons, List.append_assoc]

/-- Reading what is there to the variable `record`, whatever it held. -/
private theorem read_records_eq {records : List Record} {schedule : List outcome_t} {file : File} (record : Record)
    (hall : ∀ o ∈ schedule, o.transfers) (hrest : file.bytes.drop file.pos = records.flatMap Record.bytes) :
    read_records schedule file record records.length = some records := by
  induction records generalizing schedule file record with
  | nil => rfl
  | cons first records ih =>
    obtain ⟨rest, hall', hread⟩ := read_all_eq hall file record.bytes Record.size
    have hdata : slice file.bytes file.pos Record.size = first.bytes := by
      rw [slice, hrest, List.flatMap_cons, List.take_left' first.length_bytes]
    have hnext : file.bytes.drop (file.pos + (slice file.bytes file.pos Record.size).length) =
        records.flatMap Record.bytes := by
      rw [hdata, ← List.drop_drop, hrest, List.flatMap_cons, List.drop_left]
    have hmemory : write_at record.bytes 0 first.bytes = first.bytes := write_at_whole (by simp)
    have hbytes : (read file Record.size).2 = first.bytes := hdata
    rw [List.length_cons, read_records, hread]
    rw [Option.bind_eq_bind, Option.bind_some]
    dsimp only
    rw [hbytes, if_neg (by simp), hmemory, Record.of_bytes_bytes, ih first hall' hnext]
    rfl

/-- The file that holds the count and the records. -/
def file_bytes (n : UInt32) (records : List Record) : List UInt8 :=
  le_bytes 4 n.toNat ++ records.flatMap Record.bytes

theorem write_file_eq {schedule : List outcome_t} (hall : ∀ o ∈ schedule, o.transfers) {records : List Record}
    {n : UInt32} (hn : n.toNat = records.length) :
    ∃ pos, write_file schedule n records = some ⟨file_bytes n records, pos⟩ := by
  obtain ⟨rest, hrest, hwrite⟩ := write_all_eq ⟨[], 0⟩ hall rfl (le_bytes 4 n.toNat)
  rw [length_le_bytes, List.nil_append] at hwrite
  have hrecords : 0 + n.toNat = records.length := by omega
  obtain ⟨pos, hrun⟩ := write_records_eq ⟨_, (le_bytes 4 n.toNat).length⟩ hrecords hrest rfl
  refine ⟨pos, ?_⟩
  rw [write_file, hwrite]
  exact hrun

theorem read_file_eq {schedule : List outcome_t} (hall : ∀ o ∈ schedule, o.transfers) {records : List Record}
    {n : UInt32} (hn : n.toNat = records.length) (n_read : UInt32) (record : Record) :
    read_file schedule ⟨file_bytes n records, 0⟩ n_read record = some records := by
  obtain ⟨rest, hrest, hread⟩ := read_all_eq hall ⟨file_bytes n records, 0⟩ (le_bytes 4 n_read.toNat) 4
  have hheader : slice (file_bytes n records) 0 4 = le_bytes 4 n.toNat := by
    have h := slice_append_left (le_bytes 4 n.toNat) (records.flatMap Record.bytes)
    rwa [length_le_bytes] at h
  have hdata : (read ⟨file_bytes n records, 0⟩ 4).2 = le_bytes 4 n.toNat := hheader
  have hmemory : write_at (le_bytes 4 n_read.toNat) 0 (le_bytes 4 n.toNat) = le_bytes 4 n.toNat :=
    write_at_whole (by simp)
  have hcount : (UInt32.ofNat (le_nat (le_bytes 4 n.toNat))).toNat = records.length := by
    have hlt : n.toNat < 256 ^ 4 := n.toNat_lt
    rw [le_nat_le_bytes hlt, UInt32.ofNat_toNat, hn]
  have hnext : (file_bytes n records).drop (0 + (slice (file_bytes n records) 0 4).length) =
      records.flatMap Record.bytes := by
    rw [hheader, Nat.zero_add, file_bytes, List.drop_left]
  rw [read_file, hread]
  rw [Option.bind_eq_bind, Option.bind_some]
  dsimp only
  rw [hdata, if_neg (by simp), hmemory, hcount]
  exact read_records_eq record hrest hnext

/-- Partial transfers and interruptions leave no trace: the records written are read back,
and `read_all` at the end of a file returns the bytes that are there and their number. -/
theorem records_round_trip {writes reads : List outcome_t} (hwrites : ∀ o ∈ writes, o.transfers)
    (hreads : ∀ o ∈ reads, o.transfers) {records : List Record} {n : UInt32} (hn : n.toNat = records.length)
    (n_read : UInt32) (record : Record) :
    (∃ file, write_file writes n records = some file ∧
      read_file reads { file with pos := 0 } n_read record = some records) ∧
    ∀ (file : File) (buffer : List UInt8) (count : Nat), file.bytes.length - file.pos < count →
      ∃ rest file', read_all reads file buffer count =
        some ⟨rest, file', file.bytes.drop file.pos ++ buffer.drop (file.bytes.length - file.pos),
          file.bytes.length - file.pos⟩ := by
  constructor
  · obtain ⟨pos, hwrite⟩ := write_file_eq hwrites hn
    exact ⟨_, hwrite, read_file_eq hreads hn n_read record⟩
  · intro file buffer count hfew
    obtain ⟨rest, -, hrun⟩ := read_all_eq hreads file buffer count
    have hall : slice file.bytes file.pos count = file.bytes.drop file.pos := by
      rw [slice]
      exact List.take_of_length_le (by rw [List.length_drop]; omega)
    refine ⟨rest, (read file count).1, ?_⟩
    rw [hrun]
    simp only [clib.file.read, hall, write_at_zero, List.length_drop]

def two_records : List Record := [⟨7, 0, Vector.replicate 32 65⟩, ⟨8, 1, Vector.replicate 32 66⟩]

/-- The number and the first record go out in parts, and come back in others. -/
theorem two_records_round_trip :
    (∃ file, write_file [.moved 1, .eintr, .moved 2, .moved 30, .eintr] 2 two_records = some file ∧
      read_file [.eintr, .moved 3, .moved 40, .moved 4, .eintr] { file with pos := 0 } 0
        ⟨0, 0, Vector.replicate 32 0⟩ = some two_records) ∧
    ∀ (file : File) (buffer : List UInt8) (count : Nat), file.bytes.length - file.pos < count →
      ∃ rest file', read_all [.eintr, .moved 3, .moved 40, .moved 4, .eintr] file buffer count =
        some ⟨rest, file', file.bytes.drop file.pos ++ buffer.drop (file.bytes.length - file.pos),
          file.bytes.length - file.pos⟩ :=
  records_round_trip (by simp [outcome_t.transfers]) (by simp [outcome_t.transfers]) rfl 0 _

end csystems.low_level_file_io
