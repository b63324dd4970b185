import Mathlib.Data.List.Basic
import Mathlib.Data.List.Infix

namespace clib.file

/-- An open file: its contents and the file offset. -/
structure File where
  bytes : List UInt8
  pos : Nat

/-- `lseek(fd, offset, SEEK_SET)`; a negative offset is refused. -/
def lseek (file : File) (offset : Int) : File :=
  if offset < 0 then file else { file with pos := offset.toNat }

/-- The `count` bytes from offset `pos` on, or as many as there are. -/
def slice (bytes : List UInt8) (pos count : Nat) : List UInt8 := (bytes.drop pos).take count

/-- `read(fd, buf, count)`: the bytes transferred. -/
def read (file : File) (count : Nat) : File × List UInt8 :=
  let data := slice file.bytes file.pos count
  ({ file with pos := file.pos + data.length }, data)

/-- Overwriting from offset `pos` on; a gap after the end is filled with zeros. -/
def write_at (bytes : List UInt8) (pos : Nat) (data : List UInt8) : List UInt8 :=
  (bytes ++ List.replicate (pos - bytes.length) 0).take pos ++ data ++ bytes.drop (pos + data.length)

/-- `write(fd, buf, count)` of the given bytes. -/
def write (file : File) (data : List UInt8) : File :=
  { bytes := write_at file.bytes file.pos data, pos := file.pos + data.length }

theorem lseek_of_nonneg (file : File) {offset : Int} (h : 0 ≤ offset) :
    lseek file offset = { file with pos := offset.toNat } := by
  rw [lseek, if_neg (by omega)]

theorem length_slice (bytes : List UInt8) (pos count : Nat) :
    (slice bytes pos count).length = min count (bytes.length - pos) := by
  simp [slice]

theorem getElem?_slice (bytes : List UInt8) (pos count i : Nat) :
    (slice bytes pos count)[i]? = if i < count then bytes[pos + i]? else none := by
  rw [slice, List.getElem?_take]
  split
  · rw [List.getElem?_drop]
  · rfl

theorem slice_append_right {first : List UInt8} {pos : Nat} (second : List UInt8) (h : first.length ≤ pos)
    (count : Nat) :
    slice (first ++ second) pos count = slice second (pos - first.length) count := by
  rw [slice, List.drop_append, List.drop_eq_nil_of_le h, List.nil_append, slice]

theorem slice_append_left (first second : List UInt8) : slice (first ++ second) 0 first.length = first := by
  rw [slice, List.drop_zero, List.take_left']
  rfl

theorem slice_add (bytes : List UInt8) (pos first second : Nat) :
    slice bytes pos (first + second) = slice bytes pos first ++ slice bytes (pos + first) second := by
  rw [slice, List.take_add, List.drop_drop, slice, slice]

/-- The bytes that are there are asked for alone. -/
theorem slice_length_slice (bytes : List UInt8) (pos count : Nat) :
    slice bytes pos (slice bytes pos count).length = slice bytes pos count := by
  rw [length_slice, slice, slice, List.take_eq_take_iff, List.length_drop]
  omega

theorem take_append_slice (bytes : List UInt8) (pos count : Nat) :
    bytes.take pos ++ slice bytes pos count = bytes.take (pos + (slice bytes pos count).length) := by
  rw [List.take_add, ← slice, slice_length_slice]

theorem read_zero (file : File) : read file 0 = (file, []) := by
  rw [read, slice, List.take_zero]
  rfl

/-- After a read that found no byte no read finds one. -/
theorem read_of_eof {file : File} {count : Nat} (hcount : 0 < count) (h : (read file count).2.length = 0)
    (count' : Nat) : read file count' = (file, []) := by
  have hlen := length_slice file.bytes file.pos count
  have hlen' := length_slice file.bytes file.pos count'
  have hempty : (slice file.bytes file.pos count).length = 0 := h
  have hnil : slice file.bytes file.pos count' = [] := List.length_eq_zero_iff.mp (by omega)
  rw [read, hnil]
  rfl

/-- A read that stopped early and the read of the rest are one read. -/
theorem read_read (file : File) {first count : Nat} (hle : first ≤ count) :
    let before := read file first
    let after := read before.1 (count - before.2.length)
    read file count = (after.1, before.2 ++ after.2) := by
  have hlen := length_slice file.bytes file.pos first
  have hcount :
      (slice file.bytes file.pos first).length + (count - (slice file.bytes file.pos first).length) = count := by
    omega
  have hslice := slice_add file.bytes file.pos (slice file.bytes file.pos first).length
    (count - (slice file.bytes file.pos first).length)
  rw [hcount, slice_length_slice] at hslice
  simp only [read, hslice, List.length_append, Nat.add_assoc]

private theorem length_head (bytes : List UInt8) (pos : Nat) :
    ((bytes ++ List.replicate (pos - bytes.length) (0 : UInt8)).take pos).length = pos := by
  rw [List.length_take, List.length_append, List.length_replicate]
  omega

/-- A write never shortens the file. -/
theorem length_write_at (bytes : List UInt8) (pos : Nat) (data : List UInt8) :
    (write_at bytes pos data).length = max bytes.length (pos + data.length) := by
  rw [write_at, List.length_append, List.length_append, length_head, List.length_drop]
  omega

/-- What was written is read back. -/
theorem slice_write_at_self (bytes : List UInt8) (pos : Nat) (data : List UInt8) :
    slice (write_at bytes pos data) pos data.length = data := by
  have hhead := length_head bytes pos
  rw [slice, write_at, List.append_assoc, List.drop_append_of_le_length (by omega), List.drop_eq_nil_of_le (by omega),
    List.nil_append, List.take_left]

private theorem getElem?_write_at_of_lt {bytes : List UInt8} {pos i : Nat} (data : List UInt8) (hi : i < pos)
    (hlen : i < bytes.length) : (write_at bytes pos data)[i]? = bytes[i]? := by
  have hhead := length_head bytes pos
  rw [write_at, List.append_assoc, List.getElem?_append_left (by omega), List.getElem?_take_of_lt hi,
    List.getElem?_append_left hlen]

private theorem getElem?_write_at_of_ge {bytes : List UInt8} {pos i : Nat} {data : List UInt8}
    (hi : pos + data.length ≤ i) : (write_at bytes pos data)[i]? = bytes[i]? := by
  have hhead := length_head bytes pos
  rw [write_at, List.getElem?_append_right (by rw [List.length_append]; omega), List.length_append, hhead,
    List.getElem?_drop]
  congr 1
  omega

/-- The file after a write, byte by byte; past its end a file reads as zeros. -/
theorem getD_write_at (bytes : List UInt8) (pos : Nat) (data : List UInt8) (i : Nat) :
    (write_at bytes pos data).getD i 0 =
      if pos ≤ i ∧ i < pos + data.length then data.getD (i - pos) 0 else bytes.getD i 0 := by
  have hhead := length_head bytes pos
  rw [List.getD_eq_getElem?_getD, List.getD_eq_getElem?_getD, List.getD_eq_getElem?_getD]
  by_cases hbefore : i < pos
  · rw [if_neg (by omega)]
    by_cases hlen : i < bytes.length
    · rw [getElem?_write_at_of_lt data hbefore hlen]
    · rw [write_at, List.append_assoc, List.getElem?_append_left (by omega), List.getElem?_take_of_lt hbefore,
        List.getElem?_append_right (by omega), List.getElem?_replicate_of_lt (by omega),
        List.getElem?_eq_none (by omega)]
      rfl
  · by_cases hafter : pos + data.length ≤ i
    · rw [if_neg (by omega), getElem?_write_at_of_ge hafter]
    · rw [if_pos (by omega), write_at, List.append_assoc, List.getElem?_append_right (by omega), hhead,
        List.getElem?_append_left (by omega)]

/-- Files of one length are told apart by their bytes. -/
theorem eq_of_getD {bytes bytes' : List UInt8} (hlength : bytes.length = bytes'.length)
    (hbytes : ∀ i, bytes.getD i 0 = bytes'.getD i 0) : bytes = bytes' := by
  apply List.ext_getElem hlength
  intro i hi hi'
  have hbyte := hbytes i
  rwa [List.getD_eq_getElem?_getD, List.getD_eq_getElem?_getD, List.getElem?_eq_getElem hi, List.getElem?_eq_getElem hi']
    at hbyte

/-- Writes that do not overlap may come in either order. -/
theorem write_at_comm (bytes : List UInt8) {pos pos' : Nat} {data data' : List UInt8}
    (h : pos + data.length ≤ pos' ∨ pos' + data'.length ≤ pos) :
    write_at (write_at bytes pos data) pos' data' = write_at (write_at bytes pos' data') pos data := by
  apply eq_of_getD
  · rw [length_write_at, length_write_at, length_write_at, length_write_at]
    omega
  · intro i
    rw [getD_write_at, getD_write_at, getD_write_at, getD_write_at]
    by_cases hfirst : pos ≤ i ∧ i < pos + data.length
    · rw [if_pos hfirst, if_pos hfirst, if_neg (by omega)]
    · rw [if_neg hfirst, if_neg hfirst]

theorem getD_slice (bytes : List UInt8) (pos : Nat) {count i : Nat} (hi : i < count) :
    (slice bytes pos count).getD i 0 = bytes.getD (pos + i) 0 := by
  rw [List.getD_eq_getElem?_getD, getElem?_slice, if_pos hi, List.getD_eq_getElem?_getD]

/-- A write leaves every part of the file it does not overlap. -/
theorem slice_write_at_of_disjoint {bytes : List UInt8} {pos : Nat} {data : List UInt8} {pos' count : Nat}
    (hinside : pos' + count ≤ bytes.length) (hdisjoint : pos' + count ≤ pos ∨ pos + data.length ≤ pos') :
    slice (write_at bytes pos data) pos' count = slice bytes pos' count := by
  apply List.ext_getElem?
  intro i
  rw [getElem?_slice, getElem?_slice]
  split
  · rcases hdisjoint with hbefore | hafter
    · exact getElem?_write_at_of_lt data (by omega) (by omega)
    · exact getElem?_write_at_of_ge (by omega)
  · rfl

theorem write_at_append (before after data : List UInt8) :
    write_at (before ++ after) before.length data = before ++ data ++ after.drop data.length := by
  rw [write_at, List.append_assoc before after, List.take_left, List.drop_append, List.drop_eq_nil_of_le (by omega),
    List.nil_append, Nat.add_sub_cancel_left]

theorem write_at_nil {bytes : List UInt8} {pos : Nat} (h : pos ≤ bytes.length) : write_at bytes pos [] = bytes := by
  rw [write_at, Nat.sub_eq_zero_of_le h, List.replicate_zero, List.append_nil, List.append_nil, List.length_nil,
    Nat.add_zero, List.take_append_drop]

/-- A write at the end of the file appends. -/
theorem write_at_end (bytes data : List UInt8) : write_at bytes bytes.length data = bytes ++ data := by
  have hsplit := write_at_append bytes [] data
  rwa [List.append_nil, List.drop_nil, List.append_nil] at hsplit

/-- Two writes in a row are one write of both. -/
theorem write_at_write_at (bytes : List UInt8) (pos : Nat) (first second : List UInt8) :
    write_at (write_at bytes pos first) (pos + first.length) second = write_at bytes pos (first ++ second) := by
  have hlen : pos + first.length = ((bytes ++ List.replicate (pos - bytes.length) 0).take pos ++ first).length := by
    rw [List.length_append, length_head]
  rw [write_at.eq_1 bytes pos first, hlen, write_at_append, ← hlen, List.drop_drop, write_at, List.length_append,
    Nat.add_assoc, List.append_assoc _ first second]

theorem write_write (file : File) (first second : List UInt8) :
    write (write file first) second = write file (first ++ second) := by
  simp only [write, write_at_write_at, List.length_append, Nat.add_assoc]

theorem write_at_zero (bytes data : List UInt8) : write_at bytes 0 data = data ++ bytes.drop data.length :=
  write_at_append [] bytes data

/-- Data as long as what is there replaces it. -/
theorem write_at_whole {bytes data : List UInt8} (h : bytes.length ≤ data.length) : write_at bytes 0 data = data := by
  rw [write_at_zero, List.drop_eq_nil_of_le h, List.append_nil]

/-- A file open at its end grows by what is written, and stays open at its end. -/
theorem write_end {file : File} (h : file.pos = file.bytes.length) (data : List UInt8) :
    write file data = ⟨file.bytes ++ data, (file.bytes ++ data).length⟩ := by
  rw [write, h, write_at_end, List.length_append]

end clib.file

namespace clib.stream

/-! Reads from a byte stream, and comparisons of what they leave in a buffer. -/

/-- One way in which a stream is split into reads of at most `room` bytes. -/
structure Segmentation {α : Type} (stream : List α) (room : Nat) where
  reads : List (List α)
  nonempty : ∀ r ∈ reads, r ≠ []
  fits : ∀ r ∈ reads, r.length ≤ room
  complete : reads.flatten = stream

/-- The buffer after a read: bytes beyond those read are kept. -/
def fill {α : Type} (buffer r : List α) : List α := r ++ buffer.drop r.length

/-- `strncmp`, comparing unsigned bytes up to the first difference, a common terminator or
`count`. The end of a buffer terminates its string. -/
def strncmp : Nat → List UInt8 → List UInt8 → Int
  | 0, _, _ => 0
  | _ + 1, [], [] => 0
  | _ + 1, [], b :: _ => -(b.toNat : Int)
  | _ + 1, a :: _, [] => a.toNat
  | count + 1, a :: s, b :: t =>
    if a = b then (if a = 0 then 0 else strncmp count s t) else (a.toNat : Int) - b.toNat

/-- A comparison with a whole word tests for a prefix. -/
theorem strncmp_eq_zero_iff (word : List UInt8) (hword : 0 ∉ word) (s : List UInt8) :
    strncmp word.length s word = 0 ↔ word <+: s := by
  induction word generalizing s with
  | nil => simp [strncmp]
  | cons b word ih =>
    have hb : b ≠ 0 := fun h => hword (by simp [h])
    have hpos : b.toNat ≠ 0 := fun h => hb (UInt8.toNat_inj.mp h)
    cases s with
    | nil => simp [strncmp, hpos]
    | cons a s =>
      by_cases hab : a = b
      · subst hab
        simp [strncmp, hb, ih (fun h => hword (by simp [h]))]
      · have hnat : a.toNat ≠ b.toNat := fun h => hab (UInt8.toNat_inj.mp h)
        have hne : ¬ b = a := fun h => hab h.symm
        simp only [List.length_cons, strncmp, if_neg hab, List.cons_prefix_cons, hne, false_and, iff_false]
        omega

end clib.stream
