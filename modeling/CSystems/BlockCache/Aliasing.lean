import CSystems.Lib.Run
import CSystems.BlockCache.Blocks
import CSystems.BlockCache.Coherence

open clib.file clib.run

namespace csystems.block_cache

/-- One call, whatever its result. -/
def call_step (fs : filesystem_t) (c : call_t) : Option filesystem_t := (call fs c).map Prod.fst

/-- Where a call for the block starts on the disk when the file offset is `pos`.
Only the low 20 bits of the block id count. Half of their values make the offset
negative, so that `lseek` fails and the file offset stays. -/
def disk_start (pos : Nat) (block_id : Int32) : Nat :=
  if block_id.toInt % 2 ^ 20 < 2 ^ 19 then (block_id.toInt % 2 ^ 20).toNat * BLOCK_SIZE else pos

/-- Two blocks of the disk do not overlap. -/
def Apart (p q : Nat) : Prop := p + BLOCK_SIZE ≤ q ∨ q + BLOCK_SIZE ≤ p

instance (p q : Nat) : Decidable (Apart p q) := inferInstanceAs (Decidable (_ ∨ _))

/-- Whatever block is written as `a`, the bytes that an uncached `read_block` of
`b` takes from the disk stay what they were, where the file offset is `later` by
then. What is not on the disk counts as zeros, as in the hole that a write may
leave. -/
def LeavesBlock (fs : filesystem_t) (a b : Int32) (later : Nat) : Prop :=
  ∀ (now : Int64) (buffer : block_t), ∃ fs' result, write_block now fs a buffer.toList = some (fs', result) ∧
    ∀ i < BLOCK_SIZE, (disk_bytes { fs'.disk with pos := later } b).getD i 0 =
      (disk_bytes { fs.disk with pos := later } b).getD i 0

theorem lseek_block_offset (disk : File) (block_id : Int32) :
    lseek disk (block_offset block_id) = { disk with pos := disk_start disk.pos block_id } := by
  have hconst : (4096 : Int32).toInt = 4096 := by decide
  have hoffset : block_offset block_id = (block_id.toInt * 4096).bmod (2 ^ 32) := by
    rw [block_offset, Int32.toInt_mul, hconst]
  rw [Int.bmod_def] at hoffset
  unfold disk_start
  split
  · next hlow =>
    have hpos : block_offset block_id = ((block_id.toInt % 2 ^ 20).toNat * BLOCK_SIZE : Nat) := by
      rw [hoffset, show BLOCK_SIZE = 4096 from rfl]
      omega
    rw [hpos, lseek_of_nonneg _ (Int.natCast_nonneg _), Int.toNat_natCast]
  · next hhigh =>
    have hneg : block_offset block_id < 0 := by
      rw [hoffset]
      omega
    rw [lseek, if_pos hneg]

/-- Byte `i` of an uncached read. -/
theorem getD_disk_bytes (disk : File) (block_id : Int32) {i : Nat} (hi : i < BLOCK_SIZE) :
    (disk_bytes disk block_id).getD i 0 = disk.bytes.getD (disk_start disk.pos block_id + i) 0 := by
  rw [disk_bytes, lseek_block_offset]
  exact getD_slice disk.bytes _ hi

/-- A write changes exactly the bytes of its own block. -/
theorem write_at_leaves_iff (bytes : List UInt8) (p q : Nat) :
    (∀ buffer : block_t, ∀ i < BLOCK_SIZE,
      (write_at bytes p buffer.toList).getD (q + i) 0 = bytes.getD (q + i) 0) ↔ Apart p q := by
  constructor
  · intro hleaves
    by_contra hnot
    unfold Apart at hnot
    obtain ⟨i, hi, hinside⟩ : ∃ i < BLOCK_SIZE, p ≤ q + i ∧ q + i < p + BLOCK_SIZE := by
      by_cases hle : p ≤ q
      · exact ⟨0, by decide, by omega, by omega⟩
      · exact ⟨p - q, by omega, by omega, by omega⟩
    -- a block of a byte that is not there yet
    have hbyte := hleaves (Vector.replicate BLOCK_SIZE (bytes.getD (q + i) 0 + 1)) i hi
    rw [getD_write_at, if_pos (by simpa using hinside), Vector.toList_replicate, List.getD_eq_getElem?_getD,
      List.getElem?_replicate_of_lt (by omega), Option.getD_some] at hbyte
    exact absurd hbyte (by simp)
  · intro hapart buffer i hi
    have hlength : buffer.toList.length = BLOCK_SIZE := buffer.length_toList
    unfold Apart at hapart
    rw [getD_write_at, if_neg (by omega)]

theorem filesystem_t.Serves.leavesBlock_iff {fs : filesystem_t} {entries : List cached_t} (h : fs.Serves entries)
    (a b : Int32) (later : Nat) :
    LeavesBlock fs a b later ↔ Apart (disk_start fs.disk.pos a) (disk_start later b) := by
  rw [← write_at_leaves_iff fs.disk.bytes]
  have hbytes (now : Int64) (buffer : block_t) : ∃ fs' result,
      write_block now fs a buffer.toList = some (fs', result) ∧
        fs'.disk.bytes = write_at fs.disk.bytes (disk_start fs.disk.pos a) buffer.toList := by
    obtain ⟨fs', hrun, hdisk, -⟩ := h.write now a buffer.length_toList
    refine ⟨fs', _, hrun, ?_⟩
    rw [hdisk, lseek_block_offset]
    rfl
  constructor
  · intro hleaves buffer i hi
    obtain ⟨fs', result, hrun, hsame⟩ := hleaves 0 buffer
    obtain ⟨fs'', result', hrun', hdisk⟩ := hbytes 0 buffer
    rw [hrun'] at hrun
    cases hrun
    have hbyte := hsame i hi
    rw [getD_disk_bytes _ _ hi, getD_disk_bytes _ _ hi] at hbyte
    rwa [← hdisk]
  · intro hleaves now buffer
    obtain ⟨fs', result, hrun, hdisk⟩ := hbytes now buffer
    refine ⟨fs', result, hrun, ?_⟩
    intro i hi
    rw [getD_disk_bytes _ _ hi, getD_disk_bytes _ _ hi]
    dsimp only
    rw [hdisk]
    exact hleaves buffer i hi

/-- Where both offsets fit, blocks overlap exactly when their ids agree modulo
2^20. -/
theorem apart_iff_of_low {a b : Int32} (ha : a.toInt % 2 ^ 20 < 2 ^ 19) (hb : b.toInt % 2 ^ 20 < 2 ^ 19)
    (pos later : Nat) : Apart (disk_start pos a) (disk_start later b) ↔ a.toInt % 2 ^ 20 ≠ b.toInt % 2 ^ 20 := by
  rw [disk_start, disk_start, if_pos ha, if_pos hb]
  unfold Apart BLOCK_SIZE
  omega

/-- Distinct ids below 2^19 do not alias. -/
theorem apart_of_inRange {a b : Int32} (ha : InRange a) (hb : InRange b) (hne : a ≠ b) (pos later : Nat) :
    Apart (disk_start pos a) (disk_start later b) := by
  obtain ⟨ha, ha'⟩ := ha
  obtain ⟨hb, hb'⟩ := hb
  have hids : a.toInt ≠ b.toInt := fun heq => hne (Int32.toInt_inj.mp heq)
  rw [apart_iff_of_low (by omega) (by omega)]
  omega

theorem reachable_serves {memory : Nat → block_t} {image : List UInt8} {fs : filesystem_t}
    (hfs : Reachable call_step (create_filesystem memory image) fs) : ∃ entries, fs.Serves entries := by
  refine hfs.invariant (P := fun fs => ∃ entries, fs.Serves entries) ⟨_, create_filesystem_serves memory image⟩ ?_
  rintro fs fs' c ⟨entries, h⟩ hstep
  obtain ⟨fs'', result, entries', hcall, h'⟩ := h.call c
  rw [call_step, hcall] at hstep
  cases hstep
  exact ⟨entries', h'⟩

/-- Without a cached copy `read_block` answers with what it takes from the disk, or
fails where the disk ends. -/
theorem read_block_uncached {memory : Nat → block_t} {image : List UInt8} {fs : filesystem_t}
    (hfs : Reachable call_step (create_filesystem memory image) fs) {block_id : Int32} {now : Int64} {cache : cache_t}
    (hmiss : cache_get now fs.cache (cache_key block_id) = some (cache, none)) (buffer : block_t) :
    ∃ fs', read_block now fs block_id buffer.toList = some (fs',
      if (disk_bytes fs.disk block_id).length = BLOCK_SIZE then { status := 0, buffer := disk_bytes fs.disk block_id }
      else { status := -1, buffer := buffer.toList }) := by
  obtain ⟨entries, h⟩ := reachable_serves hfs
  obtain ⟨cache', hget, -⟩ := cache_get_spec h.holds now (cache_key block_id)
  rw [hmiss] at hget
  have hfind : find_entry (cache_key block_id) entries = none := by
    have hdata := (Prod.mk.inj (Option.some.inj hget)).2
    exact Option.map_eq_none_iff.mp hdata.symm
  obtain ⟨fs', hread⟩ := h.read_miss now hfind buffer.length_toList
  refine ⟨fs', ?_⟩
  split at hread
  · next hfull => rw [if_pos hfull, hread.1]
  · next hshort => rw [if_neg hshort, hread.1]

/-- In a file system that any calls led to, writing block `a` leaves the bytes that
an uncached read of block `b` takes from the disk, from whatever file offset,
exactly if the places on the disk that the two calls reach do not overlap. -/
theorem blocks_unaliased_iff {memory : Nat → block_t} {image : List UInt8} {fs : filesystem_t}
    (hfs : Reachable call_step (create_filesystem memory image) fs) (a b : Int32) (later : Nat) :
    LeavesBlock fs a b later ↔ Apart (disk_start fs.disk.pos a) (disk_start later b) := by
  obtain ⟨entries, h⟩ := reachable_serves hfs
  exact h.leavesBlock_iff a b later

theorem blocks_unaliased_iff_far :
    LeavesBlock (create_filesystem (fun _ => Vector.replicate _ 0) []) 1048579 600000 8192 ↔
      Apart (disk_start 0 1048579) (disk_start 8192 600000) :=
  blocks_unaliased_iff .start 1048579 600000 8192

/-- On a disk of one block, block 1048576 is written over block 0. -/
theorem block_1048576_aliases :
    ¬ ∀ a b : Int32, 0 ≤ a.toInt → 0 ≤ b.toInt → a ≠ b → ∀ later,
      LeavesBlock (create_filesystem (fun _ => Vector.replicate _ 0) (List.replicate BLOCK_SIZE 0)) a b later := by
  intro hall
  have hleaves := hall 1048576 0 (by decide) (by decide) (by decide) 4096
  rw [(create_filesystem_serves _ _).leavesBlock_iff] at hleaves
  exact absurd hleaves (by decide)

end csystems.block_cache
