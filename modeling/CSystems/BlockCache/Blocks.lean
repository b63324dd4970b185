import CSystems.BlockCache.BufferPool
import CSystems.BlockCache.Recency

open clib.string clib.file

namespace csystems.block_cache

/-- The blocks the cache has space for. -/
def CACHE_BLOCKS : Nat := MAX_CACHE_SIZE / BLOCK_SIZE

/-- The bytes that `read_block` takes from the disk for a block that is not
cached. -/
def disk_bytes (disk : File) (block_id : Int32) : List UInt8 :=
  (read (lseek disk (block_offset block_id)) BLOCK_SIZE).2

theorem length_disk_bytes_le (disk : File) (block_id : Int32) : (disk_bytes disk block_id).length ≤ BLOCK_SIZE := by
  unfold disk_bytes clib.file.read
  dsimp only
  rw [length_slice]
  omega

/-- What any call relies on, for whatever block ids: the cache holds whole blocks
and the pool has a free buffer. -/
structure filesystem_t.Serves (fs : filesystem_t) (entries : List cached_t) : Prop where
  holds : Holds fs.cache entries
  max_size : fs.cache.max_size = MAX_CACHE_SIZE
  ready : fs.buffer_pool.Ready
  block : ∀ e ∈ entries, e.size = BLOCK_SIZE ∧ e.data.length = BLOCK_SIZE

theorem create_filesystem_serves (memory : Nat → block_t) (image : List UInt8) :
    (create_filesystem memory image).Serves [] where
  holds := create_cache_holds (by decide) (by decide)
  max_size := rfl
  ready := create_buffer_pool_ready memory (by decide)
  block := by simp

/-- The entries after a block is put. -/
def put_entry (block_id : Int32) (data : List UInt8) (entries : List cached_t) : List cached_t :=
  { key := c_str (cache_key block_id), data := data, size := BLOCK_SIZE } :: entries.take (CACHE_BLOCKS - 1)

section Serves

variable {fs : filesystem_t} {entries : List cached_t} (h : fs.Serves entries) (now : Int64) {block_id : Int32}

include h

/-- Putting a block drops the least recently used one from a full cache. -/
theorem filesystem_t.Serves.put (block_id : Int32) {data : List UInt8} (hdata : data.length = BLOCK_SIZE) :
    ∃ cache', cache_put now fs.cache (cache_key block_id) data BLOCK_SIZE = some cache' ∧
      { fs with cache := cache' }.Serves (put_entry block_id data entries) := by
  have hmax : fs.cache.max_size = (CACHE_BLOCKS - 1 + 1) * BLOCK_SIZE := by rw [h.max_size]; decide
  have hwrap : fs.cache.max_size + BLOCK_SIZE < SIZE_MOD := by rw [h.max_size]; decide
  obtain ⟨cache', hput, hholds, hmax'⟩ :=
    cache_put_uniform h.holds (fun e he => (h.block e he).1) (by decide) hmax hwrap now (cache_key block_id) data
  rw [List.take_of_length_le (by omega)] at hholds
  refine ⟨cache', hput, hholds, hmax'.trans h.max_size, h.ready, ?_⟩
  intro e he
  obtain rfl | he := List.mem_cons.mp he
  · exact ⟨rfl, hdata⟩
  · exact h.block e (List.mem_of_mem_take he)

theorem filesystem_t.Serves.write (block_id : Int32) {buffer : List UInt8} (hbuffer : buffer.length = BLOCK_SIZE) :
    ∃ fs', write_block now fs block_id buffer = some (fs', { status := 0, buffer := buffer }) ∧
      fs'.disk = write (lseek fs.disk (block_offset block_id)) buffer ∧
      fs'.Serves (put_entry block_id buffer entries) := by
  obtain ⟨cache, hput, h'⟩ := h.put now block_id hbuffer
  obtain ⟨pool, hrun, hready, -⟩ := write_block_eq h.ready hbuffer hput
  exact ⟨_, hrun, rfl, h'.holds, h'.max_size, hready, h'.block⟩

theorem filesystem_t.Serves.read_hit {e : cached_t} (hfind : find_entry (cache_key block_id) entries = some e)
    {buffer : List UInt8} (hbuffer : buffer.length = BLOCK_SIZE) :
    ∃ fs', read_block now fs block_id buffer = some (fs', { status := 0, buffer := e.data }) ∧
      fs'.Serves (touch_entry (cache_key block_id) entries) := by
  obtain ⟨cache, hget, hholds, hmax⟩ := cache_get_spec h.holds now (cache_key block_id)
  rw [hfind] at hget
  have hrun := read_block_hit hget (h.block e (List.mem_of_find?_eq_some hfind)).2 hbuffer
  rw [List.drop_eq_nil_of_le (by omega), List.append_nil] at hrun
  refine ⟨_, hrun, hholds, hmax.trans h.max_size, h.ready, ?_⟩
  intro e' he'
  rw [touch_entry, hfind] at he'
  obtain rfl | he' := List.mem_cons.mp he'
  · exact h.block e' (List.mem_of_find?_eq_some hfind)
  · exact h.block e' (List.mem_of_mem_eraseP he')

/-- An uncached block is read from the disk and cached, or the disk ends before
the block does. -/
theorem filesystem_t.Serves.read_miss (hfind : find_entry (cache_key block_id) entries = none)
    {buffer : List UInt8} (hbuffer : buffer.length = BLOCK_SIZE) :
    ∃ fs', if (disk_bytes fs.disk block_id).length = BLOCK_SIZE then
        read_block now fs block_id buffer = some (fs', { status := 0, buffer := disk_bytes fs.disk block_id }) ∧
          fs'.Serves (put_entry block_id (disk_bytes fs.disk block_id) entries)
      else read_block now fs block_id buffer = some (fs', { status := -1, buffer := buffer }) ∧
        fs'.Serves entries := by
  obtain ⟨cache, hget, hholds, hmax⟩ := cache_get_spec h.holds now (cache_key block_id)
  rw [hfind] at hget
  rw [touch_entry, hfind] at hholds
  have hmiss : { fs with cache := cache }.Serves entries := ⟨hholds, hmax.trans h.max_size, h.ready, h.block⟩
  obtain ⟨disk, hread⟩ : ∃ disk,
      read (lseek fs.disk (block_offset block_id)) BLOCK_SIZE = (disk, disk_bytes fs.disk block_id) := ⟨_, rfl⟩
  by_cases hfull : (disk_bytes fs.disk block_id).length = BLOCK_SIZE
  · obtain ⟨cache', hput, h'⟩ := hmiss.put now block_id hfull
    obtain ⟨pool, hrun, hready, -⟩ := read_block_full h.ready hget hread hfull hbuffer hput
    rw [List.drop_eq_nil_of_le (by omega), List.append_nil] at hrun
    simp only [if_pos hfull]
    exact ⟨_, hrun, h'.holds, h'.max_size, hready, h'.block⟩
  · have hshort := Nat.lt_of_le_of_ne (length_disk_bytes_le fs.disk block_id) hfull
    obtain ⟨pool, hrun, hready, -⟩ := read_block_short h.ready hget hread hshort
    simp only [if_neg hfull]
    exact ⟨_, hrun, hholds, hmax.trans h.max_size, hready, h.block⟩

/-- Every call goes through and serves the next one. -/
theorem filesystem_t.Serves.call (c : call_t) :
    ∃ fs' result entries', call fs c = some (fs', result) ∧ fs'.Serves entries' := by
  cases c with
  | read now block_id buffer =>
    have hbuffer : buffer.toList.length = BLOCK_SIZE := buffer.length_toList
    cases hfind : find_entry (cache_key block_id) entries with
    | some e =>
      obtain ⟨fs', hrun, h'⟩ := h.read_hit now hfind hbuffer
      exact ⟨fs', _, _, hrun, h'⟩
    | none =>
      obtain ⟨fs', hmiss⟩ := h.read_miss now hfind hbuffer
      split at hmiss
      · exact ⟨fs', _, _, hmiss.1, hmiss.2⟩
      · exact ⟨fs', _, _, hmiss.1, hmiss.2⟩
  | write now block_id buffer =>
    obtain ⟨fs', hrun, -, h'⟩ := h.write now block_id buffer.length_toList
    exact ⟨fs', _, _, hrun, h'⟩

end Serves

end csystems.block_cache
