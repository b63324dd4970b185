import CSystems.BlockCache.FileSystem

open clib.file

namespace csystems.block_cache

/-- Some buffer is free, and the free list names buffers of one block each. -/
structure buffer_pool_t.Ready (pool : buffer_pool_t) : Prop where
  free_pos : 0 < pool.free_count
  free_le : pool.free_count ≤ pool.free_list.length
  index_lt : ∀ i ∈ pool.free_list, i < pool.buffers.length
  block : ∀ b ∈ pool.buffers, b.data.length = BLOCK_SIZE

/-- `pool'` is `pool` with its last free buffer handed out. -/
structure buffer_pool_t.Lent (pool pool' : buffer_pool_t) (buf : Nat) : Prop where
  free_list : pool'.free_list = pool.free_list
  free_count : pool'.free_count + 1 = pool.free_count
  index : pool.free_list[pool'.free_count]? = some buf
  length : pool'.buffers.length = pool.buffers.length
  block : ∀ b ∈ pool'.buffers, b.data.length = BLOCK_SIZE
  held : ∃ b, pool'.buffers[buf]? = some b ∧ b.ref_count = 1

theorem create_buffer_pool_ready (memory : Nat → block_t) {size : Nat} (hsize : 0 < size) :
    (create_buffer_pool memory size).Ready := by
  refine ⟨hsize, by simp [create_buffer_pool], by simp [create_buffer_pool], ?_⟩
  intro b hb
  simp only [create_buffer_pool, List.mem_map] at hb
  obtain ⟨i, -, rfl⟩ := hb
  exact Vector.length_toList

private theorem block_set {buffers : List buffer_t} (h : ∀ b ∈ buffers, b.data.length = BLOCK_SIZE) {b : buffer_t}
    (hb : b.data.length = BLOCK_SIZE) (i : Nat) : ∀ b' ∈ buffers.set i b, b'.data.length = BLOCK_SIZE := by
  intro b' hb'
  rcases List.mem_or_eq_of_mem_set hb' with hmem | rfl
  · exact h b' hmem
  · exact hb

section Lend

variable {pool pool' : buffer_pool_t} {buf : Nat}

theorem get_buffer_spec (h : pool.Ready) :
    ∃ pool' buf, get_buffer pool = some (pool', some buf) ∧ pool.Lent pool' buf := by
  have hpos := h.free_pos
  have hle := h.free_le
  have hlt : pool.free_count - 1 < pool.free_list.length := by omega
  have hindex := List.getElem?_eq_getElem hlt
  have hbuf : pool.free_list[pool.free_count - 1] < pool.buffers.length := h.index_lt _ (List.getElem_mem hlt)
  have hget := List.getElem?_eq_getElem hbuf
  have hdata := h.block _ (List.getElem_mem hbuf)
  refine ⟨{ pool with
    free_count := pool.free_count - 1
    buffers := pool.buffers.set pool.free_list[pool.free_count - 1]
      { pool.buffers[pool.free_list[pool.free_count - 1]] with ref_count := 1 } },
    pool.free_list[pool.free_count - 1], ?_, ?_⟩
  · rw [get_buffer, if_neg (by omega)]
    simp only [Option.bind_eq_bind, hindex, Option.bind_some, hget]
  · refine ⟨rfl, Nat.sub_add_cancel hpos, hindex, List.length_set, ?_, ?_⟩
    · refine block_set h.block ?_ _
      exact hdata
    · exact ⟨_, List.getElem?_set_self hbuf, rfl⟩

/-- Stores to the buffer that is handed out. -/
theorem buffer_pool_t.Lent.set_buffer (h : pool.Lent pool' buf) {f : buffer_t → buffer_t}
    (href : ∀ b, (f b).ref_count = b.ref_count)
    (hblock : ∀ b : buffer_t, b.data.length = BLOCK_SIZE → (f b).data.length = BLOCK_SIZE) :
    ∃ b pool'', pool'.buffers[buf]? = some b ∧ b.data.length = BLOCK_SIZE ∧
      set_buffer pool' buf f = some pool'' ∧ pool.Lent pool'' buf ∧ pool''.buffers[buf]? = some (f b) := by
  obtain ⟨b, hb, hone⟩ := h.held
  have hlt : buf < pool'.buffers.length := (List.getElem?_eq_some_iff.mp hb).1
  have hdata := h.block b (List.mem_of_getElem? hb)
  have hset : (pool'.buffers.set buf (f b))[buf]? = some (f b) := List.getElem?_set_self hlt
  refine ⟨b, { pool' with buffers := pool'.buffers.set buf (f b) }, hb, hdata, ?_, ?_, hset⟩
  · simp [csystems.block_cache.set_buffer, hb]
  · refine ⟨h.free_list, h.free_count, h.index, ?_, block_set h.block (hblock b hdata) _, f b, hset, ?_⟩
    · rw [List.length_set, h.length]
    · rw [href, hone]

/-- Releasing the buffer restores the free list and its count. -/
theorem buffer_pool_t.Lent.release (hready : pool.Ready) (h : pool.Lent pool' buf) :
    ∃ pool'', release_buffer pool' buf = some pool'' ∧ pool''.Ready ∧ pool''.free_list = pool.free_list ∧
      pool''.free_count = pool.free_count := by
  obtain ⟨b, hb, hone⟩ := h.held
  have hindex := h.index
  have hlt : pool'.free_count < pool'.free_list.length := by
    rw [h.free_list]
    exact (List.getElem?_eq_some_iff.mp hindex).1
  have hrestore : pool'.free_list.set pool'.free_count buf = pool.free_list := by
    rw [h.free_list]
    apply List.ext_getElem?
    intro i
    by_cases hi : i = pool'.free_count
    · subst i
      rw [List.getElem?_set_self (by rw [← h.free_list]; exact hlt), hindex]
    · rw [List.getElem?_set_ne (Ne.symm hi)]
  have hdata := h.block b (List.mem_of_getElem? hb)
  have hzero : b.ref_count - 1 = 0 := by rw [hone]; rfl
  refine ⟨{ pool' with
    buffers := pool'.buffers.set buf { b with ref_count := b.ref_count - 1, dirty := false, block_id := -1 }
    free_list := pool'.free_list.set pool'.free_count buf
    free_count := pool'.free_count + 1 }, ?_, ?_, hrestore, h.free_count⟩
  · rw [release_buffer, hb]
    simp only [Option.bind_eq_bind, Option.bind_some]
    rw [if_pos hzero, if_pos hlt]
  · refine ⟨Nat.succ_pos _, ?_, ?_, ?_⟩
    · dsimp only
      rw [hrestore, h.free_count]
      exact hready.free_le
    · dsimp only
      rw [hrestore, List.length_set, h.length]
      exact hready.index_lt
    · refine block_set h.block ?_ _
      exact hdata

end Lend

/-- The call has left the pool's free list as it was. -/
def SameFree (pool pool' : buffer_pool_t) : Prop :=
  pool'.free_list = pool.free_list ∧ pool'.free_count = pool.free_count

private theorem memcpy_block {dest src : List UInt8} (hdest : dest.length = BLOCK_SIZE)
    (hsrc : src.length = BLOCK_SIZE) : memcpy dest src BLOCK_SIZE = some (src ++ dest.drop BLOCK_SIZE) := by
  rw [memcpy, if_pos ⟨by omega, by omega⟩, List.take_of_length_le (by omega)]

/-- A free buffer is taken and the bytes of a read are stored in it. -/
private theorem lend_and_load {pool : buffer_pool_t} (hready : pool.Ready) {bytes : List UInt8}
    (hbytes : bytes.length ≤ BLOCK_SIZE) :
    ∃ pool₁ buf pool₂, ∃ b : buffer_t, get_buffer pool = some (pool₁, some buf) ∧ b.data.length = BLOCK_SIZE ∧
      set_buffer pool₁ buf (fun b => { b with data := bytes ++ b.data.drop bytes.length }) = some pool₂ ∧
      pool.Lent pool₂ buf ∧ pool₂.buffers[buf]? = some { b with data := bytes ++ b.data.drop bytes.length } := by
  obtain ⟨pool₁, buf, hbuf, hlent₁⟩ := get_buffer_spec hready
  have hstore (b : buffer_t) (hb : b.data.length = BLOCK_SIZE) :
      (bytes ++ b.data.drop bytes.length).length = BLOCK_SIZE := by
    rw [List.length_append, List.length_drop]
    omega
  obtain ⟨b, pool₂, -, hdata, hset, hlent₂, hb⟩ :=
    hlent₁.set_buffer (f := fun b => { b with data := bytes ++ b.data.drop bytes.length }) (fun _ => rfl) hstore
  exact ⟨pool₁, buf, pool₂, b, hbuf, hdata, hset, hlent₂, hb⟩

section Read

variable {fs : filesystem_t} {block_id : Int32} {buffer : List UInt8} {now : Int64} {cache : cache_t}

/-- A cached block is copied to the caller. -/
theorem read_block_hit {data : List UInt8}
    (hget : cache_get now fs.cache (cache_key block_id) = some (cache, some data))
    (hdata : data.length = BLOCK_SIZE) (hbuffer : buffer.length = BLOCK_SIZE) :
    read_block now fs block_id buffer =
      some ({ fs with cache := cache }, { status := 0, buffer := data ++ buffer.drop BLOCK_SIZE }) := by
  unfold read_block
  simp [hget, memcpy_block hbuffer hdata]

section Miss

variable {disk : File} {bytes : List UInt8} (hready : fs.buffer_pool.Ready)
  (hget : cache_get now fs.cache (cache_key block_id) = some (cache, none))
  (hread : read (lseek fs.disk (block_offset block_id)) BLOCK_SIZE = (disk, bytes))

include hready hget hread

/-- A block that is not cached is read through a buffer and cached. -/
theorem read_block_full (hbytes : bytes.length = BLOCK_SIZE) (hbuffer : buffer.length = BLOCK_SIZE) {cache' : cache_t}
    (hput : cache_put now cache (cache_key block_id) bytes BLOCK_SIZE = some cache') :
    ∃ pool, read_block now fs block_id buffer =
        some ({ disk := disk, cache := cache', buffer_pool := pool },
          { status := 0, buffer := bytes ++ buffer.drop BLOCK_SIZE }) ∧
      pool.Ready ∧ SameFree fs.buffer_pool pool := by
  obtain ⟨pool₁, buf, pool₂, b₁, hbuf, hdata₁, hset₂, hlent₂, hb₂⟩ := lend_and_load hready (Nat.le_of_eq hbytes)
  obtain ⟨b₂, pool₃, hb₂', -, hset₃, hlent₃, hb₃⟩ :=
    hlent₂.set_buffer (f := fun b => { b with block_id := block_id }) (fun _ => rfl) (fun _ hb => hb)
  rw [hb₂] at hb₂'
  cases hb₂'
  have hdata : bytes ++ b₁.data.drop bytes.length = bytes := by
    rw [List.drop_eq_nil_of_le (by omega), List.append_nil]
  obtain ⟨pool₄, hrelease, hready', hfree⟩ := hlent₃.release hready
  refine ⟨pool₄, ?_, hready', hfree⟩
  unfold read_block
  simp only [hget, Option.bind_eq_bind, Option.bind_some, hbuf, hread, hset₂, hset₃, hb₃, hdata,
    memcpy_block hbuffer hbytes, hput, hrelease, ne_eq, if_neg (not_not.mpr hbytes)]

/-- A short read fails and leaves the cache as it was. -/
theorem read_block_short (hbytes : bytes.length < BLOCK_SIZE) :
    ∃ pool, read_block now fs block_id buffer =
        some ({ disk := disk, cache := cache, buffer_pool := pool }, { status := -1, buffer := buffer }) ∧
      pool.Ready ∧ SameFree fs.buffer_pool pool := by
  obtain ⟨pool₁, buf, pool₂, b₁, hbuf, -, hset₂, hlent₂, -⟩ := lend_and_load hready (Nat.le_of_lt hbytes)
  obtain ⟨pool₃, hrelease, hready', hfree⟩ := hlent₂.release hready
  refine ⟨pool₃, ?_, hready', hfree⟩
  have hshort : bytes.length ≠ BLOCK_SIZE := Nat.ne_of_lt hbytes
  unfold read_block
  simp only [hget, Option.bind_eq_bind, Option.bind_some, hbuf, hread, hset₂, if_pos hshort, hrelease]

end Miss

end Read

/-- A write always succeeds: it puts the block into the cache and on the disk. -/
theorem write_block_eq {fs : filesystem_t} (hready : fs.buffer_pool.Ready) {block_id : Int32} {buffer : List UInt8}
    (hbuffer : buffer.length = BLOCK_SIZE) {now : Int64} {cache : cache_t}
    (hput : cache_put now fs.cache (cache_key block_id) buffer BLOCK_SIZE = some cache) :
    ∃ pool, write_block now fs block_id buffer =
        some ({ disk := write (lseek fs.disk (block_offset block_id)) buffer, cache := cache, buffer_pool := pool },
          { status := 0, buffer := buffer }) ∧
      pool.Ready ∧ SameFree fs.buffer_pool pool := by
  obtain ⟨pool₁, buf, hbuf, hlent₁⟩ := get_buffer_spec hready
  obtain ⟨b₁, pool₂, hb₁, hdata₁, hset₂, hlent₂, -⟩ :=
    hlent₁.set_buffer
      (f := fun b => { data := buffer, block_id := block_id, dirty := true, ref_count := b.ref_count })
      (fun _ => rfl) (fun _ _ => hbuffer)
  obtain ⟨pool₃, hrelease, hready', hfree⟩ := hlent₂.release hready
  have hcopy : memcpy b₁.data buffer BLOCK_SIZE = some buffer := by
    rw [memcpy_block hdata₁ hbuffer, List.drop_eq_nil_of_le (by omega), List.append_nil]
  have hwhole : buffer.take BLOCK_SIZE = buffer := List.take_of_length_le (by omega)
  refine ⟨pool₃, ?_, hready', hfree⟩
  unfold write_block
  simp only [Option.bind_eq_bind, Option.bind_some, hbuf, hb₁, hcopy, hset₂, hput, hwhole, hrelease]

end csystems.block_cache
