import CSystems.BlockCache.BufferPool
import CSystems.BlockCache.Recency

open clib.string clib.heap clib.file clib.format

namespace csystems.block_cache

/-- Block ids whose disk offset fits in an `int`. -/
def InRange (block_id : Int32) : Prop := 0 ≤ block_id.toInt ∧ block_id.toInt < 2 ^ 19

instance (block_id : Int32) : Decidable (InRange block_id) := inferInstanceAs (Decidable (_ ∧ _))

/-- Where a block starts on the disk. -/
def block_pos (block_id : Int32) : Nat := block_id.toInt.toNat * BLOCK_SIZE

theorem cache_key_inj {a b : Int32} (h : c_str (cache_key a) = c_str (cache_key b)) : a = b := by
  have htext (n : Int32) : IsText (['b', 'l', 'o', 'c', 'k', '_'] ++ decimal n.toInt) :=
    IsText.append (by simp [IsText]) (decimal_isText n.toInt)
  have hlength (n : Int32) : (['b', 'l', 'o', 'c', 'k', '_'] ++ decimal n.toInt).length < 32 := by
    have hdecimal := decimal_length_le n
    rw [List.length_append]
    simp only [List.length_cons, List.length_nil]
    omega
  have heq := snprintf_inj (htext a) (htext b) (hlength a) (hlength b) h
  exact Int32.toInt_inj.mp (decimal_inj (List.append_cancel_left heq))

theorem block_offset_eq {block_id : Int32} (h : InRange block_id) :
    block_offset block_id = (block_pos block_id : Int) := by
  obtain ⟨hlow, hhigh⟩ := h
  have hconst : (4096 : Int32).toInt = 4096 := by decide
  rw [block_offset, Int32.toInt_mul, hconst, Int.bmod_eq_of_le (by omega) (by omega)]
  unfold block_pos BLOCK_SIZE
  omega

theorem lseek_block (disk : File) {block_id : Int32} (h : InRange block_id) :
    lseek disk (block_offset block_id) = { disk with pos := block_pos block_id } := by
  rw [block_offset_eq h, lseek_of_nonneg _ (by omega)]
  rfl

/-- Blocks do not overlap. -/
theorem block_disjoint {a b : Int32} (ha : InRange a) (hb : InRange b) (hne : a ≠ b) :
    block_pos a + BLOCK_SIZE ≤ block_pos b ∨ block_pos b + BLOCK_SIZE ≤ block_pos a := by
  have hne : a.toInt ≠ b.toInt := fun heq => hne (Int32.toInt_inj.mp heq)
  obtain ⟨halow, -⟩ := ha
  obtain ⟨hblow, -⟩ := hb
  unfold block_pos BLOCK_SIZE
  omega

/-- The block lies within the disk and this is its content. -/
def OnDisk (bytes : List UInt8) (block_id : Int32) (data : List UInt8) : Prop :=
  block_pos block_id + BLOCK_SIZE ≤ bytes.length ∧ slice bytes (block_pos block_id) BLOCK_SIZE = data

/-- The most recently used entry of every block holds what is on the disk.
Older entries of the same block may be stale. -/
def Coherent (cache : cache_t) (bytes : List UInt8) : Prop :=
  ∃ entries, Holds cache entries ∧ cache.max_size = MAX_CACHE_SIZE ∧
    ∀ block_id, InRange block_id → ∀ e, find_entry (cache_key block_id) entries = some e → OnDisk bytes block_id e.data

/-- What `read_block` reports of a block. -/
def block_result (bytes : List UInt8) (block_id : Int32) (buffer : List UInt8) : result_t :=
  if block_pos block_id + BLOCK_SIZE ≤ bytes.length then
    { status := 0, buffer := slice bytes (block_pos block_id) BLOCK_SIZE ++ buffer.drop BLOCK_SIZE }
  else { status := -1, buffer := buffer }

private theorem length_block_slice_iff (bytes : List UInt8) (block_id : Int32) :
    (slice bytes (block_pos block_id) BLOCK_SIZE).length = BLOCK_SIZE ↔
      block_pos block_id + BLOCK_SIZE ≤ bytes.length := by
  rw [length_slice]
  have hpos : 0 < BLOCK_SIZE := by decide
  omega

theorem read_uncached_eq (disk : File) {block_id : Int32} (h : InRange block_id) (buffer : List UInt8) :
    (read_uncached disk block_id buffer).1.bytes = disk.bytes ∧
      (read_uncached disk block_id buffer).2 = block_result disk.bytes block_id buffer := by
  have hlength := length_block_slice_iff disk.bytes block_id
  rw [read_uncached, lseek_block disk h]
  unfold clib.file.read block_result
  dsimp only
  by_cases hinside : block_pos block_id + BLOCK_SIZE ≤ disk.bytes.length
  · simp [hlength.mpr hinside, hinside]
  · have hshort : ¬ (slice disk.bytes (block_pos block_id) BLOCK_SIZE).length = BLOCK_SIZE := mt hlength.mp hinside
    simp [hshort, hinside]

theorem create_filesystem_coherent (memory : Nat → block_t) (image : List UInt8) :
    Coherent (create_filesystem memory image).cache image := by
  refine ⟨[], create_cache_holds (by decide) (by decide), rfl, ?_⟩
  intro block_id _ e hfind
  cases hfind

section Put

variable {cache : cache_t} {bytes : List UInt8}

/-- Putting a block into the cache together with storing it on the disk. -/
theorem Coherent.put (h : Coherent cache bytes) {bytes' : List UInt8} {block_id : Int32}
    {data : List UInt8} (hlength : data.length = BLOCK_SIZE) (hstored : OnDisk bytes' block_id data)
    (hkept : ∀ b, InRange b → b ≠ block_id → ∀ d, OnDisk bytes b d → OnDisk bytes' b d) (now : Int64) :
    ∃ cache', cache_put now cache (cache_key block_id) data BLOCK_SIZE = some cache' ∧ Coherent cache' bytes' := by
  obtain ⟨entries, hholds, hmax, hdisk⟩ := h
  have hfits : BLOCK_SIZE ≤ cache.max_size := by rw [hmax]; decide
  have hwrap : cache.max_size + BLOCK_SIZE < SIZE_MOD := by rw [hmax]; decide
  obtain ⟨cache', kept, hrun, hkeep, hholds', hmax'⟩ :=
    cache_put_spec hholds now (cache_key block_id) data hfits hwrap
  refine ⟨cache', hrun, _, hholds', hmax'.trans hmax, ?_⟩
  intro b hb e hfind
  by_cases hbid : b = block_id
  · subst b
    rw [find_entry, List.find?_cons_of_pos (by simp)] at hfind
    cases hfind
    rw [List.take_of_length_le (by omega)]
    exact hstored
  · have hne : ¬ c_str (cache_key block_id) = c_str (cache_key b) := fun heq => hbid (cache_key_inj heq).symm
    rw [find_entry, List.find?_cons_of_neg (by simpa using hne)] at hfind
    exact hkept b hb hbid _ (hdisk b hb e (find_entry_of_kept hkeep hfind))

end Put

/-- The cache is coherent with the disk and the pool has a free buffer. -/
def filesystem_t.Good (fs : filesystem_t) : Prop := Coherent fs.cache fs.disk.bytes ∧ fs.buffer_pool.Ready

theorem read_block_spec {fs : filesystem_t} (h : fs.Good) {block_id : Int32} (hid : InRange block_id)
    {buffer : List UInt8} (hbuffer : buffer.length = BLOCK_SIZE) (now : Int64) :
    ∃ fs', read_block now fs block_id buffer = some (fs', block_result fs.disk.bytes block_id buffer) ∧
      fs'.Good ∧ fs'.disk.bytes = fs.disk.bytes ∧ SameFree fs.buffer_pool fs'.buffer_pool := by
  obtain ⟨hcoherent, hready⟩ := h
  obtain ⟨entries, hholds, hmax, hdisk⟩ := hcoherent
  obtain ⟨cache, hget, hholds', hmax'⟩ := cache_get_spec hholds now (cache_key block_id)
  have hcoherent' : Coherent cache fs.disk.bytes := by
    refine ⟨_, hholds', hmax'.trans hmax, ?_⟩
    intro b hb e hfind
    rw [find_entry_touch_entry] at hfind
    exact hdisk b hb e hfind
  have hlength := length_block_slice_iff fs.disk.bytes block_id
  rw [block_result]
  cases hfind : find_entry (cache_key block_id) entries with
  | some e =>
    obtain ⟨hinside, hdata⟩ := hdisk block_id hid e hfind
    rw [hfind, Option.map_some, ← hdata] at hget
    rw [if_pos hinside]
    exact ⟨_, read_block_hit hget (hlength.mpr hinside) hbuffer, ⟨hcoherent', hready⟩, rfl, rfl, rfl⟩
  | none =>
    rw [hfind, Option.map_none] at hget
    have hread : read (lseek fs.disk (block_offset block_id)) BLOCK_SIZE =
        ({ bytes := fs.disk.bytes,
           pos := block_pos block_id + (slice fs.disk.bytes (block_pos block_id) BLOCK_SIZE).length },
          slice fs.disk.bytes (block_pos block_id) BLOCK_SIZE) := by
      rw [lseek_block _ hid]
      rfl
    by_cases hinside : block_pos block_id + BLOCK_SIZE ≤ fs.disk.bytes.length
    · have hfull := hlength.mpr hinside
      obtain ⟨cache', hput, hcoherent''⟩ :=
        hcoherent'.put hfull ⟨hinside, rfl⟩ (fun _ _ _ _ hb => hb) now
      obtain ⟨pool, hrun, hready', hfree⟩ := read_block_full hready hget hread hfull hbuffer hput
      rw [if_pos hinside]
      exact ⟨_, hrun, ⟨hcoherent'', hready'⟩, rfl, hfree⟩
    · have hle : (slice fs.disk.bytes (block_pos block_id) BLOCK_SIZE).length ≤ BLOCK_SIZE := by
        rw [length_slice]
        omega
      have hshort := Nat.lt_of_le_of_ne hle (mt hlength.mp hinside)
      obtain ⟨pool, hrun, hready', hfree⟩ := read_block_short hready hget hread hshort
      rw [if_neg hinside]
      exact ⟨_, hrun, ⟨hcoherent', hready'⟩, rfl, hfree⟩

theorem write_block_spec {fs : filesystem_t} (h : fs.Good) {block_id : Int32} (hid : InRange block_id)
    {buffer : List UInt8} (hbuffer : buffer.length = BLOCK_SIZE) (now : Int64) :
    ∃ fs', write_block now fs block_id buffer = some (fs', { status := 0, buffer := buffer }) ∧
      fs'.Good ∧ fs'.disk.bytes = write_at fs.disk.bytes (block_pos block_id) buffer ∧
      SameFree fs.buffer_pool fs'.buffer_pool := by
  obtain ⟨hcoherent, hready⟩ := h
  let bytes := write_at fs.disk.bytes (block_pos block_id) buffer
  have hbytes : bytes.length = max fs.disk.bytes.length (block_pos block_id + BLOCK_SIZE) := by
    rw [length_write_at, hbuffer]
  have hstored : OnDisk bytes block_id buffer := by
    refine ⟨by omega, ?_⟩
    have hslice := slice_write_at_self fs.disk.bytes (block_pos block_id) buffer
    rwa [hbuffer] at hslice
  have hkept : ∀ b, InRange b → b ≠ block_id → ∀ d, OnDisk fs.disk.bytes b d → OnDisk bytes b d := by
    rintro b hb hne d ⟨hinside, hdata⟩
    refine ⟨by omega, ?_⟩
    rw [slice_write_at_of_disjoint hinside (by rw [hbuffer]; exact block_disjoint hb hid hne), hdata]
  obtain ⟨cache', hput, hcoherent'⟩ := hcoherent.put hbuffer hstored hkept now
  obtain ⟨pool, hrun, hready', hfree⟩ := write_block_eq hready hbuffer hput
  have hwrite : write (lseek fs.disk (block_offset block_id)) buffer =
      { bytes := bytes, pos := block_pos block_id + BLOCK_SIZE } := by
    rw [lseek_block _ hid, write, hbuffer]
  rw [hwrite] at hrun
  exact ⟨_, hrun, ⟨hcoherent', hready'⟩, rfl, hfree⟩

/-- A call on the cached file system and on the bare disk give the same result,
and leave the same disk. -/
theorem call_spec {fs : filesystem_t} (h : fs.Good) {disk : File} (hdisk : disk.bytes = fs.disk.bytes) {c : call_t}
    (hid : InRange c.block_id) :
    ∃ fs', call fs c = some (fs', (call_uncached disk c).2) ∧ fs'.Good ∧
      (call_uncached disk c).1.bytes = fs'.disk.bytes ∧ SameFree fs.buffer_pool fs'.buffer_pool := by
  cases c with
  | read now block_id buffer =>
    have hid : InRange block_id := hid
    obtain ⟨fs', hrun, hgood, hbytes, hfree⟩ := read_block_spec h hid buffer.length_toList now
    obtain ⟨huncached, hresult⟩ := read_uncached_eq disk hid buffer.toList
    refine ⟨fs', ?_, hgood, ?_, hfree⟩
    · rw [call, hrun, call_uncached, hresult, hdisk]
    · rw [call_uncached, huncached, hdisk, hbytes]
  | write now block_id buffer =>
    have hid : InRange block_id := hid
    obtain ⟨fs', hrun, hgood, hbytes, hfree⟩ := write_block_spec h hid buffer.length_toList now
    refine ⟨fs', hrun, hgood, ?_, hfree⟩
    have hlength : buffer.toList.length = BLOCK_SIZE := buffer.length_toList
    rw [call_uncached, write_uncached, lseek_block _ hid, List.take_of_length_le (by omega), hbytes]
    simp only [write, hdisk]

private theorem run_spec {fs : filesystem_t} (h : fs.Good) {disk : File} (hdisk : disk.bytes = fs.disk.bytes)
    {calls : List call_t} (hids : ∀ c ∈ calls, InRange c.block_id) :
    ∃ trace, run fs calls = some trace ∧ trace.map Prod.snd = run_uncached disk calls ∧
      ∀ step ∈ trace, SameFree fs.buffer_pool step.1.buffer_pool := by
  induction calls generalizing fs disk with
  | nil => exact ⟨[], rfl, rfl, by simp⟩
  | cons c calls ih =>
    obtain ⟨fs', hrun, hgood, hdisk', hlist, hcount⟩ := call_spec h hdisk (hids c (by simp))
    obtain ⟨trace, htrace, hresults, hfree⟩ := ih hgood hdisk' fun c hc => hids c (by simp [hc])
    refine ⟨(fs', (call_uncached disk c).2) :: trace, ?_, ?_, ?_⟩
    · simp [run, hrun, htrace]
    · rw [List.map_cons, run_uncached, hresults]
    · intro step hstep
      rcases List.mem_cons.mp hstep with rfl | hstep
      · exact ⟨hlist, hcount⟩
      · obtain ⟨hlist', hcount'⟩ := hfree step hstep
        exact ⟨hlist'.trans hlist, hcount'.trans hcount⟩

/-- Every sequence of calls on a fresh file system runs without a bad access,
answers as if there were no cache, and after each call the buffer pool has the
free list it started with. -/
theorem run_coherent (memory : Nat → block_t) (image : List UInt8) (calls : List call_t)
    (hids : ∀ c ∈ calls, InRange c.block_id) :
    ∃ trace, run (create_filesystem memory image) calls = some trace ∧
      trace.map Prod.snd = run_uncached { bytes := image, pos := 0 } calls ∧
      ∀ step ∈ trace, SameFree (create_filesystem memory image).buffer_pool step.1.buffer_pool :=
  run_spec ⟨create_filesystem_coherent memory image, create_buffer_pool_ready memory (by decide)⟩ rfl hids

/-- Writing a block, reading it back, and reading past the end of the disk. -/
theorem run_coherent_demo :
    ∃ trace, run (create_filesystem (fun _ => Vector.replicate _ 0) [])
        [.write 0 5 (Vector.replicate _ 7), .read 0 5 (Vector.replicate _ 0), .read 0 6 (Vector.replicate _ 0)] =
          some trace ∧
      trace.map Prod.snd = run_uncached { bytes := [], pos := 0 }
        [.write 0 5 (Vector.replicate _ 7), .read 0 5 (Vector.replicate _ 0), .read 0 6 (Vector.replicate _ 0)] ∧
      ∀ step ∈ trace,
        SameFree (create_filesystem (fun _ => Vector.replicate _ 0) []).buffer_pool step.1.buffer_pool := by
  apply run_coherent
  intro c hc
  simp only [List.mem_cons, List.not_mem_nil, or_false] at hc
  rcases hc with rfl | rfl | rfl <;> decide

end csystems.block_cache
