import CSystems.Lib.LastUse
import CSystems.Lib.Run
import CSystems.BlockCache.Blocks
import CSystems.BlockCache.Coherence

open clib.string clib.heap clib.file clib.last_use clib.run

namespace csystems.block_cache

/-- A file system, and the blocks its calls have used, in the order of the calls. -/
structure used_blocks_t where
  fs : filesystem_t
  used : List Int32

/-- One more call. A call that fails, a read past the end of the disk, does not
use its block. -/
def use_block (s : Option used_blocks_t) (c : call_t) : Option used_blocks_t := do
  let s ← s
  let (fs, result) ← call s.fs c
  some { fs := fs, used := if result.status = 0 then s.used ++ [c.block_id] else s.used }

def unused_blocks (memory : Nat → block_t) (image : List UInt8) : used_blocks_t where
  fs := create_filesystem memory image
  used := []

/-- A lookup of the block finds it. -/
def Hit (cache : cache_t) (block_id : Int32) : Prop :=
  ∀ now, ∃ cache' data, cache_get now cache (cache_key block_id) = some (cache', some data)

/-- No key has two live entries, and as many of the most recently used blocks as
the cache has space for are cached. -/
def SpentOnDistinct (s : Option used_blocks_t) : Prop :=
  ∃ t, s = some t ∧ ((live_entries t.fs.cache).map cached_t.key).Nodup ∧
    ∀ block_id ∈ (most_recent t.used).take CACHE_BLOCKS, Hit t.fs.cache block_id

/-- A block that is written is not cached, or only in the entry that the put
evicts. -/
def WritesUncached (s : Option used_blocks_t) : call_t → Prop
  | .read _ _ _ => True
  | .write _ block_id _ => ∀ t ∈ s,
    find_entry (cache_key block_id) ((live_entries t.fs.cache).take (CACHE_BLOCKS - 1)) = none

theorem use_block_eq {t : used_blocks_t} {c : call_t} {fs : filesystem_t} {result : result_t}
    (hrun : call t.fs c = some (fs, result)) :
    use_block (some t) c =
      some { fs := fs, used := if result.status = 0 then t.used ++ [c.block_id] else t.used } := by
  simp [use_block, hrun]

/-- The key a block is cached under. -/
def block_key (block_id : Int32) : List UInt8 := c_str (cache_key block_id)

theorem block_key_injective : Function.Injective block_key := fun _ _ h => cache_key_inj h

/-- The cache holds as many of the most recently used blocks as it has space for,
each in one entry. -/
structure Retains (t : used_blocks_t) (entries : List cached_t) : Prop where
  holds : Holds t.fs.cache entries
  max_size : t.fs.cache.max_size = MAX_CACHE_SIZE
  ready : t.fs.buffer_pool.Ready
  block : ∀ e ∈ entries, e.size = BLOCK_SIZE ∧ e.data.length = BLOCK_SIZE
  keys : entries.map cached_t.key = ((most_recent t.used).take CACHE_BLOCKS).map block_key

theorem find_entry_eq_none_iff {key : List UInt8} {entries : List cached_t} :
    find_entry key entries = none ↔ c_str key ∉ entries.map cached_t.key := by
  simp only [find_entry, List.find?_eq_none, beq_iff_eq, List.mem_map, not_exists, not_and]

theorem Retains.serves {t : used_blocks_t} {entries : List cached_t} (h : Retains t entries) : t.fs.Serves entries :=
  ⟨h.holds, h.max_size, h.ready, h.block⟩

theorem filesystem_t.Serves.retains {t : used_blocks_t} {entries : List cached_t} (h : t.fs.Serves entries)
    (hkeys : entries.map cached_t.key = ((most_recent t.used).take CACHE_BLOCKS).map block_key) : Retains t entries :=
  ⟨h.holds, h.max_size, h.ready, h.block, hkeys⟩

theorem unused_blocks_retains (memory : Nat → block_t) (image : List UInt8) :
    Retains (unused_blocks memory image) [] :=
  (create_filesystem_serves memory image).retains (by simp [unused_blocks, most_recent])

section Retains

variable {t : used_blocks_t} {entries : List cached_t} (h : Retains t entries)

include h

theorem Retains.cached_iff {block_id : Int32} {n : Nat} (hn : n ≤ CACHE_BLOCKS) :
    find_entry (cache_key block_id) (entries.take n) = none ↔ block_id ∉ (most_recent t.used).take n := by
  rw [find_entry_eq_none_iff, List.map_take, h.keys, ← List.map_take, List.take_take, Nat.min_eq_left hn]
  exact not_congr (List.mem_map_of_injective block_key_injective)

theorem Retains.find_entry_iff {block_id : Int32} :
    find_entry (cache_key block_id) entries = none ↔ block_id ∉ (most_recent t.used).take CACHE_BLOCKS := by
  rw [find_entry_eq_none_iff, h.keys]
  exact not_congr (List.mem_map_of_injective block_key_injective)

theorem Retains.spent_on_distinct : SpentOnDistinct (some t) := by
  refine ⟨t, rfl, ?_, ?_⟩
  · rw [h.holds.live_entries_eq, h.keys]
    exact ((nodup_most_recent t.used).sublist (List.take_sublist _ _)).map block_key_injective
  · intro block_id hmem now
    obtain ⟨cache', hget, -, -⟩ := cache_get_spec h.holds now (cache_key block_id)
    cases hfind : find_entry (cache_key block_id) entries with
    | none =>
      exact absurd hmem (h.find_entry_iff.mp hfind)
    | some e =>
      rw [hfind] at hget
      exact ⟨cache', e.data, hget⟩

/-- Putting a block that is not cached next to the others leaves the most recently
used blocks in the cache. -/
theorem Retains.keys_put {block_id : Int32} (hnew : block_id ∉ (most_recent t.used).take (CACHE_BLOCKS - 1))
    (data : List UInt8) :
    (put_entry block_id data entries).map cached_t.key =
      ((most_recent (t.used ++ [block_id])).take CACHE_BLOCKS).map block_key := by
  have hsucc : CACHE_BLOCKS = CACHE_BLOCKS - 1 + 1 := by decide
  have hnext := take_most_recent_of_notMem hnew
  rw [← hsucc] at hnext
  rw [hnext, put_entry, List.map_cons, List.map_cons, List.map_take, h.keys, ← List.map_take, List.take_take,
    Nat.min_eq_left (Nat.sub_le _ _)]
  rfl

/-- A hit moves the block's entry to the front. -/
theorem Retains.touch {block_id : Int32} {e : cached_t} (hfind : find_entry (cache_key block_id) entries = some e) :
    (touch_entry (cache_key block_id) entries).map cached_t.key =
      ((most_recent (t.used ++ [block_id])).take CACHE_BLOCKS).map block_key := by
  have hkey : e.key = c_str (cache_key block_id) := by simpa using List.find?_some hfind
  have hkey : e.key = block_key block_id := hkey
  have hmem : block_id ∈ (most_recent t.used).take CACHE_BLOCKS := by
    by_contra hnot
    rw [h.find_entry_iff.mpr hnot] at hfind
    cases hfind
  have hsucc : CACHE_BLOCKS = CACHE_BLOCKS - 1 + 1 := by decide
  have hnext := take_most_recent_of_mem (hsucc ▸ hmem)
  rw [← hsucc] at hnext
  rw [touch_entry, hfind, hnext, List.map_cons, List.map_cons, List.map_erase block_key_injective, ← h.keys, hkey,
    List.erase_eq_eraseP, List.eraseP_map]
  exact congrArg _ (congrArg _ (congrArg (fun p => entries.eraseP p) (funext fun e => BEq.comm)))

/-- A read leaves the block in the cache if it succeeds. -/
theorem Retains.read (now : Int64) (block_id : Int32) (buffer : block_t) :
    ∃ t' entries', use_block (some t) (.read now block_id buffer) = some t' ∧ Retains t' entries' := by
  have hbuffer : buffer.toList.length = BLOCK_SIZE := buffer.length_toList
  cases hfind : find_entry (cache_key block_id) entries with
  | some e =>
    obtain ⟨fs', hrun, h'⟩ := h.serves.read_hit now hfind hbuffer
    exact ⟨_, touch_entry (cache_key block_id) entries, use_block_eq hrun, h'.retains (h.touch hfind)⟩
  | none =>
    have hnew : block_id ∉ (most_recent t.used).take (CACHE_BLOCKS - 1) :=
      notMem_take_of_notMem_take_succ (h.find_entry_iff.mp hfind)
    obtain ⟨fs', hmiss⟩ := h.serves.read_miss now hfind hbuffer
    split at hmiss
    · obtain ⟨hrun, h'⟩ := hmiss
      exact ⟨_, _, use_block_eq hrun, h'.retains (h.keys_put hnew _)⟩
    · obtain ⟨hrun, h'⟩ := hmiss
      exact ⟨_, entries, use_block_eq hrun, h'.retains h.keys⟩

/-- Writing a block that is not cached, or only in the entry that is evicted. -/
theorem Retains.write (now : Int64) {block_id : Int32} (buffer : block_t)
    (hnew : WritesUncached (some t) (.write now block_id buffer)) :
    ∃ t' entries', use_block (some t) (.write now block_id buffer) = some t' ∧ Retains t' entries' ∧
      t'.used = t.used ++ [block_id] := by
  have hnew := hnew t rfl
  rw [h.holds.live_entries_eq, h.cached_iff (Nat.sub_le _ _)] at hnew
  obtain ⟨fs', hrun, -, h'⟩ := h.serves.write now block_id buffer.length_toList
  exact ⟨_, _, use_block_eq hrun, h'.retains (h.keys_put hnew _), rfl⟩

/-- Writing a block that stays cached gives it a second entry. -/
theorem Retains.write_again (now : Int64) {block_id : Int32} (buffer : block_t)
    (hagain : ¬ WritesUncached (some t) (.write now block_id buffer)) :
    ¬ SpentOnDistinct (use_block (some t) (.write now block_id buffer)) := by
  obtain ⟨fs', hrun, -, h'⟩ := h.serves.write now block_id buffer.length_toList
  rintro ⟨t', ht', hnodup, -⟩
  have hstep : use_block (some t) (.write now block_id buffer) = _ := use_block_eq hrun
  rw [hstep] at ht'
  cases ht'
  rw [h'.holds.live_entries_eq, put_entry, List.map_cons] at hnodup
  apply hagain
  rintro _ ⟨⟩
  rw [h.holds.live_entries_eq, find_entry_eq_none_iff]
  exact (List.nodup_cons.mp hnodup).1

end Retains

/-- After every call the live entries have distinct keys and hold the most
recently used blocks, exactly if no block is written that is cached and that the
put would not evict. -/
theorem blocks_distinct_iff (memory : Nat → block_t) (image : List UInt8) (calls : List call_t) :
    (∀ now, now <+: calls → SpentOnDistinct (now.foldl use_block (some (unused_blocks memory image)))) ↔
      AllSteps use_block WritesUncached (some (unused_blocks memory image)) calls := by
  refine @forall_prefix_iff _ _ use_block (fun _ => True) (fun _ s => ∃ t entries, s = some t ∧ Retains t entries)
    WritesUncached (fun _ s => SpentOnDistinct s) ?_ ?_ ?_ [] calls _
    ⟨_, [], rfl, unused_blocks_retains memory image⟩ fun _ _ => trivial
  · rintro - - ⟨t, entries, rfl, h⟩
    exact h.spent_on_distinct
  · rintro - - c - ⟨t, entries, rfl, h⟩ hwrites
    cases c with
    | read now block_id buffer => exact h.read now block_id buffer
    | write now block_id buffer =>
      obtain ⟨t', entries', hrun, h', -⟩ := h.write now buffer hwrites
      exact ⟨t', entries', hrun, h'⟩
  · rintro - - c - ⟨t, entries, rfl, h⟩ hwrites
    cases c with
    | read now block_id buffer => exact absurd trivial hwrites
    | write now block_id buffer => exact h.write_again now buffer hwrites

/-- Writing one block twice leaves two live entries of its key. -/
theorem blocks_distinct_fails :
    ¬ ∀ now, now <+: [call_t.write 0 7 (Vector.replicate _ 1), .write 0 7 (Vector.replicate _ 2)] →
      SpentOnDistinct (now.foldl use_block (some (unused_blocks (fun _ => Vector.replicate _ 0) []))) := by
  have h := unused_blocks_retains (fun _ => Vector.replicate _ 0) []
  have hfirst : WritesUncached (some (unused_blocks (fun _ => Vector.replicate _ 0) []))
      (.write 0 7 (Vector.replicate _ 1)) := by
    rintro _ ⟨⟩
    rw [h.holds.live_entries_eq]
    rfl
  obtain ⟨t, entries, hrun, h, hused⟩ := h.write 0 (Vector.replicate _ 1) hfirst
  intro hall
  have hboth := hall _ List.prefix_rfl
  rw [List.foldl_cons, hrun] at hboth
  refine h.write_again 0 (Vector.replicate _ 2) ?_ hboth
  intro hagain
  have hnew := hagain t rfl
  rw [h.holds.live_entries_eq, h.cached_iff (Nat.sub_le _ _), hused] at hnew
  exact hnew (by decide)

end csystems.block_cache
