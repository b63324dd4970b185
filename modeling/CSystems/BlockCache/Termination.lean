import CSystems.BlockCache.Indexes
import CSystems.BlockCache.Recency

open clib.string clib.heap clib.run

namespace csystems.block_cache

/-- The eviction loop of `cache_put` stops after one of its rounds. -/
def EvictionEnds (size : Nat) (cache : cache_t) : Prop :=
  ∃ cache', Reachable (evict_round size) cache cache' ∧
    (cache'.current_size + size) % SIZE_MOD ≤ cache'.max_size

/-- `cache_put` ends and leaves the cache within its size. -/
def PutEnds (now : Int64) (cache : cache_t) (key data : List UInt8) (size : Nat) : Prop :=
  EvictionEnds size cache ∧
    ∃ cache', cache_put now cache key data size = some cache' ∧ cache'.current_size ≤ cache'.max_size

/-- The new entry fits next to the `n` most recently used ones, where sizes are
added as `size_t`. -/
def Fits (cache : cache_t) (size n : Nat) : Prop :=
  ((((live_entries cache).take n).map cached_t.size).sum + size) % SIZE_MOD ≤ cache.max_size

instance (cache : cache_t) (size n : Nat) : Decidable (Fits cache size n) := Nat.decLe _ _

section Accounted

variable {cache cache' : cache_t} {lru : List Nat} {chains : Nat → List Nat} {size : Nat}

theorem Linked.map_size_live_entries (h : Linked cache lru chains) :
    (live_entries cache).map cached_t.size = lru.map (entry_size cache.heap) := by
  have hlive : ∀ a ∈ lru, ∃ e, cache.heap.get a = some e := fun a ha => h.live ha
  rw [h.live_entries_eq]
  clear h
  induction lru with
  | nil => rfl
  | cons a lru ih =>
    obtain ⟨e, hget⟩ := hlive a (by simp)
    have hfield : cache.heap.field cache_entry_t.contents a = some e.contents := by simp [Heap.field, hget]
    have hrest := ih fun b hb => hlive b (by simp [hb])
    rw [recency, List.filterMap_cons_some hfield, List.map_cons, List.map_cons, entry_size, hfield, ← hrest]
    rfl

theorem Linked.fits_iff (h : Linked cache lru chains) {n : Nat} :
    Fits cache size n ↔ (((lru.take n).map (entry_size cache.heap)).sum + size) % SIZE_MOD ≤ cache.max_size := by
  rw [Fits, List.map_take, h.map_size_live_entries, ← List.map_take]

/-- A lookup changes neither the entries nor the size field. -/
theorem Accounted.get (h : Accounted cache lru chains) (now : Int64) (key : List UInt8) :
    ∃ cache' data lru', cache_get now cache key = some (cache', data) ∧ Accounted cache' lru' chains ∧
      cache'.max_size = cache.max_size := by
  obtain ⟨cache', hrun, hlinked, hcontents, -, hmax, hsize⟩ := h.toLinked.get now key
  refine ⟨cache', _, _, hrun, ⟨hlinked, ?_, ?_⟩, hmax⟩
  · rw [hsize, h.size_eq, sum_touched hcontents]
  · intro a ha
    rw [entry_size_congr (congrFun hcontents a)]
    exact h.entry_lt a (touched_perm.subset ha)

theorem Accounted.put (h : Accounted cache lru chains) {now : Int64} {key data : List UInt8}
    (hsize : size < SIZE_MOD) (hrun : cache_put now cache key data size = some cache') :
    ∃ lru' chains', Accounted cache' lru' chains' ∧ cache'.max_size = cache.max_size := by
  obtain ⟨cache₁, hevict, -⟩ := Option.bind_eq_some_iff.mp hrun
  obtain ⟨kept, chains₁, h₁, -, -, -, -, hmax₁, -⟩ := h.of_evict_until_fits hevict
  obtain ⟨cache₂, chains₂, hput, h₂, hnew, hcontents, -, hmax₂, hcurrent, hsum⟩ :=
    h₁.toLinked.put now key data hevict
  obtain rfl : cache₂ = cache' := Option.some.inj (hput.symm.trans hrun)
  refine ⟨_, chains₂, ⟨h₂, ?_, ?_⟩, hmax₂.trans hmax₁⟩
  · rw [hcurrent, hsum, h₁.size_eq, Nat.mod_add_mod, Nat.add_comm]
  · intro a ha
    rcases List.mem_cons.mp ha with rfl | ha
    · rw [entry_size, hnew]
      exact hsize
    · rw [entry_size_congr (hcontents a ha)]
      exact h₁.entry_lt a ha

/-- Every round of the eviction loop keeps the most recently used entries. -/
theorem Accounted.rounds (h : Accounted cache lru chains) (hreached : Reachable (evict_round size) cache cache') :
    ∃ kept chains', Accounted cache' kept chains' ∧ kept <+: lru ∧
      (∀ a ∈ kept, cache'.heap.field cache_entry_t.contents a = cache.heap.field cache_entry_t.contents a) ∧
      cache'.max_size = cache.max_size := by
  induction hreached with
  | start => exact ⟨lru, chains, h, List.prefix_rfl, fun _ _ => rfl, rfl⟩
  | step _ _ hround ih =>
    obtain ⟨kept, chains₁, h₁, hkeep, hcontents, hmax⟩ := ih
    obtain ⟨cache₂, chains₂, hrun, h₂, hcontents₂, -, hmax₂, -⟩ := h₁.evict_lru
    unfold evict_round at hround
    split at hround
    · obtain rfl := Option.some.inj (hrun.symm.trans hround)
      have hshorter : kept.dropLast <+: kept := List.dropLast_prefix kept
      refine ⟨kept.dropLast, chains₂, h₂, hshorter.trans hkeep, ?_, hmax₂.trans hmax⟩
      intro a ha
      rw [hcontents₂ a ha, hcontents a (hshorter.subset ha)]
    · cases hround

/-- Where the loop stops the new entry fits next to the entries that are left. -/
theorem Accounted.fits_of_evictionEnds (h : Accounted cache lru chains) (hends : EvictionEnds size cache) :
    ∃ n, Fits cache size n := by
  obtain ⟨cache', hreached, hstops⟩ := hends
  obtain ⟨kept, chains', h', hkeep, hcontents, hmax⟩ := h.rounds hreached
  refine ⟨kept.length, h.toLinked.fits_iff.mpr ?_⟩
  rw [← List.prefix_iff_eq_take.mp hkeep, ← List.map_congr_left fun a ha => entry_size_congr (hcontents a ha),
    ← Nat.mod_add_mod, ← h'.size_eq, ← hmax]
  exact hstops

theorem Accounted.putEnds_of_fits (h : Accounted cache lru chains) {n : Nat} (hfits : Fits cache size n)
    (now : Int64) (key data : List UInt8) : PutEnds now cache key data size := by
  obtain ⟨cache₁, hevict⟩ :=
    h.evict_until_fits_ends h.length_lt_fuel (List.take_prefix n lru) (h.toLinked.fits_iff.mp hfits)
  obtain ⟨kept, chains₁, h₁, -, -, -, -, hmax₁, -, hfit⟩ := h.of_evict_until_fits hevict
  obtain ⟨cache₂, chains₂, hput, -, -, -, -, hmax₂, hcurrent, -⟩ := h₁.toLinked.put now key data hevict
  refine ⟨⟨cache₁, (evict_until_fits_rounds hevict).1, ?_⟩, cache₂, hput, ?_⟩
  · rw [hmax₁]
    exact hfit
  · rw [hcurrent, hmax₂, hmax₁]
    exact hfit

/-- A loop that does not end has a next round in every cache it reaches. -/
theorem Accounted.next_round (h : Accounted cache lru chains) (hends : ¬ EvictionEnds size cache)
    (hreached : Reachable (evict_round size) cache cache') :
    ∃ cache'', evict_round size cache' () = some cache'' := by
  obtain ⟨kept, chains', h', -⟩ := h.rounds hreached
  obtain ⟨cache'', -, hrun, -⟩ := h'.evict_lru
  have hfull : (cache'.current_size + size) % SIZE_MOD > cache'.max_size :=
    Nat.lt_of_not_le fun hstops => hends ⟨cache', hreached, hstops⟩
  exact ⟨cache'', by rw [evict_round, if_pos hfull, hrun]⟩

/-- Calls keep the size field right, modulo the size of a `size_t`. -/
theorem Accounted.use_cache {used : List Nat} (h : Accounted cache lru chains) {c : cache_call_t}
    (hadded : c.added < SIZE_MOD) {s : used_cache_t}
    (hrun : use_cache { cache := cache, used := used } c = some s) :
    ∃ lru' chains', Accounted s.cache lru' chains' ∧ s.cache.max_size = cache.max_size := by
  cases c with
  | get now key =>
    obtain ⟨cache', data, lru', hget, h', hmax⟩ := h.get now key
    rw [block_cache.use_cache, hget] at hrun
    cases hrun
    exact ⟨lru', chains, h', hmax⟩
  | put now key data size =>
    obtain ⟨cache', hput, hs⟩ := Option.bind_eq_some_iff.mp hrun
    cases hs
    exact h.put hadded hput

theorem Accounted.run {used : List Nat} (h : Accounted cache lru chains) {calls : List cache_call_t}
    (hcalls : ∀ c ∈ calls, c.added < SIZE_MOD) {s : used_cache_t}
    (hrun : calls.foldlM block_cache.use_cache { cache := cache, used := used } = some s) :
    ∃ lru' chains', Accounted s.cache lru' chains' ∧ s.cache.max_size = cache.max_size := by
  induction calls generalizing cache lru chains used with
  | nil =>
    cases hrun
    exact ⟨lru, chains, h, rfl⟩
  | cons c calls ih =>
    obtain ⟨s₁, hfirst, hrest⟩ := Option.bind_eq_some_iff.mp hrun
    obtain ⟨lru₁, chains₁, h₁, hmax₁⟩ := h.use_cache (hcalls c (by simp)) hfirst
    obtain ⟨lru', chains', h', hmax'⟩ := ih h₁ (fun c hc => hcalls c (by simp [hc])) hrest
    exact ⟨lru', chains', h', hmax'.trans hmax₁⟩

/-- Unless the sum of all sizes wraps around, only the size of the new entry
decides. -/
theorem fits_iff_of_no_wrap (hsum : ((live_entries cache).map cached_t.size).sum + size < SIZE_MOD) :
    (∃ n, Fits cache size n) ↔ size ≤ cache.max_size := by
  constructor
  · rintro ⟨n, hfits⟩
    have hle : (((live_entries cache).take n).map cached_t.size).sum ≤
        ((live_entries cache).map cached_t.size).sum :=
      ((List.take_sublist n _).map _).sum_le_sum fun _ _ => Nat.zero_le _
    rw [Fits, Nat.mod_eq_of_lt (by omega)] at hfits
    omega
  · intro hsize
    refine ⟨0, ?_⟩
    rw [Fits, List.take_zero, List.map_nil, List.sum_nil, Nat.zero_add, Nat.mod_eq_of_lt (by omega)]
    exact hsize

end Accounted

section Put

variable {bucket_count max_size : Nat} {calls : List cache_call_t} {s : used_cache_t}

/-- After any calls on a fresh cache that ended, `cache_put` ends, with the cache
within its size, exactly when the new entry fits next to some number of the most
recently used ones. Otherwise its eviction loop goes on forever. -/
theorem cache_put_ends_iff (hbuckets : 1 ≤ bucket_count) (hcalls : ∀ c ∈ calls, c.added < SIZE_MOD)
    (hrun : calls.foldlM use_cache { cache := create_cache max_size bucket_count, used := [] } = some s)
    (now : Int64) (key data : List UInt8) (size : Nat) :
    (PutEnds now s.cache key data size ↔ ∃ n, Fits s.cache size n) ∧
      (¬ PutEnds now s.cache key data size → ∀ cache, Reachable (evict_round size) s.cache cache →
        ∃ cache', evict_round size cache () = some cache') := by
  obtain ⟨lru, chains, h, -⟩ := (create_cache_accounted hbuckets).run hcalls hrun
  refine ⟨⟨fun hends => h.fits_of_evictionEnds hends.1, ?_⟩, ?_⟩
  · rintro ⟨n, hfits⟩
    exact h.putEnds_of_fits hfits now key data
  · intro hputs cache hreached
    refine h.next_round ?_ hreached
    intro hends
    obtain ⟨n, hfits⟩ := h.fits_of_evictionEnds hends
    exact hputs (h.putEnds_of_fits hfits now key data)

/-- A second entry that needs the space of the first. -/
theorem cache_put_ends_iff_evicting :
    ∃ s, [cache_call_t.put 0 [97] [1, 2, 3] 3].foldlM use_cache
        { cache := create_cache 4 1, used := [] } = some s ∧
      (PutEnds 0 s.cache [98] [5, 6] 2 ↔ ∃ n, Fits s.cache 2 n) ∧
      (¬ PutEnds 0 s.cache [98] [5, 6] 2 → ∀ cache, Reachable (evict_round 2) s.cache cache →
        ∃ cache', evict_round 2 cache () = some cache') :=
  ⟨_, rfl, @cache_put_ends_iff 1 4 [cache_call_t.put 0 [97] [1, 2, 3] 3] _ (by decide) (by decide) rfl
    0 [98] [5, 6] 2⟩

/-- An entry of 101 bytes never fits a cache of 100: there is nothing to evict, and
the loop finds the same sizes in every round. -/
theorem oversized_put_never_ends :
    ∃ s, ([] : List cache_call_t).foldlM use_cache { cache := create_cache 100 4, used := [] } = some s ∧
      ¬ PutEnds 0 s.cache [97] (List.replicate 101 0) 101 ∧ ∀ fuel, evict_until_fits 101 fuel s.cache = none := by
  refine ⟨_, rfl, ?_, ?_⟩
  · intro hends
    have hempty : Accounted (create_cache 100 4) [] fun _ => [] := create_cache_accounted (by decide)
    obtain ⟨n, hfits⟩ := hempty.fits_of_evictionEnds hends.1
    rw [hempty.toLinked.fits_iff, List.take_nil] at hfits
    exact absurd hfits (by decide)
  · intro fuel
    induction fuel with
    | zero => rfl
    | succ fuel ih => exact ih

end Put

end csystems.block_cache
