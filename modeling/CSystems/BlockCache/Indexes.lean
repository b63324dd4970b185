import Mathlib.Data.List.Sublists
import CSystems.Lib.LastUse
import CSystems.Lib.Run
import CSystems.BlockCache.Insert

open clib.string clib.heap clib.last_use clib.run

namespace csystems.block_cache

/-- A call on a cache, at time `now`. -/
inductive cache_call_t where
  | get (now : Int64) (key : List UInt8)
  | put (now : Int64) (key data : List UInt8) (size : Nat)

/-- The bytes a call adds to the cache. -/
def cache_call_t.added : cache_call_t → Nat
  | .get _ _ => 0
  | .put _ _ _ size => size

/-- The entry that `cache_get` returns the data of. -/
def found (cache : cache_t) (key : List UInt8) : Option Nat := do
  let head ← cache.hash_table[hash_key key cache.bucket_count]?
  let entry ← find_cell (cache.heap.field cache_entry_t.next) (key_matches cache key) cache.fuel head
  entry

/-- A cache, and the entries that were put or got, in the order of the calls. -/
structure used_cache_t where
  cache : cache_t
  used : List Nat

/-- One more call. The entry that is put is the next one allocated. -/
def use_cache (s : used_cache_t) : cache_call_t → Option used_cache_t
  | .get now key => do
    let (cache, _) ← cache_get now s.cache key
    some { cache := cache, used := s.used ++ (found s.cache key).toList }
  | .put now key data size => do
    let cache ← cache_put now s.cache key data size
    some { cache := cache, used := s.used ++ [s.cache.heap.next] }

/-- One round of the eviction loop of `cache_put`; `none` when the loop ends. -/
def evict_round (size : Nat) (cache : cache_t) (_ : Unit) : Option cache_t :=
  if (cache.current_size + size) % SIZE_MOD > cache.max_size then evict_lru cache else none

/-- The recency list, read from either end, and the hash buckets hold the same
entries, and the size field counts their bytes. -/
structure IndexesAgree (bucket_count max_size : Nat) (cache : cache_t) (entries : List Nat) : Prop where
  forwards : Chain (cache.heap.field cache_entry_t.lru_next) cache.lru_head entries
  backwards : Chain (cache.heap.field cache_entry_t.lru_prev) cache.lru_tail entries.reverse
  table : cache.hash_table.length = bucket_count
  bucket : ∀ b < bucket_count, ∃ head chain, cache.hash_table[b]? = some head ∧
    Chain (cache.heap.field cache_entry_t.next) head chain ∧
    ∀ a, a ∈ chain ↔ a ∈ entries ∧ ∃ e, cache.heap.get a = some e ∧ hash_key e.key bucket_count = b
  size_eq : cache.current_size = (entries.map (entry_size cache.heap)).sum
  size_le : cache.current_size ≤ max_size

theorem Represents.indexes_agree {cache : cache_t} {lru : List Nat} {chains : Nat → List Nat}
    (h : Represents cache lru chains) : IndexesAgree cache.bucket_count cache.max_size cache lru := by
  refine ⟨h.list.forwards, h.list.backwards, h.table, ?_, h.size_eq, h.size_le⟩
  intro b hb
  obtain ⟨head, htable, hchain⟩ := h.toLinked.table_get hb
  refine ⟨head, chains b, htable, hchain, ?_⟩
  intro a
  constructor
  · intro ha
    obtain ⟨key, hkey, hhash⟩ := h.bucket b hb a ha
    obtain ⟨e, hget, hekey⟩ := has_key_iff.mp hkey
    refine ⟨h.toLinked.mem_lru_of_mem_chain hb ha, e, hget, ?_⟩
    rw [hekey, hash_key_eq_of_c_str_eq (c_str_c_str key), hhash]
  · rintro ⟨ha, e, hget, hhash⟩
    obtain ⟨key, hkey⟩ := h.keyed a ha
    obtain ⟨e', hget', hekey⟩ := has_key_iff.mp hkey
    rw [hget] at hget'
    cases hget'
    rw [hekey, hash_key_eq_of_c_str_eq (c_str_c_str key)] at hhash
    exact (h.toLinked.mem_chain_iff ha hkey hb).mpr hhash.symm

/-- The cache is well linked and its recency list is ordered by last use. -/
def UsedInOrder (bucket_count max_size : Nat) (cache : cache_t) (used : List Nat) : Prop :=
  ∃ lru chains, Represents cache lru chains ∧ lru.Sublist (most_recent used) ∧
    cache.bucket_count = bucket_count ∧ cache.max_size = max_size

section Used

variable {bucket_count max_size : Nat} {cache : cache_t} {used : List Nat}

theorem create_cache_used_in_order (hbuckets : 1 ≤ bucket_count) (hmax : max_size < 2 ^ 63) :
    UsedInOrder bucket_count max_size (create_cache max_size bucket_count) [] :=
  ⟨[], fun _ => [], create_cache_represents (by unfold SIZE_MOD; omega) hbuckets, List.nil_sublist _, rfl, rfl⟩

/-- A call touches the entry it uses, so that the recency list stays ordered. -/
theorem UsedInOrder.use_cache (h : UsedInOrder bucket_count max_size cache used) (hmax : max_size < 2 ^ 63)
    {c : cache_call_t} (hadded : c.added ≤ max_size) :
    ∃ s, use_cache { cache := cache, used := used } c = some s ∧
      UsedInOrder bucket_count max_size s.cache s.used := by
  obtain ⟨lru, chains, h, horder, rfl, rfl⟩ := h
  cases c with
  | get now key =>
    obtain ⟨cache', hrun, h', -, hbuckets', hmax'⟩ := h.get now key
    obtain ⟨head, htable, hsearch⟩ := h.toLinked.find_cell_eq key
    have hfound : found cache key = lru.find? (has_key cache.heap key) := by
      simp [found, htable, hsearch]
    refine ⟨_, by rw [block_cache.use_cache, hrun]; rfl, _, chains, h', ?_, hbuckets', hmax'⟩
    dsimp only
    rw [hfound]
    cases lru.find? (has_key cache.heap key) with
    | none =>
      rw [Option.toList_none, List.append_nil]
      exact horder
    | some entry => exact cons_erase_sublist horder entry
  | put now key data size =>
    have hadded : size ≤ cache.max_size := hadded
    obtain ⟨cache', kept, chains', hrun, h', hkeep, -, -, -, hbuckets', hmax'⟩ :=
      h.put now key data hadded (by unfold SIZE_MOD; omega)
    refine ⟨_, by rw [block_cache.use_cache, hrun]; rfl, _, chains', h', ?_, hbuckets', hmax'⟩
    have hnew : cache.heap.next ∉ kept := (List.nodup_cons.mp h'.list.nodup).1
    have hfront := cons_erase_sublist (hkeep.sublist.trans horder) cache.heap.next
    rwa [List.erase_of_not_mem hnew] at hfront

/-- A round of the eviction loop removes the entry that was used least recently. -/
theorem UsedInOrder.evict_round (h : UsedInOrder bucket_count max_size cache used) {size : Nat}
    (hsize : size ≤ max_size) :
    ∃ entries, IndexesAgree bucket_count max_size cache entries ∧
      ∀ cache', evict_round size cache () = some cache' → UsedInOrder bucket_count max_size cache' used ∧
        ∃ victim ∈ entries, LeastRecent used victim (entries.erase victim) ∧
          IndexesAgree bucket_count max_size cache' (entries.erase victim) := by
  obtain ⟨lru, chains, h, horder, rfl, rfl⟩ := h
  refine ⟨lru, h.indexes_agree, ?_⟩
  intro cache' hround
  unfold block_cache.evict_round at hround
  split at hround
  · next hfull =>
    cases hlast : lru.getLast? with
    | none =>
      have hempty : lru = [] := List.getLast?_eq_none_iff.mp hlast
      have hzero : cache.current_size = 0 := by rw [h.size_eq, hempty]; rfl
      have hmod := Nat.mod_le (cache.current_size + size) SIZE_MOD
      omega
    | some victim =>
      obtain ⟨cache₁, hrun, h', -, hbuckets, hmax, -, -⟩ := h.evict hlast
      obtain rfl : cache₁ = cache' := Option.some.inj (hrun.symm.trans hround)
      have hordered : (lru.erase victim).Sublist (most_recent used) := List.erase_sublist.trans horder
      refine ⟨⟨_, _, h', hordered, hbuckets, hmax⟩, victim, List.mem_of_getLast? hlast, ?_, ?_⟩
      · obtain ⟨xs, rfl⟩ := List.getLast?_eq_some_iff.mp hlast
        rw [erase_concat h.list.nodup]
        exact leastRecent_of_sublist horder
      · have hagree := h'.indexes_agree
        rwa [hbuckets, hmax] at hagree
  · cases hround

theorem run_used_in_order (h : UsedInOrder bucket_count max_size cache used) (hmax : max_size < 2 ^ 63)
    {calls : List cache_call_t} (hcalls : ∀ c ∈ calls, c.added ≤ max_size) :
    ∃ s, calls.foldlM use_cache { cache := cache, used := used } = some s ∧
      UsedInOrder bucket_count max_size s.cache s.used := by
  refine foldlM_history (fun _ (s : used_cache_t) => UsedInOrder bucket_count max_size s.cache s.used) h ?_
  intro past c s hnow h
  exact h.use_cache hmax (hcalls c (hnow.subset (by simp)))

end Used

/-- The eviction loop of `cache_put` is made of its rounds. -/
theorem evict_until_fits_rounds {size fuel : Nat} {cache cache' : cache_t}
    (h : evict_until_fits size fuel cache = some cache') :
    Reachable (evict_round size) cache cache' ∧ evict_round size cache' () = none := by
  induction fuel generalizing cache with
  | zero => cases h
  | succ fuel ih =>
    rw [evict_until_fits] at h
    split at h
    · next hfull =>
      obtain ⟨cache₁, hrun, hrest⟩ := Option.bind_eq_some_iff.mp h
      obtain ⟨hreached, hend⟩ := ih hrest
      have hfirst : Reachable (evict_round size) cache cache₁ :=
        .step () .start (by rw [evict_round, if_pos hfull, hrun])
      exact ⟨hreached.trans hfirst, hend⟩
    · next hfits =>
      cases h
      exact ⟨.start, if_neg hfits⟩

/-- After any calls on a fresh cache the two indexes agree, and they do after
each round of the eviction loop of a further `cache_put`, which removes the
entry that was put or got least recently. -/
theorem cache_indexes_agree {bucket_count max_size : Nat} (hbuckets : 1 ≤ bucket_count) (hmax : max_size < 2 ^ 63)
    {calls : List cache_call_t} (hcalls : ∀ c ∈ calls, c.added ≤ max_size) :
    ∃ s, calls.foldlM use_cache { cache := create_cache max_size bucket_count, used := [] } = some s ∧
      (∃ entries, IndexesAgree bucket_count max_size s.cache entries) ∧
      ∀ size ≤ max_size, ∀ cache, Reachable (evict_round size) s.cache cache →
        ∃ entries, IndexesAgree bucket_count max_size cache entries ∧
          ∀ cache', evict_round size cache () = some cache' →
            ∃ victim ∈ entries, LeastRecent s.used victim (entries.erase victim) ∧
              IndexesAgree bucket_count max_size cache' (entries.erase victim) := by
  obtain ⟨s, hrun, hs⟩ := run_used_in_order (create_cache_used_in_order hbuckets hmax) hmax hcalls
  refine ⟨s, hrun, ?_, ?_⟩
  · obtain ⟨entries, hagree, -⟩ := hs.evict_round (Nat.zero_le _)
    exact ⟨entries, hagree⟩
  · intro size hsize cache hreached
    have hcache : UsedInOrder bucket_count max_size cache s.used := by
      refine hreached.invariant (P := fun c => UsedInOrder bucket_count max_size c s.used) hs ?_
      intro c c' _ hc hround
      obtain ⟨entries, -, hkept⟩ := hc.evict_round hsize
      exact (hkept c' hround).1
    obtain ⟨entries, hagree, hround⟩ := hcache.evict_round hsize
    exact ⟨entries, hagree, fun cache' hcache' => (hround cache' hcache').2⟩

/-- Two puts under one key, a lookup of it, and a put that needs an eviction. -/
theorem cache_indexes_agree_repeated :
    ∃ s, [cache_call_t.put 0 [97] [1, 2] 2, .put 0 [97] [3, 4] 2, .get 0 [97], .put 0 [98] [5] 1].foldlM use_cache
        { cache := create_cache 4 1, used := [] } = some s ∧
      (∃ entries, IndexesAgree 1 4 s.cache entries) ∧
      ∀ size ≤ 4, ∀ cache, Reachable (evict_round size) s.cache cache →
        ∃ entries, IndexesAgree 1 4 cache entries ∧
          ∀ cache', evict_round size cache () = some cache' →
            ∃ victim ∈ entries, LeastRecent s.used victim (entries.erase victim) ∧
              IndexesAgree 1 4 cache' (entries.erase victim) :=
  cache_indexes_agree (by decide) (by decide) (by simp [cache_call_t.added])

end csystems.block_cache
