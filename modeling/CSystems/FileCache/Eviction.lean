import Mathlib.Data.List.Nodup
import CSystems.FileCache.Files
import CSystems.FileCache.Links
import CSystems.Lib.HashTable

open clib.hash_table clib.heap

namespace csystems.file_cache.cached_files

/-- The entries of all buckets. -/
def cells (chains : Nat → List Nat) : List Nat := (List.range CACHE_SIZE).flatMap chains

/-- `chains b` are the entries of bucket `b`. Each of them is in one bucket only and has a
buffer of the pool. -/
structure Filed (cache : file_cache_t) (chains : Nat → List Nat) : Prop where
  length : cache.files.length = CACHE_SIZE
  chain : ∀ b head, cache.files[b]? = some head → Chain (cache.heap.field cached_file_t.next) head (chains b)
  nodup : (cells chains).Nodup
  live : ∀ a ∈ cells chains, ∃ f, cache.heap.get a = some f ∧ f.buffer < cache.buffer_pool.buffers.length

/-- The cache after an entry was taken out of its bucket, with the state of the pool
that gives its buffer back. -/
def removed (cache : file_cache_t) (chains : Nat → List Nat) (pool : buffer_pool_t) (b a : Nat) : file_cache_t where
  buffer_pool := pool
  files := if pred (chains b) a = none then cache.files.set b (succ (chains b) a) else cache.files
  cached_files_count := cache.cached_files_count - 1
  heap := unlinked cache.heap .set_next (chains b) a

section Cells

variable {chains chains' : Nat → List Nat} {b b' a : Nat}

theorem mem_cells (hb : b < CACHE_SIZE) (ha : a ∈ chains b) : a ∈ cells chains :=
  List.mem_flatMap.mpr ⟨b, List.mem_range.mpr hb, ha⟩

private theorem disjoint_of_lt (hnodup : (cells chains).Nodup) (hlt : b < b') (hb' : b' < CACHE_SIZE) :
    List.Disjoint (chains b) (chains b') := by
  have hpairwise := List.pairwise_iff_getElem.mp (List.nodup_flatMap.mp hnodup).2 b b'
    (by rw [List.length_range]; omega) (by rwa [List.length_range]) hlt
  rwa [List.getElem_range, List.getElem_range] at hpairwise

/-- An entry is in one bucket only. -/
theorem bucket_eq (hnodup : (cells chains).Nodup) (hb : b < CACHE_SIZE) (hb' : b' < CACHE_SIZE) (ha : a ∈ chains b)
    (ha' : a ∈ chains b') : b = b' := by
  rcases Nat.lt_trichotomy b b' with hlt | heq | hlt
  · exact absurd ha' (disjoint_of_lt hnodup hlt hb' ha)
  · exact heq
  · exact absurd ha (disjoint_of_lt hnodup hlt hb ha')

/-- What one bucket has more than before, all of them together have more. -/
theorem cells_perm (hb : b < CACHE_SIZE) (hself : (chains b).Perm (a :: chains' b))
    (hother : ∀ c, c ≠ b → chains c = chains' c) : (cells chains).Perm (a :: cells chains') := by
  obtain ⟨first, rest, hsplit⟩ := List.append_of_mem (List.mem_range.mpr hb)
  have hnodup : (first ++ b :: rest).Nodup := hsplit ▸ List.nodup_range
  obtain ⟨-, hcons, hdisjoint⟩ := List.nodup_append.mp hnodup
  have hfirst : first.flatMap chains = first.flatMap chains' := by
    refine List.flatMap_congr fun c hc => hother c ?_
    rintro rfl
    exact hdisjoint c hc c List.mem_cons_self rfl
  have hrest : rest.flatMap chains = rest.flatMap chains' := by
    refine List.flatMap_congr fun c hc => hother c ?_
    rintro rfl
    exact (List.nodup_cons.mp hcons).1 hc
  rw [cells, cells, hsplit, List.flatMap_append, List.flatMap_append, List.flatMap_cons, List.flatMap_cons, hfirst,
    hrest]
  exact ((hself.append_right _).append_left _).trans List.perm_middle

theorem cells_push (hb : b < CACHE_SIZE) :
    (cells (Function.update chains b (a :: chains b))).Perm (a :: cells chains) := by
  refine cells_perm hb ?_ fun c hc => Function.update_of_ne hc _ _
  rw [Function.update_self]

theorem cells_erase (hb : b < CACHE_SIZE) (ha : a ∈ chains b) :
    (cells chains).Perm (a :: cells (Function.update chains b ((chains b).erase a))) := by
  refine cells_perm hb ?_ fun c hc => (Function.update_of_ne hc _ _).symm
  rw [Function.update_self]
  exact List.perm_cons_erase ha

end Cells

section Filed

variable {cache : file_cache_t} {chains : Nat → List Nat}

theorem Filed.files_get (h : Filed cache chains) {b : Nat} (hb : b < CACHE_SIZE) :
    ∃ head, cache.files[b]? = some head ∧ Chain (cache.heap.field cached_file_t.next) head (chains b) := by
  have hlt : b < cache.files.length := h.length ▸ hb
  exact ⟨_, List.getElem?_eq_getElem hlt, h.chain b _ (List.getElem?_eq_getElem hlt)⟩

/-- No chain is longer than the number of addresses handed out. -/
theorem Filed.length_lt (h : Filed cache chains) {b : Nat} (hb : b < CACHE_SIZE) : (chains b).length < cache.fuel := by
  obtain ⟨head, -, hchain⟩ := h.files_get hb
  refine Nat.lt_succ_of_le (length_le_of_nodup_lt hchain.nodup fun a ha => ?_)
  obtain ⟨f, hf, -⟩ := h.live a (mem_cells hb ha)
  exact Heap.lt_next_of_get hf

/-- The best entry so far is where the scan says it is. -/
def Located (chains : Nat → List Nat) (best : Option best_t) : Prop :=
  ∀ e, best = some e → e.index < CACHE_SIZE ∧ e.entry ∈ chains e.index ∧ e.prev = pred (chains e.index) e.entry

/-- No entry seen so far is better than the best one, which exists once an entry was seen. -/
structure Preferred (cache : file_cache_t) (better : Int64 → Int64 → Bool) (seen : List Nat) (best : Option best_t) :
    Prop where
  found : best = none → seen = []
  least : ∀ e, best = some e → ∀ a ∈ seen, ∀ f g, cache.heap.get a = some f → cache.heap.get e.entry = some g →
    better f.last_accessed g.last_accessed = false

/-- The comparison of a removal by time. -/
structure StrictOrder (better : Int64 → Int64 → Bool) : Prop where
  irrefl : ∀ t, better t t = false
  trans : ∀ s t u, better s t = true → better t u = true → better s u = true

section Scan

variable {better : Int64 → Int64 → Bool} {seen : List Nat}

theorem preferred_none : Preferred cache better [] none := ⟨fun _ => rfl, fun _ he => by cases he⟩

/-- The first entry seen is the best. -/
theorem StrictOrder.first (hbetter : StrictOrder better) {a : Nat} {prev : Option Nat} {i : Nat} :
    Preferred cache better [a] (some ⟨a, prev, i⟩) := by
  refine ⟨nofun, ?_⟩
  rintro e he c hc f g hf hg
  obtain rfl := Option.some.inj he
  obtain rfl := List.mem_singleton.mp hc
  obtain rfl := Option.some.inj (hf.symm.trans hg)
  exact hbetter.irrefl _

/-- One turn of the inner loop. -/
theorem Preferred.next (hbetter : StrictOrder better) {e : best_t} (h : Preferred cache better seen (some e)) {a : Nat}
    {f g : cached_file_t} (hf : cache.heap.get a = some f) (hg : cache.heap.get e.entry = some g) (prev : Option Nat)
    (i : Nat) :
    Preferred cache better (seen ++ [a])
      (some (if better f.last_accessed g.last_accessed then ⟨a, prev, i⟩ else e)) := by
  refine ⟨nofun, ?_⟩
  rintro e' he' c hc f' g' hf' hg'
  obtain rfl := Option.some.inj he'
  rcases List.mem_append.mp hc with hseen | hself
  · have hleast := h.least e rfl c hseen f' g hf' hg
    split at hg'
    · rename_i hnew
      obtain rfl := Option.some.inj (hf.symm.trans hg')
      -- a better entry than the new best one would have been better than the old one
      rw [Bool.eq_false_iff]
      intro hlater
      rw [hbetter.trans _ _ _ hlater hnew] at hleast
      cases hleast
    · obtain rfl := Option.some.inj (hg.symm.trans hg')
      exact hleast
  · obtain rfl := List.mem_singleton.mp hself
    obtain rfl := Option.some.inj (hf.symm.trans hf')
    split at hg'
    · obtain rfl := Option.some.inj (hf.symm.trans hg')
      exact hbetter.irrefl _
    · rename_i hold
      obtain rfl := Option.some.inj (hg.symm.trans hg')
      exact Bool.eq_false_iff.mpr hold

/-- The scan of the rest of a chain. -/
private theorem scan_chain_best (h : Filed cache chains) (hbetter : StrictOrder better) {i : Nat} (hi : i < CACHE_SIZE)
    {first rest : List Nat} (hsplit : chains i = first ++ rest)
    (hchain : Chain (cache.heap.field cached_file_t.next) rest.head? rest) {fuel : Nat} (hfuel : rest.length < fuel)
    {best : Option best_t} (hbest : Located chains best) (hseen : Preferred cache better seen best) :
    ∃ best', scan_chain cache.heap better i fuel rest.head? first.getLast? best = some best' ∧
      Located chains best' ∧ Preferred cache better (seen ++ rest) best' := by
  induction rest generalizing first fuel best seen with
  | nil =>
    obtain ⟨fuel, rfl⟩ : ∃ k, fuel = k + 1 := ⟨fuel - 1, by omega⟩
    rw [List.append_nil]
    exact ⟨best, rfl, hbest, hseen⟩
  | cons a rest ih =>
    obtain ⟨fuel, rfl⟩ : ∃ k, fuel = k + 1 := ⟨fuel - 1, by simp at hfuel; omega⟩
    obtain ⟨hnext, htail⟩ := hchain.tail
    have ha : a ∈ chains i := by simp [hsplit]
    obtain ⟨f, hf, -⟩ := h.live a (mem_cells hi ha)
    have hlink : f.next = rest.head? := by simpa [Heap.field, hf] using hnext
    have hsplit' : chains i = (first ++ [a]) ++ rest := by simpa using hsplit
    have hself : Located chains (some ⟨a, first.getLast?, i⟩) := by
      rintro e he
      obtain rfl := Option.some.inj he
      have hnodup : (first ++ a :: rest).Nodup := hsplit ▸ (List.nodup_flatMap.mp h.nodup).1 i (List.mem_range.mpr hi)
      exact ⟨hi, ha, by rw [hsplit, pred_append_cons hnodup]⟩
    have hlast : (first ++ [a]).getLast? = some a := by simp
    have hfuel' : rest.length < fuel := by simpa using hfuel
    have hrest {best : Option best_t} (hbest : Located chains best)
        (hseen : Preferred cache better (seen ++ [a]) best) := ih hsplit' htail hfuel' hbest hseen
    rw [hlast, List.append_assoc, List.singleton_append] at hrest
    rw [List.head?_cons, scan_chain, hf, Option.bind_eq_bind, Option.bind_some]
    cases best with
    | none =>
      obtain rfl := hseen.found rfl
      rw [hlink]
      exact hrest hself hbetter.first
    | some e =>
      obtain ⟨hindex, hentry, hprev⟩ := hbest e rfl
      obtain ⟨g, hg, -⟩ := h.live e.entry (mem_cells hindex hentry)
      dsimp only
      rw [hg, Option.bind_some, hlink]
      refine hrest ?_ (hseen.next hbetter hf hg _ i)
      split
      · exact hself
      · exact hbest

private theorem scan_files_best (h : Filed cache chains) (hbetter : StrictOrder better) {buckets : List Nat}
    (hbuckets : ∀ i ∈ buckets, i < CACHE_SIZE) {best : Option best_t} (hbest : Located chains best)
    (hseen : Preferred cache better seen best) :
    ∃ best', scan_files cache better buckets best = some best' ∧ Located chains best' ∧
      Preferred cache better (seen ++ buckets.flatMap chains) best' := by
  induction buckets generalizing best seen with
  | nil =>
    rw [List.flatMap_nil, List.append_nil]
    exact ⟨best, rfl, hbest, hseen⟩
  | cons i rest ih =>
    have hi := hbuckets i List.mem_cons_self
    obtain ⟨head, hhead, hchain⟩ := h.files_get hi
    have hstart := hchain.head_eq
    subst hstart
    obtain ⟨best', hscan, hbest', hseen'⟩ := scan_chain_best h hbetter hi
      (show chains i = [] ++ chains i from rfl) hchain (h.length_lt hi) hbest hseen
    rw [scan_files, hhead, Option.bind_eq_bind, Option.bind_some]
    rw [List.getLast?_nil] at hscan
    rw [hscan, Option.bind_eq_bind, Option.bind_some, List.flatMap_cons, ← List.append_assoc]
    exact ih (fun j hj => hbuckets j (List.mem_cons_of_mem _ hj)) hbest' hseen'

/-- The scan of all buckets ends with an entry that no other one is better than, if there
is an entry at all. -/
theorem scan_files_eq (h : Filed cache chains) (hbetter : StrictOrder better) :
    ∃ best, scan_files cache better (List.range CACHE_SIZE) none = some best ∧ Located chains best ∧
      Preferred cache better (cells chains) best :=
  scan_files_best h hbetter (fun _ hi => List.mem_range.mp hi) (fun _ he => by cases he) preferred_none

end Scan

/-- The buffer of an entry can be released, in use or not. -/
theorem release_buffer_some {pool : buffer_pool_t} {i : Nat} (hlt : i < pool.buffers.length) :
    ∃ pool', release_buffer pool i = some pool' ∧ pool'.buffers.length = pool.buffers.length := by
  rw [release_buffer, List.getElem?_eq_getElem hlt, Option.bind_eq_bind, Option.bind_some]
  split
  · exact ⟨pool, rfl, rfl⟩
  · exact ⟨_, rfl, List.length_set⟩

theorem remove_entry_eq (h : Filed cache chains) {b a : Nat} (hb : b < CACHE_SIZE) (ha : a ∈ chains b)
    {f : cached_file_t} (hf : cache.heap.get a = some f) {pool : buffer_pool_t}
    (hrelease : release_buffer cache.buffer_pool f.buffer = some pool) :
    remove_entry cache b (pred (chains b) a) a = some (removed cache chains pool b a) := by
  obtain ⟨head, -, hchain⟩ := h.files_get hb
  have hnext : f.next = succ (chains b) a := by
    have hlink := hchain.next_eq a ha
    simpa [Heap.field, hf] using hlink
  have hlive : ∀ c, pred (chains b) a = some c → ∃ g, cache.heap.get c = some g := by
    intro c hc
    obtain ⟨g, hg, -⟩ := h.live c (mem_cells hb (mem_of_pred_eq_some hc))
    exact ⟨g, hg⟩
  have hsame : (cache.heap.update_if (pred (chains b) a) (.set_next (succ (chains b) a))).get a = some f := by
    rw [Heap.get_update_if_of_ne _ (pred_ne_self hchain.nodup a), hf]
  simp [remove_entry, hf, hnext, Heap.modify_if_of_live hlive, hsame, hrelease, Heap.free_of_get hsame, removed,
    unlinked]

/-- The entries that stay, apart from their links. -/
theorem get_removed {b a c : Nat} (pool : buffer_pool_t) (hne : c ≠ a) :
    ((removed cache chains pool b a).heap.get c).map (cached_file_t.set_next none) =
      (cache.heap.get c).map (cached_file_t.set_next none) := by
  have hset : ∀ p v, cached_file_t.set_next none (cached_file_t.set_next p v) = cached_file_t.set_next none v :=
    fun _ _ => rfl
  exact field_unlinked cache.heap hset (chains b) hne

theorem Filed.removed (h : Filed cache chains) {b a : Nat} (hb : b < CACHE_SIZE) (ha : a ∈ chains b)
    {pool : buffer_pool_t} (hlength : pool.buffers.length = cache.buffer_pool.buffers.length) :
    Filed (removed cache chains pool b a) (Function.update chains b ((chains b).erase a)) := by
  have hcells : (cells chains).Perm (a :: cells (Function.update chains b ((chains b).erase a))) := cells_erase hb ha
  obtain ⟨hnew, hnodup⟩ := List.nodup_cons.mp (hcells.nodup_iff.mp h.nodup)
  refine ⟨?_, ?_, hnodup, ?_⟩
  · dsimp only [cached_files.removed]
    split
    · rw [List.length_set]
      exact h.length
    · exact h.length
  · intro c first hfirst
    have hdisjoint : ∀ c < cache.files.length, c ≠ b → ∀ d ∈ chains c, d ∉ chains b := by
      intro c hc hne d hd hmem
      exact hne (bucket_eq h.nodup (h.length ▸ hc) hb hd hmem)
    have hlive : ∀ d ∈ chains b, ∃ g, cache.heap.get d = some g := by
      intro d hd
      obtain ⟨g, hg, -⟩ := h.live d (mem_cells hb hd)
      exact ⟨g, hg⟩
    have hchain := chain_unlink (fun p (g : cached_file_t) => (rfl : (g.set_next p).next = p)) h.chain
      (h.length ▸ hb) ha hdisjoint hlive hfirst
    by_cases hc : c = b
    · subst c
      rwa [Function.update_self]
    · have hlt : c < cache.files.length := by
        have hlt := (List.getElem?_eq_some_iff.mp hfirst).1
        dsimp only [cached_files.removed] at hlt
        split at hlt
        · rwa [List.length_set] at hlt
        · exact hlt
      rw [Function.update_of_ne hc]
      rwa [List.erase_of_not_mem fun hmem => hdisjoint c hlt hc a hmem ha] at hchain
  · intro c hc
    have hne : c ≠ a := fun heq => hnew (heq ▸ hc)
    obtain ⟨f, hf, hlt⟩ := h.live c (hcells.symm.subset (List.mem_cons_of_mem _ hc))
    have hsame : ((cached_files.removed cache chains pool b a).heap.get c).map (cached_file_t.set_next none) =
        (cache.heap.get c).map (cached_file_t.set_next none) := get_removed pool hne
    rw [hf, Option.map_some, Option.map_eq_some_iff] at hsame
    obtain ⟨g, hg, hfields⟩ := hsame
    have hbuffer : (g.set_next none).buffer = (f.set_next none).buffer := congrArg cached_file_t.buffer hfields
    exact ⟨g, hg, hlength ▸ hbuffer ▸ hlt⟩

/-- The cache after exactly the entry `a` of bucket `b` was taken out. -/
structure Evicted (cache : file_cache_t) (chains : Nat → List Nat) (b a : Nat) (cache' : file_cache_t) : Prop where
  bucket : b < CACHE_SIZE
  entry : a ∈ chains b
  freed : cache'.heap.get a = none
  filed : Filed cache' (Function.update chains b ((chains b).erase a))
  kept : ∀ c, c ≠ a →
    (cache'.heap.get c).map (cached_file_t.set_next none) = (cache.heap.get c).map (cached_file_t.set_next none)
  count : cache'.cached_files_count = cache.cached_files_count - 1
  released : ∃ f, cache.heap.get a = some f ∧ release_buffer cache.buffer_pool f.buffer = some cache'.buffer_pool

/-- A removal by time takes out an entry that no other one is better than. -/
theorem remove_by_time_evicts (h : Filed cache chains) {better : Int64 → Int64 → Bool} (hbetter : StrictOrder better) :
    (cells chains = [] → remove_by_time better cache = some cache) ∧
      (cells chains ≠ [] → ∃ b a cache', remove_by_time better cache = some cache' ∧ Evicted cache chains b a cache' ∧
        ∀ c ∈ cells chains, ∀ f g, cache.heap.get c = some f → cache.heap.get a = some g →
          better f.last_accessed g.last_accessed = false) := by
  obtain ⟨best, hscan, hbest, hleast⟩ := scan_files_eq h hbetter
  rw [remove_by_time, hscan, Option.bind_eq_bind, Option.bind_some]
  cases best with
  | none => exact ⟨fun _ => rfl, fun hsome => absurd (hleast.found rfl) hsome⟩
  | some e =>
    obtain ⟨hindex, hentry, hprev⟩ := hbest e rfl
    have hmem : e.entry ∈ cells chains := mem_cells hindex hentry
    obtain ⟨f, hf, hlt⟩ := h.live e.entry hmem
    obtain ⟨pool, hrelease, hlength⟩ := release_buffer_some hlt
    refine ⟨fun hnil => absurd hmem (by simp [hnil]), fun _ => ?_⟩
    refine ⟨e.index, e.entry, removed cache chains pool e.index e.entry, ?_, ?_, hleast.least e rfl⟩
    · dsimp only
      rw [hprev]
      exact remove_entry_eq h hindex hentry hf hrelease
    · exact ⟨hindex, hentry, by simp [removed, unlinked, Heap.get_erase], h.removed hindex hentry hlength,
        fun c hc => get_removed pool hc, rfl, f, hf, hrelease⟩

theorem strictOrder_lt : StrictOrder fun curr lru => decide (curr < lru) where
  irrefl _ := decide_eq_false Int64.lt_irrefl
  trans _ _ _ hst htu := decide_eq_true (Int64.lt_trans (of_decide_eq_true hst) (of_decide_eq_true htu))

theorem strictOrder_gt : StrictOrder fun curr mru => decide (curr > mru) where
  irrefl _ := decide_eq_false Int64.lt_irrefl
  trans _ _ _ hst htu := decide_eq_true (Int64.lt_trans (of_decide_eq_true htu) (of_decide_eq_true hst))

/-- The two removals take out one entry with the smallest and with the largest time of
access, and leave an empty cache alone. -/
theorem evicts_one_entry (h : Filed cache chains) :
    (cells chains = [] → remove_lru_cached_file cache = some cache ∧ remove_mru_cached_file cache = some cache) ∧
      (cells chains ≠ [] →
        (∃ b a cache', remove_lru_cached_file cache = some cache' ∧ Evicted cache chains b a cache' ∧
          ∀ c ∈ cells chains, ∀ f lru, cache.heap.get c = some f → cache.heap.get a = some lru →
            lru.last_accessed ≤ f.last_accessed) ∧
        ∃ b a cache', remove_mru_cached_file cache = some cache' ∧ Evicted cache chains b a cache' ∧
          ∀ c ∈ cells chains, ∀ f mru, cache.heap.get c = some f → cache.heap.get a = some mru →
            f.last_accessed ≤ mru.last_accessed) := by
  obtain ⟨hlru_nil, hlru⟩ := remove_by_time_evicts h strictOrder_lt
  obtain ⟨hmru_nil, hmru⟩ := remove_by_time_evicts h strictOrder_gt
  refine ⟨fun hnil => ⟨hlru_nil hnil, hmru_nil hnil⟩, fun hsome => ⟨?_, ?_⟩⟩
  · obtain ⟨b, a, cache', hrun, hevicted, hleast⟩ := hlru hsome
    refine ⟨b, a, cache', hrun, hevicted, fun c hc f lru hf hget => ?_⟩
    exact Int64.not_lt.mp (of_decide_eq_false (hleast c hc f lru hf hget))
  · obtain ⟨b, a, cache', hrun, hevicted, hleast⟩ := hmru hsome
    refine ⟨b, a, cache', hrun, hevicted, fun c hc f mru hf hget => ?_⟩
    exact Int64.not_lt.mp (of_decide_eq_false (hleast c hc f mru hf hget))

end Filed

/-- Four files, of which the second was not accessed for longest and the last most
recently. -/
def four_files : List cached_file_t :=
  [⟨[97], 0, 4, 5, some 1⟩, ⟨[98], 1, 4, 2, some 2⟩, ⟨[99], 2, 4, 8, none⟩, ⟨[100], 3, 4, 9, none⟩]

/-- A cache with the first three in one bucket and the last in another. -/
def four_cache : file_cache_t where
  buffer_pool := create_buffer_pool (fun _ => Vector.replicate BUFFER_SIZE 0) POOL_SIZE
  files := some 0 :: some 3 :: List.replicate (CACHE_SIZE - 2) none
  cached_files_count := 4
  heap := four_files.foldl (fun heap f => (heap.alloc f).2) Heap.empty

def four_chains (b : Nat) : List Nat := if b = 0 then [0, 1, 2] else if b = 1 then [3] else []

theorem four_cache_filed : Filed four_cache four_chains := by
  have hcells : cells four_chains = [0, 1, 2, 3] := by decide
  refine ⟨by simp [four_cache, CACHE_SIZE], ?_, by simp [hcells], ?_⟩
  · intro b head hhead
    match b with
    | 0 =>
      obtain rfl : some 0 = head := Option.some.inj hhead
      refine ⟨by decide, rfl, fun a ha => ?_⟩
      obtain rfl | rfl | rfl : a = 0 ∨ a = 1 ∨ a = 2 := by simpa [four_chains] using ha
      all_goals rfl
    | 1 =>
      obtain rfl : some 3 = head := Option.some.inj hhead
      refine ⟨by decide, rfl, fun a ha => ?_⟩
      obtain rfl : a = 3 := by simpa [four_chains] using ha
      rfl
    | b + 2 =>
      obtain ⟨-, rfl⟩ : b < CACHE_SIZE - 2 ∧ none = head := by
        simpa [four_cache, List.getElem?_replicate] using hhead
      exact chain_nil _
  · intro a ha
    rw [hcells] at ha
    have hbuffers : four_cache.buffer_pool.buffers.length = POOL_SIZE := by simp [four_cache, create_buffer_pool]
    rw [hbuffers]
    obtain rfl | rfl | rfl | rfl : a = 0 ∨ a = 1 ∨ a = 2 ∨ a = 3 := by simpa using ha
    all_goals exact ⟨_, rfl, by decide⟩

/-- The entry that goes is inside its chain, and the two beside it are linked up. -/
theorem evicts_one_of_four :
    (∃ cache', remove_lru_cached_file four_cache = some cache' ∧ Evicted four_cache four_chains 0 1 cache') ∧
      ∃ cache', remove_mru_cached_file four_cache = some cache' ∧ Evicted four_cache four_chains 1 3 cache' := by
  obtain ⟨⟨b, a, cache', hlru, hevicted, hleast⟩, b', a', cache'', hmru, hevicted', hmost⟩ :=
    (evicts_one_entry four_cache_filed).2 (by decide)
  have hcell {b a : Nat} (hb : b < CACHE_SIZE) (ha : a ∈ four_chains b) :
      (b, a) ∈ [(0, 0), (0, 1), (0, 2), (1, 3)] := by
    match b with
    | 0 => simpa [four_chains] using ha
    | 1 => simpa [four_chains] using ha
    | b + 2 => simp [four_chains] at ha
  have htimes {b a : Nat} (hmem : (b, a) ∈ [(0, 0), (0, 1), (0, 2), (1, 3)]) :
      ∃ f, four_cache.heap.get a = some f ∧
        (f.last_accessed ≤ 2 → (b, a) = (0, 1)) ∧ (9 ≤ f.last_accessed → (b, a) = (1, 3)) := by
    simp only [List.mem_cons, Prod.mk.injEq, List.not_mem_nil, or_false] at hmem
    obtain ⟨rfl, rfl⟩ | ⟨rfl, rfl⟩ | ⟨rfl, rfl⟩ | ⟨rfl, rfl⟩ := hmem
    all_goals exact ⟨_, rfl, by decide, by decide⟩
  obtain ⟨f, hf, hold, -⟩ := htimes (hcell hevicted.bucket hevicted.entry)
  obtain ⟨g, hg, -, hnew⟩ := htimes (hcell hevicted'.bucket hevicted'.entry)
  obtain ⟨rfl, rfl⟩ := Prod.mk.inj (hold (hleast 1 (by decide) _ f rfl hf))
  obtain ⟨rfl, rfl⟩ := Prod.mk.inj (hnew (hmost 3 (by decide) _ g rfl hg))
  exact ⟨⟨cache', hlru, hevicted⟩, cache'', hmru, hevicted'⟩

end csystems.file_cache.cached_files
