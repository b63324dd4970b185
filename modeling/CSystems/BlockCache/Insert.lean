import Mathlib.Data.List.Induction
import CSystems.BlockCache.Lookup

open clib.string clib.heap

namespace csystems.block_cache

/-- A prefix is the whole list or misses its last element. -/
private theorem prefix_dropLast_or_eq {front lru : List Nat} (hfront : front <+: lru) :
    front <+: lru.dropLast ∨ front = lru := by
  induction lru using List.reverseRecOn with
  | nil => exact .inr (List.prefix_nil.mp hfront)
  | append_singleton xs x _ =>
    rw [List.dropLast_concat]
    exact (List.prefix_concat_iff.mp hfront).symm

section Put

variable {cache : cache_t} {lru : List Nat} {chains : Nat → List Nat}

/-- When the eviction loop of `cache_put` ends it has dropped least recently used
entries until the new one fits, and no more of them. -/
theorem Accounted.of_evict_until_fits (h : Accounted cache lru chains) {size fuel : Nat} {cache' : cache_t}
    (hrun : evict_until_fits size fuel cache = some cache') :
    ∃ kept chains', Accounted cache' kept chains' ∧ kept <+: lru ∧
      (∀ front, front <+: lru →
        ((front.map (entry_size cache.heap)).sum + size) % SIZE_MOD ≤ cache.max_size → front <+: kept) ∧
      (∀ a ∈ kept, cache'.heap.field cache_entry_t.contents a = cache.heap.field cache_entry_t.contents a) ∧
      cache'.bucket_count = cache.bucket_count ∧ cache'.max_size = cache.max_size ∧
      cache'.heap.next = cache.heap.next ∧ (cache'.current_size + size) % SIZE_MOD ≤ cache.max_size := by
  induction fuel generalizing cache lru chains with
  | zero => cases hrun
  | succ fuel ih =>
    rw [evict_until_fits] at hrun
    split at hrun
    · next hfull =>
      obtain ⟨cache₁, chains₁, hrun₁, h₁, hcontents₁, hbuckets₁, hmax₁, hnext₁⟩ := h.evict_lru
      rw [hrun₁] at hrun
      obtain ⟨kept, chains₂, h₂, hkeep, hlongest, hcontents₂, hbuckets₂, hmax₂, hnext₂, hfits⟩ := ih h₁ hrun
      refine ⟨kept, chains₂, h₂, hkeep.trans (List.dropLast_prefix lru), ?_, ?_, hbuckets₂.trans hbuckets₁,
        hmax₂.trans hmax₁, hnext₂.trans hnext₁, by rwa [hmax₁] at hfits⟩
      · intro front hfront hfit
        have hfront : front <+: lru.dropLast := by
          refine (prefix_dropLast_or_eq hfront).resolve_right ?_
          rintro rfl
          rw [h.size_eq, Nat.mod_add_mod] at hfull
          omega
        refine hlongest front hfront ?_
        rwa [hmax₁, List.map_congr_left fun a ha => entry_size_congr (hcontents₁ a (hfront.subset ha))]
      · intro a ha
        rw [hcontents₂ a ha, hcontents₁ a (hkeep.subset ha)]
    · next hfits =>
      cases hrun
      exact ⟨lru, chains, h, List.prefix_rfl, fun _ hfront _ => hfront, fun _ _ => rfl, rfl, rfl, rfl, by omega⟩

/-- The eviction loop of `cache_put` ends if the new entry fits next to some of
the most recently used ones. -/
theorem Accounted.evict_until_fits_ends (h : Accounted cache lru chains) {size fuel : Nat}
    (hfuel : lru.length < fuel) {front : List Nat} (hfront : front <+: lru)
    (hfit : ((front.map (entry_size cache.heap)).sum + size) % SIZE_MOD ≤ cache.max_size) :
    ∃ cache', evict_until_fits size fuel cache = some cache' := by
  induction fuel generalizing cache lru chains with
  | zero => omega
  | succ fuel ih =>
    rw [evict_until_fits]
    split
    · next hfull =>
      obtain ⟨cache₁, chains₁, hrun₁, h₁, hcontents₁, -, hmax₁, -⟩ := h.evict_lru
      have hne : front ≠ lru := by
        rintro rfl
        rw [h.size_eq, Nat.mod_add_mod] at hfull
        omega
      have hfront := (prefix_dropLast_or_eq hfront).resolve_right hne
      have hlength : lru.dropLast.length < fuel := by
        have hpos : lru ≠ [] := by
          rintro rfl
          exact hne (List.prefix_nil.mp hfront)
        have hpos := List.length_pos_iff.mpr hpos
        rw [List.length_dropLast]
        omega
      rw [hrun₁]
      refine ih h₁ hlength hfront ?_
      rwa [hmax₁, List.map_congr_left fun a ha => entry_size_congr (hcontents₁ a (hfront.subset ha))]
    · exact ⟨cache, rfl⟩

/-- The eviction loop of `cache_put` ends, dropping least recently used entries
until the new one fits, and no more of them. -/
theorem Represents.evict_until_fits_spec (h : Represents cache lru chains) {size fuel : Nat}
    (hsize : size ≤ cache.max_size) (hwrap : cache.max_size + size < SIZE_MOD) (hfuel : lru.length < fuel) :
    ∃ cache' lru' chains', evict_until_fits size fuel cache = some cache' ∧ Represents cache' lru' chains' ∧
      lru' <+: lru ∧
      (∀ front, front <+: lru → (front.map (entry_size cache.heap)).sum + size ≤ cache.max_size → front <+: lru') ∧
      (∀ a ∈ lru', cache'.heap.field cache_entry_t.contents a = cache.heap.field cache_entry_t.contents a) ∧
      cache'.bucket_count = cache.bucket_count ∧ cache'.max_size = cache.max_size ∧
      cache'.heap.next = cache.heap.next ∧ cache'.current_size + size ≤ cache.max_size := by
  have hempty : ((([] : List Nat).map (entry_size cache.heap)).sum + size) % SIZE_MOD ≤ cache.max_size := by
    rw [List.map_nil, List.sum_nil, Nat.zero_add, Nat.mod_eq_of_lt (by omega)]
    exact hsize
  obtain ⟨cache', hrun⟩ := h.accounted.evict_until_fits_ends hfuel List.nil_prefix hempty
  obtain ⟨kept, chains', h', hkeep, hlongest, hcontents, hbuckets, hmax, hnext, hfits⟩ :=
    h.accounted.of_evict_until_fits hrun
  have hsum : (kept.map (entry_size cache'.heap)).sum ≤ cache.max_size := by
    rw [List.map_congr_left fun a ha => entry_size_congr (hcontents a ha)]
    refine Nat.le_trans ((hkeep.map _).sublist.sum_le_sum fun _ _ => Nat.zero_le _) ?_
    rw [← h.size_eq]
    exact h.size_le
  have hcurrent : cache'.current_size = (kept.map (entry_size cache'.heap)).sum := by
    rw [h'.size_eq, Nat.mod_eq_of_lt (by omega)]
  refine ⟨cache', kept, chains', hrun, ⟨h'.toLinked, hcurrent, ?_, ?_⟩, hkeep, ?_, hcontents, hbuckets, hmax, hnext, ?_⟩
  · rw [hcurrent, hmax]
    exact hsum
  · rw [hmax]
    exact h.max_lt
  · intro front hfront hfit
    exact hlongest front hfront (Nat.le_trans (Nat.mod_le _ _) hfit)
  · rwa [Nat.mod_eq_of_lt (by omega)] at hfits

/-- The heap after putting an entry in front of the recency list. -/
def linked_heap (cache : cache_t) (e : cache_entry_t) : Heap cache_entry_t :=
  (cache.heap.alloc e).2.update_if cache.lru_head (.set_lru_prev (some cache.heap.next))

/-- The bucket chains after putting an entry of the key. -/
def linked_chains (cache : cache_t) (chains : Nat → List Nat) (key : List UInt8) (b : Nat) : List Nat :=
  if b = hash_key key cache.bucket_count then cache.heap.next :: chains b else chains b

section Link

variable {e : cache_entry_t} {key : List UInt8}

theorem Linked.ne_next (h : Linked cache lru chains) {a : Nat} (ha : a ∈ lru) : a ≠ cache.heap.next := by
  obtain ⟨v, hv⟩ := h.live ha
  exact Nat.ne_of_lt (Heap.lt_next_of_get hv)

theorem Linked.mem_lru_of_head (h : Linked cache lru chains) {a : Nat} (ha : cache.lru_head = some a) : a ∈ lru :=
  h.list.back.mem_of_head ha

theorem Linked.head_live (h : Linked cache lru chains) (e : cache_entry_t) :
    ∀ a, cache.lru_head = some a → ∃ v, (cache.heap.alloc e).2.get a = some v := by
  intro a ha
  have hmem := h.mem_lru_of_head ha
  rw [Heap.get_alloc_of_ne _ _ (h.ne_next hmem)]
  exact h.live hmem

@[simp] theorem linked_contents_self :
    (linked_heap cache e).field cache_entry_t.contents cache.heap.next = some e.contents := by
  rw [linked_heap, contents_update_if_set_lru_prev]
  exact Heap.field_alloc_self _ _ _

theorem Linked.linked_contents (h : Linked cache lru chains) {a : Nat} (ha : a ∈ lru) :
    (linked_heap cache e).field cache_entry_t.contents a = cache.heap.field cache_entry_t.contents a := by
  rw [linked_heap, contents_update_if_set_lru_prev]
  exact Heap.field_alloc_of_ne _ _ _ (h.ne_next ha)

theorem Linked.linked_list (h : Linked cache lru chains) (hlru_prev : e.lru_prev = none)
    (hlru_next : e.lru_next = cache.lru_head) :
    DList ((linked_heap cache e).field cache_entry_t.lru_next) ((linked_heap cache e).field cache_entry_t.lru_prev)
      (some cache.heap.next) (if cache.lru_tail = none then some cache.heap.next else cache.lru_tail)
      (cache.heap.next :: lru) := by
  have hlive := h.head_live e
  have hhead : ¬ cache.lru_head = some cache.heap.next := fun hhead => h.ne_next (h.mem_lru_of_head hhead) rfl
  apply h.list.push
  · intro hmem
    exact h.ne_next hmem rfl
  · simp only [linked_heap, lru_next_update_if_set_lru_prev]
    rw [Heap.field_alloc_self, hlru_next]
  · simp only [linked_heap, lru_prev_update_if _ hlive, if_neg hhead]
    rw [Heap.field_alloc_self, hlru_prev]
  · intro b hb
    simp only [linked_heap, lru_next_update_if_set_lru_prev]
    exact Heap.field_alloc_of_ne _ _ _ (h.ne_next hb)
  · intro b hb
    simp only [linked_heap, lru_prev_update_if _ hlive]
    rw [Heap.field_alloc_of_ne _ _ _ (h.ne_next hb)]

/-- The new entry is the first of its bucket, and the other chains are as they were. -/
theorem Linked.linked_chain (h : Linked cache lru chains) {head : Option Nat}
    (htable : cache.hash_table[hash_key key cache.bucket_count]? = some head) (hnext : e.next = head) {b : Nat}
    {first : Option Nat}
    (hget : (cache.hash_table.set (hash_key key cache.bucket_count) (some cache.heap.next))[b]? = some first) :
    Chain ((linked_heap cache e).field cache_entry_t.next) first (linked_chains cache chains key b) := by
  have hlt := h.hash_lt key
  have hother : ∀ a ∈ lru,
      (linked_heap cache e).field cache_entry_t.next a = cache.heap.field cache_entry_t.next a := by
    intro a ha
    simp only [linked_heap, next_update_if_set_lru_prev]
    exact Heap.field_alloc_of_ne _ _ _ (h.ne_next ha)
  rw [linked_chains]
  by_cases hb : b = hash_key key cache.bucket_count
  · subst b
    rw [List.getElem?_set_self (by rw [h.table]; exact hlt)] at hget
    rw [if_pos rfl, ← Option.some.inj hget]
    apply (h.chain _ _ htable).push
    · intro hmem
      exact h.ne_next (h.mem_lru_of_mem_chain hlt hmem) rfl
    · simp only [linked_heap, next_update_if_set_lru_prev]
      rw [Heap.field_alloc_self, hnext]
    · intro a ha
      exact hother a (h.mem_lru_of_mem_chain hlt ha)
  · rw [List.getElem?_set_ne (Ne.symm hb)] at hget
    rw [if_neg hb]
    have hb_lt : b < cache.bucket_count := by
      rw [← h.table]
      exact (List.getElem?_eq_some_iff.mp hget).1
    exact (h.chain b first hget).congr fun a ha => hother a (h.mem_lru_of_mem_chain hb_lt ha)

/-- Among the entries of any key the new one is the first, in its bucket as in the
recency list. -/
theorem Linked.linked_order (h : Linked cache lru chains) (hkey : e.key = c_str key) (k : List UInt8) :
    (linked_chains cache chains key (hash_key k cache.bucket_count)).filter (has_key (linked_heap cache e) k) =
      (cache.heap.next :: lru).filter (has_key (linked_heap cache e) k) := by
  have hnew : has_key (linked_heap cache e) k cache.heap.next = (c_str key == c_str k) := by
    rw [has_key, linked_contents_self]
    simp [cache_entry_t.contents, hkey]
  have hold : (chains (hash_key k cache.bucket_count)).filter (has_key (linked_heap cache e) k) =
      lru.filter (has_key (linked_heap cache e) k) := by
    rw [List.filter_congr fun a ha =>
        has_key_congr (h.linked_contents (h.mem_lru_of_mem_chain (h.hash_lt k) ha)) k,
      List.filter_congr fun a ha => has_key_congr (h.linked_contents ha) k]
    exact h.order k
  rw [linked_chains]
  by_cases hkk : c_str key = c_str k
  · rw [if_pos (hash_key_eq_of_c_str_eq hkk.symm _), List.filter_cons_of_pos (by rw [hnew]; simp [hkk]),
      List.filter_cons_of_pos (by rw [hnew]; simp [hkk]), hold]
  · rw [List.filter_cons_of_neg (by rw [hnew]; simp [hkk]), ← hold]
    split
    · rw [List.filter_cons_of_neg (by rw [hnew]; simp [hkk])]
    · rfl

/-- Putting an entry in front of the recency list and of its bucket chain. -/
theorem Linked.link_front (h : Linked cache lru chains) {head : Option Nat} (hkey : e.key = c_str key)
    (htable : cache.hash_table[hash_key key cache.bucket_count]? = some head) (hnext : e.next = head)
    (hlru_prev : e.lru_prev = none) (hlru_next : e.lru_next = cache.lru_head) :
    (cache.heap.alloc e).2.modify_if cache.lru_head (.set_lru_prev (some cache.heap.next)) =
        some (linked_heap cache e) ∧
      Linked { cache with
        heap := linked_heap cache e
        hash_table := cache.hash_table.set (hash_key key cache.bucket_count) (some cache.heap.next)
        lru_head := some cache.heap.next
        lru_tail := if cache.lru_tail = none then some cache.heap.next else cache.lru_tail
        current_size := (cache.current_size + e.size) % SIZE_MOD }
        (cache.heap.next :: lru) (linked_chains cache chains key) := by
  have hnew : has_key (linked_heap cache e) key cache.heap.next = true := by
    rw [has_key, linked_contents_self]
    simp [cache_entry_t.contents, hkey]
  refine ⟨Heap.modify_if_of_live (h.head_live e) _, h.bucket_pos, by simp [h.table],
    h.linked_list hlru_prev hlru_next, fun b first hget => h.linked_chain htable hnext hget, ?_, ?_,
    h.linked_order hkey⟩
  · intro a ha
    rcases List.mem_cons.mp ha with rfl | ha
    · exact ⟨key, hnew⟩
    · obtain ⟨k, hk⟩ := h.keyed a ha
      exact ⟨k, by rw [has_key_congr (h.linked_contents ha), hk]⟩
  · intro b hb a ha
    have hold : a ∈ chains b →
        ∃ k, has_key (linked_heap cache e) k a = true ∧ hash_key k cache.bucket_count = b := by
      intro ha
      obtain ⟨k, hk, hkb⟩ := h.bucket b hb a ha
      exact ⟨k, by rw [has_key_congr (h.linked_contents (h.mem_lru_of_mem_chain hb ha)), hk], hkb⟩
    rw [linked_chains] at ha
    split at ha
    · next hbk =>
      rcases List.mem_cons.mp ha with rfl | ha
      · exact ⟨key, hnew, hbk.symm⟩
      · exact hold ha
    · exact hold ha

end Link

/-- The bytes of the entries with a new one in front. -/
theorem sum_linked {heap heap' : Heap cache_entry_t} {entry : Nat} {e : cache_entry_t}
    (hnew : heap'.field cache_entry_t.contents entry = some e.contents)
    (hold : ∀ a ∈ lru, heap'.field cache_entry_t.contents a = heap.field cache_entry_t.contents a) :
    ((entry :: lru).map (entry_size heap')).sum = e.size + (lru.map (entry_size heap)).sum := by
  have hsize : entry_size heap' entry = e.size := by
    rw [entry_size, hnew]
    rfl
  rw [List.map_cons, List.sum_cons, hsize, List.map_congr_left fun a ha => entry_size_congr (hold a ha)]

/-- When its eviction loop ends, `cache_put` puts the new entry, at the next
address, in front. -/
theorem Linked.put (h : Linked cache lru chains) (now : Int64) (key data : List UInt8) {size : Nat}
    {before : cache_t} (hrun : evict_until_fits size before.fuel before = some cache) :
    ∃ cache' chains', cache_put now before key data size = some cache' ∧
      Linked cache' (cache.heap.next :: lru) chains' ∧
      cache'.heap.field cache_entry_t.contents cache.heap.next =
        some { key := c_str key, data := data.take size, size := size } ∧
      (∀ a ∈ lru, cache'.heap.field cache_entry_t.contents a = cache.heap.field cache_entry_t.contents a) ∧
      cache'.bucket_count = cache.bucket_count ∧ cache'.max_size = cache.max_size ∧
      cache'.current_size = (cache.current_size + size) % SIZE_MOD ∧
      ((cache.heap.next :: lru).map (entry_size cache'.heap)).sum =
        size + (lru.map (entry_size cache.heap)).sum := by
  obtain ⟨head, htable, -⟩ := h.table_get (h.hash_lt key)
  let e : cache_entry_t :=
    { key := c_str key, data := data.take size, size := size, last_accessed := now, next := head
      lru_prev := none, lru_next := cache.lru_head }
  obtain ⟨hmodify, h'⟩ := @Linked.link_front _ _ _ e key h head rfl htable rfl rfl rfl
  have hcontents : ∀ a ∈ lru, (linked_heap cache e).field cache_entry_t.contents a =
      cache.heap.field cache_entry_t.contents a := fun a ha => h.linked_contents ha
  refine ⟨_, _, ?_, h', linked_contents_self, hcontents, rfl, rfl, rfl,
    sum_linked linked_contents_self hcontents⟩
  simp only [cache_put, hrun, Option.bind_eq_bind, Option.bind_some, htable, Heap.fst_alloc]
  rw [show (cache.heap.alloc e).2.modify_if _ _ = some (linked_heap cache e) from hmodify]
  rfl

/-- `cache_put` drops least recently used entries as needed and puts the new
one, at the next address, in front. -/
theorem Represents.put (h : Represents cache lru chains) (now : Int64) (key data : List UInt8) {size : Nat}
    (hsize : size ≤ cache.max_size) (hwrap : cache.max_size + size < SIZE_MOD) :
    ∃ cache' kept chains', cache_put now cache key data size = some cache' ∧
      Represents cache' (cache.heap.next :: kept) chains' ∧ kept <+: lru ∧
      (∀ front, front <+: lru → (front.map (entry_size cache.heap)).sum + size ≤ cache.max_size → front <+: kept) ∧
      cache'.heap.field cache_entry_t.contents cache.heap.next =
        some { key := c_str key, data := data.take size, size := size } ∧
      (∀ a ∈ kept, cache'.heap.field cache_entry_t.contents a = cache.heap.field cache_entry_t.contents a) ∧
      cache'.bucket_count = cache.bucket_count ∧ cache'.max_size = cache.max_size := by
  obtain ⟨cache₁, kept, chains₁, hrun₁, h₁, hkeep, hlongest, hcontents₁, hbuckets, hmax, hnext, hfits⟩ :=
    h.evict_until_fits_spec hsize hwrap h.toLinked.length_lt_fuel
  obtain ⟨cache', chains', hput, h', hnew, hcontents, hbuckets', hmax', hcurrent, hsum⟩ :=
    h₁.toLinked.put now key data hrun₁
  have hmax_lt := h.max_lt
  rw [Nat.mod_eq_of_lt (by omega)] at hcurrent
  rw [hnext] at h' hnew hsum
  refine ⟨cache', kept, chains', hput, ⟨h', ?_, ?_, ?_⟩, hkeep, hlongest, hnew,
    fun a ha => (hcontents a ha).trans (hcontents₁ a ha), hbuckets'.trans hbuckets, hmax'.trans hmax⟩
  · rw [hcurrent, hsum, h₁.size_eq, Nat.add_comm]
  · rw [hcurrent, hmax', hmax]
    exact hfits
  · rw [hmax', hmax]
    exact hmax_lt

end Put

end csystems.block_cache
