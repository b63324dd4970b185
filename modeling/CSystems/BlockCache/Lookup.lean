import CSystems.BlockCache.Operations

open clib.string clib.heap

namespace csystems.block_cache

section Get

variable {cache : cache_t} {lru : List Nat} {chains : Nat → List Nat}

/-- The key comparison of `cache_get` on the entries of a chain. -/
theorem Linked.key_matches_eq (h : Linked cache lru chains) (key : List UInt8) {a : Nat} (ha : a ∈ lru) :
    key_matches cache key a = some (has_key cache.heap key a) := by
  obtain ⟨k, hk⟩ := h.keyed a ha
  obtain ⟨e, hget, hekey⟩ := has_key_iff.mp hk
  have hcstr : c_str e.key = e.key := by rw [hekey, c_str_c_str]
  simp only [key_matches, has_key, Heap.field, hget, Option.map_some, Option.any_some, strcmp_eq_zero_iff, hcstr,
    cache_entry_t.contents]
  exact congrArg some (Bool.eq_iff_iff.mpr (by simp))

/-- The bucket search of `cache_get` finds the most recently used entry of the
key. -/
theorem Linked.find_cell_eq (h : Linked cache lru chains) (key : List UInt8) :
    ∃ head, cache.hash_table[hash_key key cache.bucket_count]? = some head ∧
      find_cell (cache.heap.field cache_entry_t.next) (key_matches cache key) cache.fuel head =
        some (lru.find? (has_key cache.heap key)) := by
  have hlt := h.hash_lt key
  obtain ⟨head, htable, hchain⟩ := h.table_get hlt
  have htest : ∀ a ∈ chains (hash_key key cache.bucket_count),
      key_matches cache key a = some (has_key cache.heap key a) :=
    fun a ha => h.key_matches_eq key (h.mem_lru_of_mem_chain hlt ha)
  refine ⟨head, htable, ?_⟩
  rw [hchain.find_cell_eq htest (h.chain_length_lt_fuel hlt), ← List.head?_filter, h.order key, List.head?_filter]

private theorem filter_cons_erase {xs : List Nat} (hnodup : xs.Nodup) {p : Nat → Bool} {a : Nat}
    (hfirst : p a = true → xs.find? p = some a) : (a :: xs.erase a).filter p = xs.filter p := by
  cases hp : p a with
  | true =>
    rw [List.filter_cons_of_pos hp, filter_erase hnodup]
    exact erase_cons_eq_of_head (by rw [List.head?_filter, hfirst hp])
  | false =>
    rw [List.filter_cons_of_neg (by simp [hp]), filter_erase hnodup, List.erase_of_not_mem]
    intro hmem
    rw [(List.mem_filter.mp hmem).2] at hp
    cases hp

/-- Touching the most recently used entry of a key brings it to the front of
the recency list and keeps the chains as they are. -/
theorem Linked.touch (h : Linked cache lru chains) {key : List UInt8} {entry : Nat}
    (hfind : lru.find? (has_key cache.heap key) = some entry) (now : Int64) :
    ∃ heap cache', cache.heap.modify entry (.set_last_accessed now) = some heap ∧
      move_to_front { cache with heap := heap } entry = some cache' ∧
      Linked cache' (entry :: lru.erase entry) chains ∧
      cache'.heap.field cache_entry_t.contents = cache.heap.field cache_entry_t.contents ∧
      cache'.bucket_count = cache.bucket_count ∧ cache'.max_size = cache.max_size ∧
      cache'.current_size = cache.current_size := by
  have hmem : entry ∈ lru := List.mem_of_find?_eq_some hfind
  have hkey : has_key cache.heap key entry = true := List.find?_some hfind
  obtain ⟨v, hget⟩ := h.live hmem
  let heap := cache.heap.update entry (.set_last_accessed now)
  have hnext : heap.field cache_entry_t.next = cache.heap.field cache_entry_t.next :=
    Heap.field_update_of_eq _ _ fun _ => rfl
  have hlru_next : heap.field cache_entry_t.lru_next = cache.heap.field cache_entry_t.lru_next :=
    Heap.field_update_of_eq _ _ fun _ => rfl
  have hlru_prev : heap.field cache_entry_t.lru_prev = cache.heap.field cache_entry_t.lru_prev :=
    Heap.field_update_of_eq _ _ fun _ => rfl
  have hcontents : heap.field cache_entry_t.contents = cache.heap.field cache_entry_t.contents :=
    Heap.field_update_of_eq _ _ fun _ => rfl
  have hlist : DList (heap.field cache_entry_t.lru_next) (heap.field cache_entry_t.lru_prev)
      cache.lru_head cache.lru_tail lru := by
    rw [hlru_next, hlru_prev]
    exact h.list
  obtain ⟨heap', head, tail, hrun, hlist', hnext', hcontents'⟩ :=
    @move_to_front_spec { cache with heap := heap } lru hlist entry hmem
  have hsame : ∀ a, heap'.field cache_entry_t.contents a = cache.heap.field cache_entry_t.contents a := by
    intro a
    rw [hcontents']
    exact congrFun hcontents a
  have hperm : (entry :: lru.erase entry).Perm lru := (List.perm_cons_erase hmem).symm
  refine ⟨heap, _, Heap.modify_of_get hget _, hrun, ?_, funext hsame, rfl, rfl, rfl⟩
  refine ⟨h.bucket_pos, h.table, hlist', ?_, ?_, ?_, ?_⟩
  · intro b first hb
    apply (h.chain b first hb).congr
    intro a _
    dsimp only
    rw [hnext']
    exact congrFun hnext a
  · intro a ha
    obtain ⟨k, hk⟩ := h.keyed a (hperm.subset ha)
    exact ⟨k, by rw [has_key_congr (hsame a), hk]⟩
  · intro b hb a ha
    obtain ⟨k, hk, hkb⟩ := h.bucket b hb a ha
    exact ⟨k, by rw [has_key_congr (hsame a), hk], hkb⟩
  · intro k
    have hfun : has_key heap' k = has_key cache.heap k := funext fun a => has_key_congr (hsame a) k
    dsimp only
    rw [hfun, filter_cons_erase h.list.nodup]
    · exact h.order k
    · intro hk
      have hkeys : has_key cache.heap k = has_key cache.heap key := by
        obtain ⟨e, he, hek⟩ := has_key_iff.mp hk
        obtain ⟨e', he', hek'⟩ := has_key_iff.mp hkey
        rw [he] at he'
        cases he'
        unfold has_key
        rw [← hek, hek']
      rw [hkeys, hfind]

/-- The recency list after a lookup that found this entry, if any. -/
def touched (lru : List Nat) : Option Nat → List Nat
  | none => lru
  | some entry => entry :: lru.erase entry

theorem touched_perm {p : Nat → Bool} : (touched lru (lru.find? p)).Perm lru := by
  cases hfind : lru.find? p with
  | none => exact List.Perm.refl lru
  | some entry => exact (List.perm_cons_erase (List.mem_of_find?_eq_some hfind)).symm

/-- `cache_get` finds the most recently used entry of the key and touches it. -/
theorem Linked.get (h : Linked cache lru chains) (now : Int64) (key : List UInt8) :
    ∃ cache', cache_get now cache key =
        some (cache', (lru.find? (has_key cache.heap key)).bind (cache.heap.field cache_entry_t.data)) ∧
      Linked cache' (touched lru (lru.find? (has_key cache.heap key))) chains ∧
      cache'.heap.field cache_entry_t.contents = cache.heap.field cache_entry_t.contents ∧
      cache'.bucket_count = cache.bucket_count ∧ cache'.max_size = cache.max_size ∧
      cache'.current_size = cache.current_size := by
  obtain ⟨head, htable, hsearch⟩ := h.find_cell_eq key
  cases hfind : lru.find? (has_key cache.heap key) with
  | none =>
    refine ⟨cache, ?_, h, rfl, rfl, rfl, rfl⟩
    simp [cache_get, htable, hsearch, hfind]
  | some entry =>
    obtain ⟨heap, cache', hmodify, hmove, h', hcontents, hbuckets, hmax, hsize⟩ := h.touch hfind now
    refine ⟨cache', ?_, h', hcontents, hbuckets, hmax, hsize⟩
    obtain ⟨e, hget⟩ := h.live (List.mem_of_find?_eq_some hfind)
    have hfield : cache'.heap.field cache_entry_t.contents entry = some e.contents := by
      rw [hcontents, Heap.field, hget]
      rfl
    obtain ⟨e', hget', hsame⟩ := Heap.field_eq_some hfield
    have hdata : cache'.heap.field cache_entry_t.data entry = cache.heap.field cache_entry_t.data entry := by
      rw [Heap.field, Heap.field, hget, hget']
      exact congrArg (fun c => some c.data) hsame
    have hlive : cache.heap.field cache_entry_t.data entry = some e.data := by
      rw [Heap.field, hget]
      rfl
    simp only [cache_get, htable, hsearch, hfind, Option.bind_eq_bind, Option.bind_some, hmodify, hmove, hdata, hlive]

/-- The bytes of the entries after a lookup. -/
theorem sum_touched {heap heap' : Heap cache_entry_t} {p : Nat → Bool}
    (hcontents : heap'.field cache_entry_t.contents = heap.field cache_entry_t.contents) :
    ((touched lru (lru.find? p)).map (entry_size heap')).sum = (lru.map (entry_size heap)).sum := by
  have hfun : entry_size heap' = entry_size heap := funext fun a => entry_size_congr (congrFun hcontents a)
  rw [hfun]
  exact (touched_perm.map _).sum_eq

theorem Represents.get (h : Represents cache lru chains) (now : Int64) (key : List UInt8) :
    ∃ cache', cache_get now cache key =
        some (cache', (lru.find? (has_key cache.heap key)).bind (cache.heap.field cache_entry_t.data)) ∧
      Represents cache' (touched lru (lru.find? (has_key cache.heap key))) chains ∧
      cache'.heap.field cache_entry_t.contents = cache.heap.field cache_entry_t.contents ∧
      cache'.bucket_count = cache.bucket_count ∧ cache'.max_size = cache.max_size := by
  obtain ⟨cache', hrun, hlinked, hcontents, hbuckets, hmax, hsize⟩ := h.toLinked.get now key
  refine ⟨cache', hrun, ⟨hlinked, ?_, ?_, ?_⟩, hcontents, hbuckets, hmax⟩
  · rw [hsize, h.size_eq, sum_touched hcontents]
  · rw [hsize, hmax]
    exact h.size_le
  · rw [hmax]
    exact h.max_lt

end Get

end csystems.block_cache
