import CSystems.BlockCache.Evict

open clib.string clib.heap

namespace csystems.block_cache

theorem filter_erase {xs : List Nat} (hnodup : xs.Nodup) (a : Nat) (p : Nat → Bool) :
    (xs.erase a).filter p = (xs.filter p).erase a := by
  rw [hnodup.erase_eq_filter, (hnodup.filter p).erase_eq_filter, List.filter_filter, List.filter_filter]
  simp only [Bool.and_comm]

section Evict

variable {cache : cache_t} {lru : List Nat} {chains : Nat → List Nat}

private theorem evicted_field {xs : List Nat} {victim a : Nat} (hne : a ≠ victim) :
    (evicted_heap cache lru xs victim).field cache_entry_t.contents a =
      cache.heap.field cache_entry_t.contents a := by
  rw [evicted_heap, Heap.field_erase_of_ne _ _ hne]
  simp

/-- The recency list without its last entry. -/
theorem Linked.evicted_list (h : Linked cache lru chains) {victim : Nat}
    (hlast : lru.getLast? = some victim) (xs : List Nat) :
    DList ((evicted_heap cache lru xs victim).field cache_entry_t.lru_next)
      ((evicted_heap cache lru xs victim).field cache_entry_t.lru_prev)
      (if pred lru victim = none then none else cache.lru_head) (pred lru victim) (lru.erase victim) := by
  have hnodup := h.list.nodup
  have hvictim : victim ∈ lru := List.mem_of_getLast? hlast
  have hsucc : succ lru victim = none := (succ_eq_none_iff hnodup hvictim).mpr hlast
  have htail : cache.lru_tail = some victim := by rw [h.list.tail_eq, hlast]
  have hhead : (if cache.lru_head = some victim then succ lru victim else cache.lru_head) =
      if pred lru victim = none then none else cache.lru_head := by
    rw [hsucc, h.list.head_eq]
    simp only [pred_eq_none_iff hnodup hvictim]
  have hlive : ∀ b, pred lru victim = some b → ∃ v, cache.heap.get b = some v :=
    fun b hb => h.live (mem_of_pred_eq_some hb)
  have hunlinked : DList ((evicted_heap cache lru xs victim).field cache_entry_t.lru_next)
      ((evicted_heap cache lru xs victim).field cache_entry_t.lru_prev)
      (if cache.lru_head = some victim then succ lru victim else cache.lru_head)
      (if cache.lru_tail = some victim then pred lru victim else cache.lru_tail) (lru.erase victim) := by
    apply h.list.unlink
    · intro b hb hne
      rw [evicted_heap, Heap.field_erase_of_ne _ _ hne, lru_next_update_if_set_next,
        lru_next_update_if _ hlive, hsucc]
    · intro b hb hne
      rw [evicted_heap, Heap.field_erase_of_ne _ _ hne, hsucc]
      simp
  rwa [hhead, if_pos htail] at hunlinked

/-- The chain of the victim's bucket without the victim. -/
theorem evicted_chain {victim : Nat} {head : Option Nat} {xs : List Nat}
    (hchain : Chain (cache.heap.field cache_entry_t.next) head xs) :
    Chain ((evicted_heap cache lru xs victim).field cache_entry_t.next)
      (if head = some victim then succ xs victim else head) (xs.erase victim) := by
  have hlive : ∀ b, pred xs victim = some b →
      ∃ v, (cache.heap.update_if (pred lru victim) (.set_lru_next none)).get b = some v := by
    intro b hb
    rw [Heap.live_update_if]
    obtain ⟨v, hv, -⟩ := Heap.field_eq_some (hchain.next_eq b (mem_of_pred_eq_some hb))
    exact ⟨v, hv⟩
  apply hchain.unlink
  intro b hb hne
  rw [evicted_heap, Heap.field_erase_of_ne _ _ hne, next_update_if _ hlive, next_update_if_set_lru_next,
    hchain.next_eq b hb]
  simp only [succ_eq_some_iff hchain.nodup]
  split <;> rfl

/-- Chains of other buckets are untouched. -/
theorem evicted_other {victim : Nat} {xs ys : List Nat} {head : Option Nat}
    (hchain : Chain (cache.heap.field cache_entry_t.next) head ys) (hvictim : victim ∉ ys)
    (hdisjoint : ∀ a ∈ ys, a ∉ xs) (hlive : ∀ a ∈ xs, ∃ v, cache.heap.get a = some v) :
    Chain ((evicted_heap cache lru xs victim).field cache_entry_t.next) head (ys.erase victim) := by
  rw [List.erase_of_not_mem hvictim]
  apply hchain.congr
  intro a ha
  have hne : a ≠ victim := fun heq => hvictim (heq ▸ ha)
  rw [evicted_heap, Heap.field_erase_of_ne _ _ hne, next_update_if, if_neg, next_update_if_set_lru_next]
  · intro hpred
    exact hdisjoint a ha (mem_of_pred_eq_some hpred)
  · intro b hb
    rw [Heap.live_update_if]
    exact hlive b (mem_of_pred_eq_some hb)

/-- The bucket chains after evicting the last entry of the recency list. -/
theorem Linked.evicted_chains (h : Linked cache lru chains) {victim bucket : Nat} {key : List UInt8}
    (hvictim : victim ∈ lru) (hkey : has_key cache.heap key victim = true)
    (hbucket : hash_key key cache.bucket_count = bucket) {b : Nat} {head : Option Nat}
    (hget : (if pred (chains bucket) victim = none then cache.hash_table.set bucket (succ (chains bucket) victim)
      else cache.hash_table)[b]? = some head) :
    Chain ((evicted_heap cache lru (chains bucket) victim).field cache_entry_t.next) head
      ((chains b).erase victim) := by
  have hlt : bucket < cache.bucket_count := by rw [← hbucket]; exact h.hash_lt key
  have hmem : victim ∈ chains bucket := (h.mem_chain_iff hvictim hkey hlt).mpr hbucket.symm
  obtain ⟨first, hfirst, hchain⟩ := h.table_get hlt
  by_cases hb : b = bucket
  · subst b
    have hhead : head = if first = some victim then succ (chains bucket) victim else first := by
      rw [hchain.head_eq]
      rw [hchain.head_eq] at hfirst
      simp only [pred_eq_none_iff hchain.nodup hmem] at hget
      split at hget
      · rw [List.getElem?_set_self (by rw [h.table]; exact hlt)] at hget
        next hcond => rw [if_pos hcond, Option.some.inj hget]
      · next hcond =>
        rw [hfirst] at hget
        rw [if_neg hcond, Option.some.inj hget]
    rw [hhead]
    exact evicted_chain hchain
  · have hget : cache.hash_table[b]? = some head := by
      split at hget
      · rwa [List.getElem?_set_ne (Ne.symm hb)] at hget
      · exact hget
    have hb_lt : b < cache.bucket_count := by
      rw [← h.table]
      exact (List.getElem?_eq_some_iff.mp hget).1
    apply evicted_other (h.chain b head hget)
    · intro hvb
      exact hb (((h.mem_chain_iff hvictim hkey hb_lt).mp hvb).trans hbucket)
    · intro a ha ha'
      obtain ⟨k, hk, hkb⟩ := h.bucket b hb_lt a ha
      have hsame := (h.mem_chain_iff (h.mem_lru_of_mem_chain hb_lt ha) hk hlt).mp ha'
      exact hb (hkb.symm.trans hsame.symm)
    · intro a ha
      exact h.live (h.mem_lru_of_mem_chain hlt ha)

/-- Evicting removes the least recently used entry from the recency list and
from its bucket chain, and nothing else. -/
theorem Linked.evict (h : Linked cache lru chains) {victim : Nat} (hlast : lru.getLast? = some victim) :
    ∃ cache', evict_lru cache = some cache' ∧
      Linked cache' (lru.erase victim) (fun b => (chains b).erase victim) ∧
      (∀ a, a ≠ victim → cache'.heap.field cache_entry_t.contents a = cache.heap.field cache_entry_t.contents a) ∧
      cache'.bucket_count = cache.bucket_count ∧ cache'.max_size = cache.max_size ∧
      cache'.heap.next = cache.heap.next ∧
      cache'.current_size = (cache.current_size + SIZE_MOD - entry_size cache.heap victim) % SIZE_MOD := by
  have hvictim : victim ∈ lru := List.mem_of_getLast? hlast
  obtain ⟨v, hget⟩ := h.live hvictim
  obtain ⟨key, hkey⟩ := h.keyed victim hvictim
  have hbucket : hash_key v.key cache.bucket_count = hash_key key cache.bucket_count := by
    obtain ⟨e, he, hekey⟩ := has_key_iff.mp hkey
    rw [hget] at he
    cases he
    rw [hekey]
    exact hash_key_eq_of_c_str_eq (c_str_c_str key) _
  have hmem : victim ∈ chains (hash_key key cache.bucket_count) :=
    (h.mem_chain_iff hvictim hkey (h.hash_lt key)).mpr rfl
  have hrun := h.evict_lru_eq hlast hget hbucket hmem
  have hsize : entry_size cache.heap victim = v.size := by
    simp [entry_size, Heap.field, hget, cache_entry_t.contents]
  have hcontents : ∀ a ∈ lru.erase victim,
      (evicted_heap cache lru (chains (hash_key key cache.bucket_count)) victim).field cache_entry_t.contents a =
        cache.heap.field cache_entry_t.contents a := by
    intro a ha
    exact evicted_field ((h.list.nodup.mem_erase_iff).mp ha).1
  have hchain_mem : ∀ b < cache.bucket_count, ∀ a ∈ (chains b).erase victim, a ∈ lru.erase victim := by
    intro b hb a ha
    obtain ⟨head, -, hchain⟩ := h.table_get hb
    obtain ⟨hne, ha⟩ := (hchain.nodup.mem_erase_iff).mp ha
    exact (h.list.nodup.mem_erase_iff).mpr ⟨hne, h.mem_lru_of_mem_chain hb ha⟩
  refine ⟨_, hrun, ?_, fun a hne => evicted_field hne, rfl, rfl, by simp [evicted_heap], by rw [hsize]⟩
  refine ⟨h.bucket_pos, ?_, h.evicted_list hlast _, ?_, ?_, ?_, ?_⟩
  · dsimp only
    split <;> simp [h.table]
  · intro b head hget
    exact h.evicted_chains hvictim hkey rfl hget
  · intro a ha
    obtain ⟨k, hk⟩ := h.keyed a (List.mem_of_mem_erase ha)
    exact ⟨k, by rw [has_key_congr (hcontents a ha), hk]⟩
  · intro b hb a ha
    obtain ⟨k, hk, hkb⟩ := h.bucket b hb a (List.mem_of_mem_erase ha)
    exact ⟨k, by rw [has_key_congr (hcontents a (hchain_mem b hb a ha)), hk], hkb⟩
  · intro k
    have hlt := h.hash_lt k
    obtain ⟨head, -, hchain⟩ := h.table_get hlt
    have hleft := List.filter_congr fun a ha => has_key_congr (hcontents a (hchain_mem _ hlt a ha)) k
    have hright := List.filter_congr fun a ha => has_key_congr (hcontents a ha) k
    dsimp only
    rw [hleft, hright, filter_erase hchain.nodup, filter_erase h.list.nodup, h.order k]

/-- The bytes of the entries that an eviction leaves. -/
theorem sum_evicted {heap heap' : Heap cache_entry_t} (hnodup : lru.Nodup) {victim : Nat} (hvictim : victim ∈ lru)
    (hcontents : ∀ a, a ≠ victim → heap'.field cache_entry_t.contents a = heap.field cache_entry_t.contents a) :
    (lru.map (entry_size heap)).sum = entry_size heap victim + ((lru.erase victim).map (entry_size heap')).sum := by
  rw [← List.sum_map_erase (entry_size heap) hvictim]
  have hsame := List.map_congr_left fun a (ha : a ∈ lru.erase victim) =>
    entry_size_congr (hcontents a ((hnodup.mem_erase_iff).mp ha).1)
  rw [hsame]

/-- Evicting, also from an empty cache, drops the last entry of the recency
list, if there is one. -/
theorem Accounted.evict_lru (h : Accounted cache lru chains) :
    ∃ cache' chains', evict_lru cache = some cache' ∧ Accounted cache' lru.dropLast chains' ∧
      (∀ a ∈ lru.dropLast, cache'.heap.field cache_entry_t.contents a = cache.heap.field cache_entry_t.contents a) ∧
      cache'.bucket_count = cache.bucket_count ∧ cache'.max_size = cache.max_size ∧
      cache'.heap.next = cache.heap.next := by
  cases hlast : lru.getLast? with
  | none =>
    have hempty : lru = [] := List.getLast?_eq_none_iff.mp hlast
    have htail : cache.lru_tail = none := by rw [h.list.tail_eq, hlast]
    subst hempty
    exact ⟨cache, chains, by rw [block_cache.evict_lru, htail], h, fun _ _ => rfl, rfl, rfl, rfl⟩
  | some victim =>
    obtain ⟨cache', hrun, hlinked, hcontents, hbuckets, hmax, hnext, hcurrent⟩ := h.evict hlast
    have hvictim : victim ∈ lru := List.mem_of_getLast? hlast
    have hsum := sum_evicted h.list.nodup hvictim hcontents
    have hlt := h.entry_lt victim hvictim
    have hsize := h.size_eq
    have hne : ∀ a ∈ lru.erase victim, a ≠ victim := fun a ha => ((h.list.nodup.mem_erase_iff).mp ha).1
    rw [← erase_getLast h.list.nodup hlast]
    refine ⟨cache', _, hrun, ⟨hlinked, ?_, ?_⟩, fun a ha => hcontents a (hne a ha), hbuckets, hmax, hnext⟩
    · rw [hcurrent, hsize, hsum]
      unfold SIZE_MOD at hlt ⊢
      omega
    · intro a ha
      rw [entry_size_congr (hcontents a (hne a ha))]
      exact h.entry_lt a (List.mem_of_mem_erase ha)

theorem Represents.evict (h : Represents cache lru chains) {victim : Nat} (hlast : lru.getLast? = some victim) :
    ∃ cache', evict_lru cache = some cache' ∧
      Represents cache' (lru.erase victim) (fun b => (chains b).erase victim) ∧
      (∀ a, a ≠ victim → cache'.heap.field cache_entry_t.contents a = cache.heap.field cache_entry_t.contents a) ∧
      cache'.bucket_count = cache.bucket_count ∧ cache'.max_size = cache.max_size ∧
      cache'.heap.next = cache.heap.next ∧
      cache'.current_size = cache.current_size - entry_size cache.heap victim := by
  obtain ⟨cache', hrun, hlinked, hcontents, hbuckets, hmax, hnext, hcurrent⟩ := h.toLinked.evict hlast
  have hsum := sum_evicted h.list.nodup (List.mem_of_getLast? hlast) hcontents
  have hle : entry_size cache.heap victim ≤ cache.current_size := by rw [h.size_eq, hsum]; omega
  have hmax_lt := h.max_lt
  have hsize_le := h.size_le
  have hshrunk : cache'.current_size = cache.current_size - entry_size cache.heap victim := by
    rw [hcurrent, Nat.add_comm, Nat.add_sub_assoc hle, Nat.add_mod_left, Nat.mod_eq_of_lt (by omega)]
  refine ⟨cache', hrun, ⟨hlinked, ?_, ?_, ?_⟩, hcontents, hbuckets, hmax, hnext, hshrunk⟩
  · rw [hshrunk, h.size_eq, hsum, Nat.add_sub_cancel_left]
  · rw [hshrunk, hmax]
    omega
  · rw [hmax]
    exact hmax_lt

end Evict

end csystems.block_cache
