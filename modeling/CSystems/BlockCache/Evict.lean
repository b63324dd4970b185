import CSystems.BlockCache.Represents

open clib.string clib.heap

namespace csystems.block_cache

section Fields

variable (heap : Heap cache_entry_t) (p value : Option Nat)

theorem next_update_if {p : Option Nat} (hlive : ∀ a, p = some a → ∃ v, heap.get a = some v)
    (value : Option Nat) (b : Nat) :
    (heap.update_if p (.set_next value)).field cache_entry_t.next b =
      if p = some b then some value else heap.field cache_entry_t.next b :=
  Heap.field_update_if_const (g := .set_next value) (f := cache_entry_t.next) (x := value)
    (fun _ => rfl) hlive b

@[simp] theorem lru_next_update_if_set_next :
    (heap.update_if p (.set_next value)).field cache_entry_t.lru_next = heap.field cache_entry_t.lru_next :=
  heap.field_update_if_of_eq p fun _ => rfl

@[simp] theorem lru_prev_update_if_set_next :
    (heap.update_if p (.set_next value)).field cache_entry_t.lru_prev = heap.field cache_entry_t.lru_prev :=
  heap.field_update_if_of_eq p fun _ => rfl

@[simp] theorem contents_update_if_set_next :
    (heap.update_if p (.set_next value)).field cache_entry_t.contents = heap.field cache_entry_t.contents :=
  heap.field_update_if_of_eq p fun _ => rfl

end Fields

namespace Linked

variable {cache : cache_t} {lru : List Nat} {chains : Nat → List Nat}

theorem live (h : Linked cache lru chains) {a : Nat} (ha : a ∈ lru) : ∃ v, cache.heap.get a = some v := by
  obtain ⟨v, hv, -⟩ := lru_live h.list ha
  exact ⟨v, hv⟩

/-- There are fewer entries than addresses handed out. -/
theorem length_lt_fuel (h : Linked cache lru chains) : lru.length < cache.fuel := by
  have hlt : ∀ a ∈ lru, a < cache.heap.next := by
    intro a ha
    obtain ⟨v, hv⟩ := h.live ha
    exact Heap.lt_next_of_get hv
  have hlength := length_le_of_nodup_lt h.list.nodup hlt
  unfold cache_t.fuel
  omega

theorem table_get (h : Linked cache lru chains) {b : Nat} (hb : b < cache.bucket_count) :
    ∃ head, cache.hash_table[b]? = some head ∧ Chain (cache.heap.field cache_entry_t.next) head (chains b) := by
  have hlt : b < cache.hash_table.length := by rw [h.table]; exact hb
  exact ⟨_, List.getElem?_eq_getElem hlt, h.chain b _ (List.getElem?_eq_getElem hlt)⟩

theorem hash_lt (h : Linked cache lru chains) (key : List UInt8) :
    hash_key key cache.bucket_count < cache.bucket_count :=
  Nat.mod_lt _ h.bucket_pos

/-- Chained entries are in the recency list. -/
theorem mem_lru_of_mem_chain (h : Linked cache lru chains) {b : Nat} (hb : b < cache.bucket_count)
    {a : Nat} (ha : a ∈ chains b) : a ∈ lru := by
  obtain ⟨key, hkey, rfl⟩ := h.bucket b hb a ha
  have hmem : a ∈ (chains (hash_key key cache.bucket_count)).filter (has_key cache.heap key) :=
    List.mem_filter.mpr ⟨ha, hkey⟩
  rw [h.order key] at hmem
  exact (List.mem_filter.mp hmem).1

theorem chain_length_lt_fuel (h : Linked cache lru chains) {b : Nat} (hb : b < cache.bucket_count) :
    (chains b).length < cache.fuel := by
  obtain ⟨head, -, hchain⟩ := h.table_get hb
  have hsubset : chains b ⊆ lru := fun a ha => h.mem_lru_of_mem_chain hb ha
  have hle := (hchain.nodup.subperm hsubset).length_le
  have hlt := h.length_lt_fuel
  omega

/-- A listed entry is chained in the bucket of its key, and only there. -/
theorem mem_chain_iff (h : Linked cache lru chains) {a : Nat} (ha : a ∈ lru) {key : List UInt8}
    (hkey : has_key cache.heap key a = true) {b : Nat} (hb : b < cache.bucket_count) :
    a ∈ chains b ↔ b = hash_key key cache.bucket_count := by
  constructor
  · intro hmem
    obtain ⟨key', hkey', rfl⟩ := h.bucket b hb a hmem
    exact has_key_hash hkey' hkey _
  · rintro rfl
    have hmem : a ∈ lru.filter (has_key cache.heap key) := List.mem_filter.mpr ⟨ha, hkey⟩
    rw [← h.order key] at hmem
    exact (List.mem_filter.mp hmem).1

end Linked

/-- The link search of `evict_lru` stops at the link that leads to the victim. -/
theorem find_link_eq {cache : cache_t} {xs : List Nat} {head : Option Nat}
    (hchain : Chain (cache.heap.field cache_entry_t.next) head xs) {victim : Nat} (hvictim : victim ∈ xs)
    {link : link_t} (hload : load_link cache link = some head) {fuel : Nat} (hfuel : xs.length < fuel) :
    find_link cache victim fuel link =
      some (match pred xs victim with | none => link | some p => .next p) := by
  induction xs generalizing head link fuel with
  | nil => simp at hvictim
  | cons a xs ih =>
    obtain ⟨fuel, rfl⟩ : ∃ k, fuel = k + 1 := ⟨fuel - 1, by simp at hfuel; omega⟩
    obtain ⟨hnext, htail⟩ := hchain.tail
    have hfirst : head = some a := hchain.head_eq
    obtain ⟨ha, -⟩ := List.nodup_cons.mp hchain.nodup
    rw [find_link, hload, hfirst]
    by_cases hav : a = victim
    · subst a
      have hpred := (pred_eq_none_iff hchain.nodup hvictim).mpr rfl
      simp [hpred]
    · have hvictim : victim ∈ xs := by simpa [Ne.symm hav] using hvictim
      have hload : load_link cache (.next a) = some xs.head? := hnext
      have hrest := ih htail hvictim hload (by simpa using hfuel)
      simp only [Option.bind_eq_bind, Option.bind_some, if_neg hav, hrest, Option.some.injEq]
      rw [pred]
      by_cases hhead : xs.head? = some victim
      · have hnone := (pred_eq_none_iff htail.nodup hvictim).mpr hhead
        simp [hhead, hnone]
      · rw [if_neg hhead]
        cases hp : pred xs victim with
        | some p => rfl
        | none => exact absurd ((pred_eq_none_iff htail.nodup hvictim).mp hp) hhead

/-- Taking the victim out of its bucket chain redirects the link that led to
it, which is the bucket head or its predecessor's `next` field. -/
theorem unlink_victim_eq {cache : cache_t} {victim : Nat} {v : cache_entry_t} {bucket : Nat} {head : Option Nat}
    {xs : List Nat} (hchain : Chain (cache.heap.field cache_entry_t.next) head xs)
    (hget : cache.heap.get victim = some v) (hmem : victim ∈ xs)
    (hbucket : hash_key v.key cache.bucket_count = bucket) (htable : cache.hash_table[bucket]? = some head)
    (hfuel : xs.length < cache.fuel) :
    unlink_victim cache victim v = some { cache with
      heap := cache.heap.update_if (pred xs victim) (.set_next (succ xs victim))
      hash_table := if pred xs victim = none then cache.hash_table.set bucket (succ xs victim)
        else cache.hash_table } := by
  have hnext : v.next = succ xs victim := by
    have hfield := hchain.next_eq victim hmem
    rw [Heap.field, hget] at hfield
    exact Option.some.inj hfield
  have hload : load_link cache (.bucket bucket) = some head := htable
  have hlink := find_link_eq hchain hmem hload hfuel
  rw [unlink_victim, hbucket, hlink]
  cases hpred : pred xs victim with
  | none =>
    have hhead : head = some victim := by
      rw [hchain.head_eq, (pred_eq_none_iff hchain.nodup hmem).mp hpred]
    have hlt : bucket < cache.hash_table.length := (List.getElem?_eq_some_iff.mp htable).1
    rw [hhead] at hload
    simp [hload, store_link, hlt, hnext, Heap.update_if]
  | some p =>
    have hp : p ∈ xs := mem_of_pred_eq_some hpred
    have hload : load_link cache (.next p) = some (some victim) := by
      rw [load_link, hchain.next_eq p hp, (succ_eq_some_iff hchain.nodup).mpr hpred]
    obtain ⟨e, he, -⟩ := Heap.field_eq_some (hchain.next_eq p hp)
    simp [hload, store_link, Heap.modify_of_get he, hnext, Heap.update_if]

section Evict

variable {cache : cache_t} {lru : List Nat} {chains : Nat → List Nat}

/-- The heap after evicting `victim` from the recency list `lru` and the bucket
chain `xs`. -/
def evicted_heap (cache : cache_t) (lru xs : List Nat) (victim : Nat) : Heap cache_entry_t :=
  ((cache.heap.update_if (pred lru victim) (.set_lru_next none)).update_if (pred xs victim)
    (.set_next (succ xs victim))).erase victim

/-- Running `evict_lru` on a cache with a least recently used entry: all its
pointer accesses are valid, and this is the cache it leaves. -/
theorem Linked.evict_lru_eq (h : Linked cache lru chains) {victim : Nat} {v : cache_entry_t}
    (hlast : lru.getLast? = some victim) (hget : cache.heap.get victim = some v) {bucket : Nat}
    (hbucket : hash_key v.key cache.bucket_count = bucket) (hmem : victim ∈ chains bucket) :
    evict_lru cache = some { cache with
      heap := evicted_heap cache lru (chains bucket) victim
      hash_table := if pred (chains bucket) victim = none
        then cache.hash_table.set bucket (succ (chains bucket) victim) else cache.hash_table
      lru_head := if pred lru victim = none then none else cache.lru_head
      lru_tail := pred lru victim
      current_size := (cache.current_size + SIZE_MOD - v.size) % SIZE_MOD } := by
  obtain ⟨v', hget', -, hprev⟩ := lru_live h.list (List.mem_of_getLast? hlast)
  obtain rfl : v' = v := by rw [hget] at hget'; exact (Option.some.inj hget').symm
  have hlt : bucket < cache.bucket_count := by rw [← hbucket]; exact h.hash_lt _
  obtain ⟨head, htable, hchain⟩ := h.table_get hlt
  let heap₁ := cache.heap.update_if (pred lru victim) (.set_lru_next none)
  have hrun : cache.heap.modify_if (pred lru victim) (.set_lru_next none) = some heap₁ :=
    Heap.modify_if_of_live (fun b hb => h.live (mem_of_pred_eq_some hb)) _
  have hget₁ : heap₁.get victim = some v' := by
    rw [Heap.get_update_if_of_ne _ (pred_ne_self h.list.nodup victim), hget]
  have hget₂ : (heap₁.update_if (pred (chains bucket) victim) (.set_next (succ (chains bucket) victim))).get
      victim = some v' := by
    rw [Heap.get_update_if_of_ne _ (pred_ne_self hchain.nodup victim), hget₁]
  have hchain₁ : Chain (heap₁.field cache_entry_t.next) head (chains bucket) :=
    hchain.congr fun a _ => by simp [heap₁]
  have hfuel (lru_head : Option Nat) : (chains bucket).length <
      cache_t.fuel { cache with heap := heap₁, lru_tail := pred lru victim, lru_head := lru_head } := by
    simpa [cache_t.fuel, heap₁] using h.chain_length_lt_fuel hlt
  have hunlink (lru_head : Option Nat) := @unlink_victim_eq { cache with
    heap := heap₁, lru_tail := pred lru victim, lru_head := lru_head } victim v' bucket head (chains bucket)
    hchain₁ hget₁ hmem hbucket htable (hfuel lru_head)
  rw [evict_lru, h.list.tail_eq, hlast]
  simp only [Option.bind_eq_bind, hget, Option.bind_some, hprev, hrun, hget₁, hunlink, Heap.free_of_get hget₂]
  rfl

end Evict

end csystems.block_cache
