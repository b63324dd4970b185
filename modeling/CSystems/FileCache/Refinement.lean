import CSystems.FileCache.Insert

open clib clib.heap clib.string clib.recency clib.run

namespace csystems.file_cache

/-- A call on the abstract cache of `CACHE_SIZE` entries, with what it returns. -/
def spec_call (entries : List (List UInt8 × List UInt8)) :
    call_t → List (List UInt8 × List UInt8) × Option (List UInt8)
  | .get key => ((recency.get entries key).2, (recency.get entries key).1)
  | .put key data => (put CACHE_SIZE entries key data, none)

def spec_run (calls : List call_t) : List (List UInt8 × List UInt8) × List (Option (List UInt8)) :=
  respond spec_call [] calls

/-- The strings of a call fit the character arrays. -/
def call_t.Valid : call_t → Prop
  | .get key => Fits KEY_SIZE key
  | .put key data => Fits KEY_SIZE key ∧ Fits DATA_SIZE data

/-- The cache holds the entries, in the order of their use. -/
def Represents (cache : lru_cache_t) (entries : List (List UInt8 × List UInt8)) : Prop :=
  (∃ lru, Holds cache entries lru) ∧ cache.count = entries.length ∧ cache.capacity = CACHE_SIZE ∧
    entries.length ≤ CACHE_SIZE

theorem represents_create : Represents create_lru_cache [] := by
  refine ⟨⟨[], ⟨List.nodup_nil, rfl, rfl, by simp⟩, rfl, keyed_nil, by simp, rfl, ?_⟩, rfl, rfl, by simp⟩
  intro b q hq
  obtain ⟨hlt, rfl⟩ := List.getElem?_eq_some_iff.mp hq
  have hnull : create_lru_cache.nodes[b] = none := List.getElem_replicate hlt
  exact ⟨[], hnull, by simp, by simp⟩

section Step

variable {cache : lru_cache_t} {entries : List (List UInt8 × List UInt8)} {key data : List UInt8}

theorem Holds.cache_get_of_none {lru : List Nat} (h : Holds cache entries lru) (hkey : Fits KEY_SIZE key)
    (hnone : lookup entries key = none) : cache_get cache key = some (cache, none) := by
  rw [cache_get, h.search_of_none hkey hnone]
  rfl

/-- `cache_get` of a cached key. -/
theorem Holds.cache_get_of_some {lru : List Nat} (h : Holds cache entries lru) (hkey : Fits KEY_SIZE key)
    (hsome : lookup entries key = some data)
    (hsafe : ∀ n, search cache key = some (some n) → cache.head = some n ∨ ∃ p ∈ cache.before n, Relinkable cache p n) :
    ∃ cache' n, cache_get cache key = some (cache', some data) ∧
      Holds cache' ((key, data) :: remove entries key) (n :: lru.erase n) ∧ cache'.count = cache.count ∧
      cache'.capacity = cache.capacity := by
  obtain ⟨n, hn, hcontents, hsearch⟩ := h.search_of_some hkey hsome
  obtain ⟨cache', hrun, hholds, hsame, hcount, hcapacity⟩ :=
    h.move_to_front_spec hn hcontents (hsafe n hsearch)
  refine ⟨cache', n, ?_, hholds, hcount, hcapacity⟩
  have hdata : cache'.heap.field cache_node_t.data n = some data := by
    rw [← hsame] at hcontents
    obtain ⟨v, hget, heq⟩ := Heap.field_eq_some hcontents
    rw [Heap.field, hget, Option.map_some]
    exact congrArg some (Prod.mk.inj heq).2
  rw [cache_get, hsearch, Option.bind_eq_bind, Option.bind_some]
  simp only [hrun, Option.bind_some, hdata, Option.bind_eq_bind]

theorem Represents.cache_get_spec (h : Represents cache entries) (hkey : Fits KEY_SIZE key)
    (hsafe : Safe cache (.get key)) :
    ∃ cache', cache_get cache key = some (cache', (recency.get entries key).1) ∧
      Represents cache' (recency.get entries key).2 := by
  obtain ⟨⟨lru, hholds⟩, hcount, hcapacity, hle⟩ := h
  unfold recency.get
  cases hlookup : lookup entries key with
  | none => exact ⟨cache, hholds.cache_get_of_none hkey hlookup, ⟨lru, hholds⟩, hcount, hcapacity, hle⟩
  | some data =>
    obtain ⟨cache', n, hrun, hholds', hcount', hcapacity'⟩ :=
      hholds.cache_get_of_some hkey hlookup fun n hn => hsafe.hit n (by rw [call_t.key, hn]; rfl)
    have hlength := length_remove hholds.keyed (mem_of_lookup hlookup)
    refine ⟨cache', hrun, ⟨_, hholds'⟩, ?_, hcapacity'.trans hcapacity, ?_⟩
    · rw [hcount', hcount, List.length_cons, hlength]
    · rw [List.length_cons, hlength]
      exact hle

/-- `cache_put` of a cached key. -/
theorem Represents.cache_put_of_some (h : Represents cache entries) (hkey : Fits KEY_SIZE key)
    (hdata : Fits DATA_SIZE data) (hsafe : Safe cache (.put key data)) {old : List UInt8}
    (hlookup : lookup entries key = some old) :
    ∃ cache', cache_put cache key data = some cache' ∧ Represents cache' ((key, data) :: remove entries key) := by
  obtain ⟨⟨lru, hholds⟩, hcount, hcapacity, hle⟩ := h
  obtain ⟨cache₁, n, hget, hholds₁, hcount₁, hcapacity₁⟩ :=
    hholds.cache_get_of_some hkey hlookup fun n hn => hsafe.hit n (by rw [call_t.key, hn]; rfl)
  have hfound : lookup ((key, old) :: remove entries key) key = some old :=
    hholds₁.keyed.lookup_of_mem List.mem_cons_self
  obtain ⟨n', hn', hcontents, hsearch⟩ := hholds₁.search_of_some hkey hfound
  have hfirst : cache₁.heap.field cache_node_t.contents n = some (key, old) := (List.cons.inj hholds₁.shows).1
  obtain rfl : n' = n := hholds₁.shows.eq_of_key hholds₁.keyed hn' List.mem_cons_self hcontents hfirst
  obtain ⟨heap, hmodify, hholds₂⟩ := hholds₁.set_data data
  have hlength := length_remove hholds.keyed (mem_of_lookup hlookup)
  refine ⟨{ cache₁ with heap := heap }, ?_, ⟨_, hholds₂⟩, ?_, hcapacity₁.trans hcapacity, ?_⟩
  · rw [cache_put]
    simp only [Option.bind_eq_bind, hget, Option.bind_some, hsearch, hdata.copied_eq, hmodify]
  · show cache₁.count = _
    rw [hcount₁, hcount, List.length_cons, hlength]
  · rw [List.length_cons, hlength]
    exact hle

/-- What is left of the cache once there is room for a new node. -/
theorem Represents.make_room_spec {lru : List Nat} (hholds : Holds cache entries lru)
    (hcount : cache.count = entries.length) (hcapacity : cache.capacity = CACHE_SIZE)
    (hle : entries.length ≤ CACHE_SIZE)
    (hmiss : cache.count < cache.capacity ∨ ∃ lru ∈ cache.tail, ∃ p ∈ cache.before lru, Evictable cache p lru)
    (hlookup : lookup entries key = none) (node : cache_node_t) :
    ∃ cache' entries' lru', make_room { cache with heap := (cache.heap.alloc node).2 } = some cache' ∧
      Holds cache' entries' lru' ∧ cache.heap.next ∉ lru' ∧ cache'.heap.get cache.heap.next = some node ∧
      cache'.count = entries'.length ∧ cache'.capacity = CACHE_SIZE ∧ entries'.length + 1 ≤ CACHE_SIZE ∧
      lookup entries' key = none ∧ put CACHE_SIZE entries key data = (key, data) :: entries' := by
  let cache₁ : lru_cache_t := { cache with heap := (cache.heap.alloc node).2 }
  have hholds₁ : Holds cache₁ entries lru := hholds.alloc node
  have hnew : cache.heap.next ∉ lru := fun hmem => hholds.ne_next _ hmem rfl
  have hnode : cache₁.heap.get cache.heap.next = some node := Heap.get_alloc_self _ _
  have hsize : CACHE_SIZE = 5 := rfl
  have hput : put CACHE_SIZE entries key data = if CACHE_SIZE < entries.length + 1
      then ((key, data) :: entries).dropLast else (key, data) :: entries := by
    unfold put
    rw [hlookup]
  by_cases hfull : cache.count ≥ cache.capacity
  · have hlength : entries.length = CACHE_SIZE := by
      rw [hcount, hcapacity] at hfull
      omega
    obtain ⟨l, htail, p, hbefore, hevictable⟩ := hmiss.resolve_left (Int.not_lt.mpr hfull)
    have hl : l ∈ lru := List.mem_of_getLast? (hholds.back.tail_eq.symm.trans htail)
    have hp : p ∈ lru := mem_of_pred_eq_some ((hholds.before_eq hl).symm.trans hbefore)
    have hbefore₁ : cache₁.before l = some p :=
      (hholds₁.before_eq hl).trans ((hholds.before_eq hl).symm.trans hbefore)
    obtain ⟨cache₂, lru₂, hevict, hholds₂, hsub, hkept, hcount₂, hcapacity₂⟩ :=
      hholds₁.evict_spec htail hbefore₁ (hevictable.alloc hholds hp hl node)
    have hne : entries ≠ [] := by
      rintro rfl
      cases hlength
    refine ⟨cache₂, entries.dropLast, lru₂, ?_, hholds₂, fun hmem => hnew (hsub _ hmem), ?_, ?_,
      hcapacity₂.trans hcapacity, ?_, ?_, ?_⟩
    · rw [make_room, if_pos hfull, hevict]
    · rw [hkept _ hnew, hnode]
    · rw [hcount₂, List.length_dropLast]
      show cache.count - 1 = _
      omega
    · rw [List.length_dropLast]
      omega
    · rw [lookup_eq_none_iff] at hlookup ⊢
      exact fun hmem => hlookup (((List.dropLast_sublist _).map Prod.fst).subset hmem)
    · rw [hput, if_pos (by omega), List.dropLast_cons_of_ne_nil hne]
  · have hlt : entries.length < CACHE_SIZE := by
      rw [hcount, hcapacity] at hfull
      omega
    refine ⟨cache₁, entries, lru, ?_, hholds₁, hnew, hnode, hcount, hcapacity, hlt, hlookup, ?_⟩
    · rw [make_room, if_neg hfull]
    · rw [hput, if_neg (by omega)]

/-- `cache_put` of a new key. -/
theorem Represents.cache_put_of_none (h : Represents cache entries) (hkey : Fits KEY_SIZE key)
    (hdata : Fits DATA_SIZE data) (hsafe : Safe cache (.put key data)) (hlookup : lookup entries key = none) :
    ∃ cache', cache_put cache key data = some cache' ∧ Represents cache' (put CACHE_SIZE entries key data) := by
  obtain ⟨⟨lru, hholds⟩, hcount, hcapacity, hle⟩ := h
  have hget := hholds.cache_get_of_none hkey hlookup
  have hmiss := hsafe.miss rfl (by rw [call_t.key, hholds.search_of_none hkey hlookup]; rfl)
  let node : cache_node_t := { key := key, data := data, prev := none, next := none }
  obtain ⟨cache₁, entries₁, lru₁, hroom, hholds₁, hnew, hnode, hcount₁, hcapacity₁, hlt, hlookup₁, hput⟩ :=
    make_room_spec hholds hcount hcapacity hle hmiss hlookup node
  obtain ⟨cache₂, first, heap, hadd, hfirst, hmodify, hholds₂, hcount₂, hcapacity₂⟩ :=
    hholds₁.insert hkey hlookup₁ hnew hnode
  rw [hput]
  refine ⟨_, ?_, ⟨_, hholds₂⟩, ?_, hcapacity₂.trans hcapacity₁, ?_⟩
  · rw [cache_put]
    simp only [Option.bind_eq_bind, hget, Option.bind_some, hkey.copied_eq, hdata.copied_eq, Heap.fst_alloc]
    rw [hroom]
    simp only [Option.bind_some, hadd, hfirst, hmodify]
  · show cache₂.count + 1 = _
    rw [hcount₂, hcount₁, List.length_cons]
    rfl
  · rw [List.length_cons]
    exact hlt

/-- A safe call returns what the call of the abstract cache returns. -/
theorem Represents.step (h : Represents cache entries) {c : call_t} (hvalid : c.Valid) (hsafe : Safe cache c) :
    ∃ cache', call cache c = some (cache', (spec_call entries c).2) ∧ Represents cache' (spec_call entries c).1 := by
  cases c with
  | get key => exact h.cache_get_spec hvalid hsafe
  | put key data =>
    have hput : ∃ cache', cache_put cache key data = some cache' ∧
        Represents cache' (put CACHE_SIZE entries key data) := by
      cases hlookup : lookup entries key with
      | none => exact h.cache_put_of_none hvalid.1 hvalid.2 hsafe hlookup
      | some old =>
        obtain ⟨cache', hrun, hrepresents⟩ := h.cache_put_of_some hvalid.1 hvalid.2 hsafe hlookup
        refine ⟨cache', hrun, ?_⟩
        unfold put
        rw [hlookup]
        exact hrepresents
    obtain ⟨cache', hrun, hrepresents⟩ := hput
    exact ⟨cache', by rw [call, hrun]; rfl, hrepresents⟩

end Step

/-- No link leads to a freed node: from the head, from the tail and from every
bucket the links lead to null over live nodes. -/
def NoDangling (cache : lru_cache_t) : Prop :=
  (∃ xs, Path (cache.heap.field cache_node_t.next) cache.head xs) ∧
  (∃ xs, Path (cache.heap.field cache_node_t.prev) cache.tail xs) ∧
  ∀ (b : Nat) (q : Option Nat), cache.nodes[b]? = some q → ∃ xs, Path (cache.heap.field cache_node_t.next) q xs

theorem Represents.noDangling {cache : lru_cache_t} {entries : List (List UInt8 × List UInt8)}
    (h : Represents cache entries) : NoDangling cache := by
  obtain ⟨⟨lru, hholds⟩, -⟩ := h
  refine ⟨?_, ⟨_, hholds.back.path⟩, ?_⟩
  · obtain ⟨xs, hpath, -⟩ := hholds.path_head
    exact ⟨xs, hpath⟩
  · intro b q hq
    obtain ⟨xs, hpath, -⟩ := hholds.chains b q hq
    exact ⟨xs, hpath⟩

/-- The calls return what the abstract cache returns, and leave no dangling link. -/
def Refined (calls : List call_t) : Prop :=
  ∃ cache, run create_lru_cache calls = some (cache, (spec_run calls).2) ∧ NoDangling cache

/-- While every call is safe, the cache refines the abstract one. -/
theorem file_cache_refines (calls : List call_t) (hvalid : ∀ c ∈ calls, c.Valid)
    (hsafe : AllCalls call Safe create_lru_cache calls) : ∀ now, now <+: calls → Refined now := by
  intro now hnow
  have hstep (cache : lru_cache_t) (entries : List (List UInt8 × List UInt8)) (c : call_t) (hc : c.Valid)
      (hrepresents : Represents cache entries) (hsafe : Safe cache c) :
      ∃ cache', call cache c = some (cache', (spec_call entries c).2) ∧ Represents cache' (spec_call entries c).1 :=
    hrepresents.step hc hsafe
  obtain ⟨cache, hrun, hrepresents⟩ := (hsafe.take hnow).simulate hstep represents_create
    fun c hc => hvalid c (hnow.subset hc)
  exact ⟨cache, hrun, hrepresents.noDangling⟩

instance decidableValid (c : call_t) : Decidable c.Valid :=
  match c with
  | .get key => inferInstanceAs (Decidable (Fits KEY_SIZE key))
  | .put key data => inferInstanceAs (Decidable (Fits KEY_SIZE key ∧ Fits DATA_SIZE data))

/-- Six keys, so that one is evicted, and hits on the ones that stay. -/
def six_calls : List call_t :=
  [.put [97] [1], .put [98] [2], .get [97], .put [99] [3], .put [100] [4], .put [101] [5], .put [102] [6], .get [98],
    .get [102]]

theorem file_cache_refines_six :
    AllCalls call Safe create_lru_cache six_calls ∧ ∀ now, now <+: six_calls → Refined now := by
  have hsafe : AllCalls call Safe create_lru_cache six_calls := by decide
  exact ⟨hsafe, file_cache_refines six_calls (by decide) hsafe⟩

/-- Two keys of one bucket: finding the older one takes it off the chain. -/
theorem file_cache_loses_key :
    (∀ c ∈ [call_t.put [97] [1], .put [102] [2], .get [97], .get [97]], c.Valid) ∧
      ¬ ∀ now, now <+: [call_t.put [97] [1], .put [102] [2], .get [97], .get [97]] → Refined now := by
  refine ⟨by decide, ?_⟩
  intro hall
  obtain ⟨cache, hrun, -⟩ := hall _ (List.prefix_refl _)
  have hresults : (run create_lru_cache _).map Prod.snd = some (spec_run _).2 := congrArg (Option.map Prod.snd) hrun
  revert hresults
  decide

end csystems.file_cache
