import CSystems.FileCache.Lru

open clib.heap clib.string clib.recency

namespace csystems.file_cache

namespace lru_cache_t

/-- The field `next` of a node. -/
def link (cache : lru_cache_t) (a : Nat) : Option Nat := (cache.heap.field cache_node_t.next a).join

/-- The field `prev` of a node. -/
def before (cache : lru_cache_t) (a : Nat) : Option Nat := (cache.heap.field cache_node_t.prev a).join

/-- The nodes that the links lead to from a pointer. -/
def reach (cache : lru_cache_t) (q : Option Nat) : List Nat :=
  walk (cache.heap.field cache_node_t.next) cache.fuel q

/-- The nodes on the chain of a bucket. -/
def chain (cache : lru_cache_t) (b : Nat) : List Nat := cache.reach (cache.nodes[b]?).join

/-- The bucket a node belongs to by its key. -/
def bucket (cache : lru_cache_t) (a : Nat) : Option Nat := cache.heap.field (fun n => hash n.key) a

end lru_cache_t

/-- Where `move_to_front` of `n`, with `p` before it in the recency list, does no
harm to that list or to the chains. -/
structure Relinkable (cache : lru_cache_t) (p n : Nat) : Prop where
  /-- The link of `n` is the one of the recency list. -/
  follows : (cache.link n = none ∧ cache.tail = some n) ∨ (cache.link n).bind cache.before = some n
  /-- Past `n` the links do not lead back to `p`. -/
  rest : p ∉ cache.reach (cache.link n)
  /-- From the head they lead to `n` past `p` only. -/
  head : n ∉ (cache.reach cache.head).takeWhile (· ≠ p)
  /-- What a bucket has past `p`, it has past `n`. -/
  past_p : ∀ b < CACHE_SIZE, p ∈ cache.chain b →
    ∀ a ∈ cache.reach (cache.link p), cache.bucket a = some b → a ∈ cache.reach (cache.link n)
  /-- What a bucket has past `n`, it has from the head on. -/
  past_n : ∀ b < CACHE_SIZE, n ∈ cache.chain b ∧ p ∉ cache.chain b → p ∈ cache.reach cache.head ∨
    ∀ a ∈ cache.reach (cache.link n), cache.bucket a = some b → a ∈ cache.reach cache.head

/-- Where the removal of `lru`, with `p` before it in the recency list, does no
harm to the chains. -/
structure Evictable (cache : lru_cache_t) (p lru : Nat) : Prop where
  /-- Chains lead to `lru` past `p` only, or `lru` is the first node of its bucket. -/
  unreached : ∀ b < CACHE_SIZE, lru ∈ (cache.chain b).takeWhile (· ≠ p) →
    cache.bucket lru = some b ∧ cache.nodes[b]? = some (some lru)
  /-- No bucket has another node past `p`. -/
  past_p : ∀ b < CACHE_SIZE, p ∈ cache.chain b → ∀ a ∈ cache.reach (cache.link p), cache.bucket a = some b → a = lru

/-- A call that does no harm to the links. -/
structure Safe (cache : lru_cache_t) (c : call_t) : Prop where
  hit : ∀ n ∈ (search cache c.key).join, cache.head = some n ∨ ∃ p ∈ cache.before n, Relinkable cache p n
  miss : c.is_put = true → (search cache c.key).join = none →
    cache.count < cache.capacity ∨ ∃ lru ∈ cache.tail, ∃ p ∈ cache.before lru, Evictable cache p lru

instance decidableRelinkable (cache : lru_cache_t) (p n : Nat) : Decidable (Relinkable cache p n) :=
  have : Decidable (∀ b < CACHE_SIZE, p ∈ cache.chain b →
      ∀ a ∈ cache.reach (cache.link p), cache.bucket a = some b → a ∈ cache.reach (cache.link n)) := inferInstance
  have : Decidable (∀ b < CACHE_SIZE, n ∈ cache.chain b ∧ p ∉ cache.chain b → p ∈ cache.reach cache.head ∨
      ∀ a ∈ cache.reach (cache.link n), cache.bucket a = some b → a ∈ cache.reach cache.head) := inferInstance
  decidable_of_iff
    (((cache.link n = none ∧ cache.tail = some n) ∨ (cache.link n).bind cache.before = some n) ∧
      p ∉ cache.reach (cache.link n) ∧ n ∉ (cache.reach cache.head).takeWhile (· ≠ p) ∧
      (∀ b < CACHE_SIZE, p ∈ cache.chain b →
        ∀ a ∈ cache.reach (cache.link p), cache.bucket a = some b → a ∈ cache.reach (cache.link n)) ∧
      ∀ b < CACHE_SIZE, n ∈ cache.chain b ∧ p ∉ cache.chain b → p ∈ cache.reach cache.head ∨
        ∀ a ∈ cache.reach (cache.link n), cache.bucket a = some b → a ∈ cache.reach cache.head)
    ⟨fun ⟨h₁, h₂, h₃, h₄, h₅⟩ => ⟨h₁, h₂, h₃, h₄, h₅⟩, fun h => ⟨h.1, h.2, h.3, h.4, h.5⟩⟩

instance decidableEvictable (cache : lru_cache_t) (p lru : Nat) : Decidable (Evictable cache p lru) :=
  decidable_of_iff
    ((∀ b < CACHE_SIZE, lru ∈ (cache.chain b).takeWhile (· ≠ p) →
        cache.bucket lru = some b ∧ cache.nodes[b]? = some (some lru)) ∧
      ∀ b < CACHE_SIZE, p ∈ cache.chain b →
        ∀ a ∈ cache.reach (cache.link p), cache.bucket a = some b → a = lru)
    ⟨fun ⟨h₁, h₂⟩ => ⟨h₁, h₂⟩, fun h => ⟨h.1, h.2⟩⟩

instance decidableSafe (cache : lru_cache_t) (c : call_t) : Decidable (Safe cache c) :=
  decidable_of_iff
    ((∀ n ∈ (search cache c.key).join, cache.head = some n ∨ ∃ p ∈ cache.before n, Relinkable cache p n) ∧
      (c.is_put = true → (search cache c.key).join = none →
        cache.count < cache.capacity ∨ ∃ lru ∈ cache.tail, ∃ p ∈ cache.before lru, Evictable cache p lru))
    ⟨fun ⟨h₁, h₂⟩ => ⟨h₁, h₂⟩, fun h => ⟨h.1, h.2⟩⟩

/-- A string that fits a character array of `size` bytes. -/
def Fits (size : Nat) (chars : List UInt8) : Prop := chars.length < size ∧ 0 ∉ chars

instance decidableFits (size : Nat) (chars : List UInt8) : Decidable (Fits size chars) :=
  inferInstanceAs (Decidable (_ ∧ _))

section Strings

variable {size : Nat} {chars : List UInt8}

theorem Fits.copied_eq (h : Fits size chars) : copied size chars = chars := by
  rw [copied, c_str_eq_self h.2, List.take_of_length_le]
  have hlt := h.1
  omega

theorem strcmp_eq_zero_of_fits {other : List UInt8} (h : Fits size chars) (h' : Fits size other) :
    strcmp chars other = 0 ↔ chars = other := by
  rw [strcmp_eq_zero_iff, c_str_eq_self h.2, c_str_eq_self h'.2]

theorem hash_lt (key : List UInt8) : hash key < CACHE_SIZE := Nat.mod_lt _ (by decide)

end Strings

/-- The links lead from `q` to null, over nodes of `lru`, and to every node of
`lru` in the bucket. -/
def Leads (cache : lru_cache_t) (lru : List Nat) (b : Nat) (q : Option Nat) : Prop :=
  ∃ xs, Path (cache.heap.field cache_node_t.next) q xs ∧ (∀ a ∈ xs, a ∈ lru) ∧
    ∀ a ∈ lru, cache.bucket a = some b → a ∈ xs

/-- The nodes `lru`, linked backwards in the order of their use, hold the entries,
and the chain of each bucket leads to all nodes of the bucket. -/
structure Holds (cache : lru_cache_t) (entries : List (List UInt8 × List UInt8)) (lru : List Nat) : Prop where
  back : Back (cache.heap.field cache_node_t.prev) cache.head cache.tail lru
  shows : Shows (cache.heap.field cache_node_t.contents) lru entries
  keyed : Keyed entries
  fits : ∀ e ∈ entries, Fits KEY_SIZE e.1
  table : cache.nodes.length = CACHE_SIZE
  chains : ∀ b q, cache.nodes[b]? = some q → Leads cache lru b q

section Holds

variable {cache : lru_cache_t} {entries : List (List UInt8 × List UInt8)} {lru : List Nat}

theorem Holds.live (h : Holds cache entries lru) {a : Nat} (ha : a ∈ lru) : ∃ n, cache.heap.get a = some n := by
  obtain ⟨n, hget, -⟩ := Heap.field_eq_some (h.back.prev_eq a ha)
  exact ⟨n, hget⟩

theorem Holds.chain_of_lt (h : Holds cache entries lru) {b : Nat} (hb : b < CACHE_SIZE) :
    ∃ q, cache.nodes[b]? = some q ∧ Leads cache lru b q := by
  have hlt : b < cache.nodes.length := h.table ▸ hb
  exact ⟨_, List.getElem?_eq_getElem hlt, h.chains b _ (List.getElem?_eq_getElem hlt)⟩

/-- A walk over nodes of the cache ends in time. -/
theorem Holds.length_lt (h : Holds cache entries lru) {q : Option Nat} {xs : List Nat}
    (hpath : Path (cache.heap.field cache_node_t.next) q xs) (hsub : ∀ a ∈ xs, a ∈ lru) : xs.length < cache.fuel := by
  have hlt : ∀ a ∈ xs, a < cache.heap.next := by
    intro a ha
    obtain ⟨n, hn⟩ := h.live (hsub a ha)
    exact Heap.lt_next_of_get hn
  have hle := length_le_of_nodup_lt hpath.nodup hlt
  rw [lru_cache_t.fuel]
  omega

theorem Holds.reach_eq (h : Holds cache entries lru) {q : Option Nat} {xs : List Nat}
    (hpath : Path (cache.heap.field cache_node_t.next) q xs) (hsub : ∀ a ∈ xs, a ∈ lru) : cache.reach q = xs :=
  hpath.walk_eq (h.length_lt hpath hsub)

theorem Holds.chain_eq (h : Holds cache entries lru) {b : Nat} {q : Option Nat} (hq : cache.nodes[b]? = some q)
    {xs : List Nat} (hpath : Path (cache.heap.field cache_node_t.next) q xs) (hsub : ∀ a ∈ xs, a ∈ lru) :
    cache.chain b = xs := by
  rw [lru_cache_t.chain, hq, Option.join_some, h.reach_eq hpath hsub]

theorem bucket_of_contents {a : Nat} {key data : List UInt8}
    (h : cache.heap.field cache_node_t.contents a = some (key, data)) : cache.bucket a = some (hash key) := by
  obtain ⟨n, hget, heq⟩ := Heap.field_eq_some h
  obtain ⟨rfl, -⟩ := Prod.mk.inj heq
  rw [lru_cache_t.bucket, Heap.field, hget, Option.map_some]

/-- From every node of the cache the links lead to null. -/
theorem Holds.path_of_mem (h : Holds cache entries lru) {a : Nat} (ha : a ∈ lru) :
    ∃ r xs, cache.heap.field cache_node_t.next a = some r ∧ Path (cache.heap.field cache_node_t.next) r xs ∧
      ∀ b ∈ xs, b ∈ lru := by
  obtain ⟨key, data, hcontents⟩ := h.shows.exists_of_mem ha
  obtain ⟨q, -, xs, hpath, hsub, hcover⟩ := h.chain_of_lt (hash_lt key)
  obtain ⟨front, rest, r, rfl, -, hnext, hrest⟩ := hpath.next_of_mem (hcover a ha (bucket_of_contents hcontents))
  exact ⟨r, rest, hnext, hrest, fun b hb => hsub b (by simp [hb])⟩

theorem Holds.link_eq {a : Nat} {r : Option Nat} (hnext : cache.heap.field cache_node_t.next a = some r) :
    cache.link a = r := by rw [lru_cache_t.link, hnext, Option.join_some]

theorem Holds.before_eq (h : Holds cache entries lru) {a : Nat} (ha : a ∈ lru) : cache.before a = pred lru a := by
  rw [lru_cache_t.before, h.back.prev_eq a ha, Option.join_some]

end Holds

end csystems.file_cache
