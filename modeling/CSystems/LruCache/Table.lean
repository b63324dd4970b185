import CSystems.Lib.DoubleLinks
import CSystems.LruCache.Cache

open clib.hash_table clib.heap clib.recency

namespace csystems.lru_cache

/-- The links of the recency list. -/
def node_links : Links Node where
  next := Node.next
  prev := Node.prev
  set_next := Node.set_next
  set_prev := Node.set_prev
  next_set_next _ _ := rfl
  prev_set_prev _ _ := rfl
  next_set_prev _ _ := rfl
  prev_set_next _ _ := rfl
  set_comm _ _ _ := rfl

theorem contents_apart : node_links.Apart Node.contents := fun _ _ => ⟨rfl, rfl⟩

/-- The recency list of the cache, most recently used node first. -/
def Linked (nodes : Heap Node) (head tail : Option Nat) (lru : List Nat) : Prop :=
  DList (nodes.field Node.next) (nodes.field Node.prev) head tail lru

theorem Linked.live {nodes : Heap Node} {head tail : Option Nat} {lru : List Nat} (h : Linked nodes head tail lru)
    {a : Nat} (ha : a ∈ lru) : ∃ n, nodes.get a = some n ∧ n.next = succ lru a ∧ n.prev = pred lru a := by
  obtain ⟨n, hget, hnext⟩ := Heap.field_eq_some (h.next_eq a ha)
  have hprev := h.prev_eq a ha
  rw [Heap.field, hget] at hprev
  exact ⟨n, hget, hnext, Option.some.inj hprev⟩

/-- Linking a node in front of the list. -/
theorem addToHead_spec (object : LRUCache) {lru : List Nat} (h : Linked object.nodes object.head object.tail lru)
    {node : Nat} {n : Node} (hnode : object.nodes.get node = some n) (hnew : node ∉ lru) :
    ∃ nodes head tail, addToHead object node = some { object with nodes := nodes, head := head, tail := tail } ∧
      Linked nodes head tail (node :: lru) ∧ nodes.field Node.contents = object.nodes.field Node.contents ∧
      nodes.next = object.nodes.next := by
  have hhead : ∀ b, object.head = some b → ∃ n, object.nodes.get b = some n := by
    intro b hb
    obtain ⟨n, hget, -⟩ := h.live (h.back.mem_of_head hb)
    exact ⟨n, hget⟩
  obtain ⟨nodes₁, nodes₂, nodes₃, hrun₁, hrun₂, hrun₃, hpushed⟩ :=
    Links.pushed_of_live_comm node_links ⟨n, hnode⟩ hhead
  have hrun₁ : object.nodes.modify node (.set_next object.head) = some nodes₁ := hrun₁
  have hrun₂ : nodes₁.modify node (.set_prev none) = some nodes₂ := hrun₂
  have hrun₃ : nodes₂.modify_if object.head (.set_prev (some node)) = some nodes₃ := hrun₃
  refine ⟨nodes₃, some node, _, ?_, hpushed.dlist h hnew, hpushed.same.field contents_apart, hpushed.same.next⟩
  rw [addToHead]
  simp only [Option.bind_eq_bind, hrun₁, hrun₂, hrun₃, Option.bind_some]

/-- Unlinking a node of the list. -/
theorem removeNode_spec {object : LRUCache} {lru : List Nat} (h : Linked object.nodes object.head object.tail lru)
    {node : Nat} (hnode : node ∈ lru) :
    ∃ nodes head tail, removeNode object node = some { object with nodes := nodes, head := head, tail := tail } ∧
      Linked nodes head tail (lru.erase node) ∧ nodes.field Node.contents = object.nodes.field Node.contents ∧
      nodes.next = object.nodes.next := by
  obtain ⟨n, hget, hnext, hprev⟩ := h.live hnode
  have hlive (b : Nat) (hb : b ∈ lru) : ∃ n, object.nodes.get b = some n := by
    obtain ⟨n, hget, -⟩ := h.live hb
    exact ⟨n, hget⟩
  obtain ⟨nodes₁, nodes₂, hrun₁, hrun₂, hsame₁, -, hunlinked⟩ :=
    Links.unlinked_of_live node_links (fun b hb => hlive b (mem_of_pred_eq_some hb))
      (fun b hb => hlive b (mem_of_succ_eq_some hb))
  have hrun₁ : object.nodes.modify_if (pred lru node) (.set_next (succ lru node)) = some nodes₁ := hrun₁
  have hrun₂ : nodes₁.modify_if (succ lru node) (.set_prev (pred lru node)) = some nodes₂ := hrun₂
  have hget₁ : nodes₁.get node = some n := (hsame₁ node (pred_ne_self h.nodup node)).trans hget
  have hhead : (if pred lru node = none then succ lru node else object.head) =
      if object.head = some node then succ lru node else object.head := by
    rw [h.head_eq]
    simp only [pred_eq_none_iff h.nodup hnode]
  have htail : (if succ lru node = none then pred lru node else object.tail) =
      if object.tail = some node then pred lru node else object.tail := by
    rw [h.tail_eq]
    simp only [succ_eq_none_iff h.nodup hnode]
  refine ⟨nodes₂, _, _, ?_, hunlinked.dlist h, hunlinked.same.field contents_apart, hunlinked.same.next⟩
  rw [removeNode]
  simp only [Option.bind_eq_bind, hget, Option.bind_some, hprev, hnext, hrun₁, hget₁, hrun₂, hhead, htail]

/-- Moving a node of the list to its front. -/
theorem moveToHead_spec {object : LRUCache} {lru : List Nat} (h : Linked object.nodes object.head object.tail lru)
    {node : Nat} (hnode : node ∈ lru) :
    ∃ nodes head tail, moveToHead object node = some { object with nodes := nodes, head := head, tail := tail } ∧
      Linked nodes head tail (node :: lru.erase node) ∧
      nodes.field Node.contents = object.nodes.field Node.contents ∧ nodes.next = object.nodes.next := by
  obtain ⟨nodes₁, head₁, tail₁, hrun₁, hlinked₁, hcontents₁, hnext₁⟩ := removeNode_spec h hnode
  have hlive : ∃ n, nodes₁.get node = some n := by
    obtain ⟨n, hget, -⟩ := h.live hnode
    have hfield : nodes₁.field Node.contents node = some n.contents := by
      rw [hcontents₁, Heap.field, hget, Option.map_some]
    obtain ⟨n', hget', -⟩ := Heap.field_eq_some hfield
    exact ⟨n', hget'⟩
  obtain ⟨n, hget⟩ := hlive
  obtain ⟨nodes₂, head₂, tail₂, hrun₂, hlinked₂, hcontents₂, hnext₂⟩ :=
    addToHead_spec { object with nodes := nodes₁, head := head₁, tail := tail₁ } hlinked₁ hget
      h.nodup.not_mem_erase
  refine ⟨nodes₂, head₂, tail₂, ?_, hlinked₂, hcontents₂.trans hcontents₁, hnext₂.trans hnext₁⟩
  rw [moveToHead, hrun₁, Option.bind_eq_bind, Option.bind_some, hrun₂]

theorem bucket_lt {key : Int32} (hkey : 0 ≤ key.toInt) : bucket key < HASH_SIZE := by
  have hmod : (key % 10007).toInt = key.toInt % 10007 := by
    rw [Int32.toInt_mod, Int.tmod_eq_emod_of_nonneg hkey]
    rfl
  have hnonneg : 0 ≤ (key % 10007).toInt := by omega
  have hle : 0 ≤ key % 10007 := Int32.le_iff_toInt_le.mpr (by simpa using hnonneg)
  have hsize : HASH_SIZE = 10007 := rfl
  rw [bucket, hash, Int32.toNat_toUInt32_of_le hle, Int32.toNatClampNeg]
  omega

/-- The key of an entry and the node it leads to. -/
def Entry.binding (e : Entry) : Int32 × Option Nat := (e.key, e.node)

/-- The nodes `lru`, linked forwards and backwards, hold the entries of `cache`, and
the chains of the hash table lead to each of them under its key, and to no other. -/
structure Holds (obj : LRUCache) (cache : List (Int32 × Int32)) (lru : List Nat) (chains : Nat → List Nat) : Prop where
  linked : Linked obj.nodes obj.head obj.tail lru
  shows : Shows (obj.nodes.field Node.contents) lru cache
  keyed : Keyed cache
  nonneg : ∀ e ∈ cache, 0 ≤ e.1.toInt
  table : obj.hashTable.length = HASH_SIZE
  buckets : Buckets Entry.next Entry.key bucket obj.entries obj.hashTable chains
  entry_node : ∀ b < HASH_SIZE, ∀ e ∈ chains b, ∃ key value, ∃ a ∈ lru,
    obj.entries.field Entry.binding e = some (key, some a) ∧ obj.nodes.field Node.contents a = some (key, value)
  node_entry : ∀ a ∈ lru, ∀ key value, obj.nodes.field Node.contents a = some (key, value) →
    ∃ e ∈ chains (bucket key), obj.entries.field Entry.binding e = some (key, some a)

theorem field_key_of_binding {entries : Heap Entry} {e : Nat} {key : Int32} {p : Option Nat}
    (h : entries.field Entry.binding e = some (key, p)) :
    entries.field Entry.key e = some key ∧ entries.field Entry.node e = some p := by
  obtain ⟨v, hget, heq⟩ := Heap.field_eq_some h
  obtain ⟨rfl, rfl⟩ := Prod.mk.inj heq
  simp [Heap.field, hget]

section Lookup

variable {obj : LRUCache} {cache : List (Int32 × Int32)} {lru : List Nat} {chains : Nat → List Nat}

/-- The entry of a key, as `hashGetEntry` finds it. -/
def entry_of (obj : LRUCache) (chains : Nat → List Nat) (key : Int32) : Option Nat :=
  stored Entry.key bucket obj.entries chains key

theorem hashGetEntry_eq (htable : obj.hashTable.length = HASH_SIZE)
    (hbuckets : Buckets Entry.next Entry.key bucket obj.entries obj.hashTable chains) {key : Int32}
    (hkey : 0 ≤ key.toInt) : hashGetEntry obj key = some (entry_of obj chains key) := by
  have hlt : bucket key < obj.hashTable.length := htable ▸ bucket_lt hkey
  obtain ⟨head, hhead, -⟩ := hbuckets.table_get hlt
  rw [hashGetEntry, hhead, Option.bind_eq_bind, Option.bind_some]
  exact hbuckets.find_cell_eq hhead (Nat.lt_succ_self _)

theorem Holds.live (h : Holds obj cache lru chains) {a : Nat} (ha : a ∈ lru) : ∃ n, obj.nodes.get a = some n := by
  obtain ⟨n, hget, -⟩ := h.linked.live ha
  exact ⟨n, hget⟩

theorem Holds.hash_lt (h : Holds obj cache lru chains) {key : Int32} (hkey : 0 ≤ key.toInt) :
    bucket key < obj.hashTable.length := h.table ▸ bucket_lt hkey

/-- The entry of a cached key leads to its node. -/
theorem Holds.entry_of_eq_some (h : Holds obj cache lru chains) {key value : Int32} {a : Nat} (hkey : 0 ≤ key.toInt)
    (ha : a ∈ lru) (hcontents : obj.nodes.field Node.contents a = some (key, value)) :
    ∃ e ∈ chains (bucket key), entry_of obj chains key = some e ∧
      obj.entries.field Entry.binding e = some (key, some a) := by
  obtain ⟨e, he, hbinding⟩ := h.node_entry a ha key value hcontents
  have hfield := (field_key_of_binding hbinding).1
  exact ⟨e, he, (h.buckets.stored_eq_some_iff (h.hash_lt hkey)).mpr ⟨he, hfield⟩, hbinding⟩

theorem Holds.entry_of_eq_none (h : Holds obj cache lru chains) {key : Int32} (hkey : 0 ≤ key.toInt)
    (hnone : lookup cache key = none) : entry_of obj chains key = none := by
  cases hentry : entry_of obj chains key with
  | none => rfl
  | some e =>
    obtain ⟨he, hfield⟩ := (h.buckets.stored_eq_some_iff (h.hash_lt hkey)).mp hentry
    obtain ⟨key', value, a, ha, hbinding, hcontents⟩ := h.entry_node _ (bucket_lt hkey) e he
    have hkeys := (field_key_of_binding hbinding).1
    rw [hfield] at hkeys
    obtain rfl := Option.some.inj hkeys
    have hmem : (key, value) ∈ cache := h.shows.mem_iff.mpr ⟨a, ha, hcontents⟩
    exact absurd (List.mem_map_of_mem hmem) (lookup_eq_none_iff.mp hnone)

theorem Holds.hashGet_of_none (h : Holds obj cache lru chains) {key : Int32} (hkey : 0 ≤ key.toInt)
    (hnone : lookup cache key = none) : hashGet obj key = some none := by
  rw [hashGet, hashGetEntry_eq h.table h.buckets hkey, h.entry_of_eq_none hkey hnone]
  rfl

/-- Looking up a cached key finds its node. -/
theorem Holds.hashGet_of_some (h : Holds obj cache lru chains) {key value : Int32} (hkey : 0 ≤ key.toInt)
    (hsome : lookup cache key = some value) :
    ∃ a ∈ lru, obj.nodes.field Node.contents a = some (key, value) ∧ hashGet obj key = some (some a) := by
  obtain ⟨a, ha, hcontents⟩ := h.shows.mem_iff.mp (mem_of_lookup hsome)
  obtain ⟨e, -, hentry, hbinding⟩ := h.entry_of_eq_some hkey ha hcontents
  refine ⟨a, ha, hcontents, ?_⟩
  rw [hashGet, hashGetEntry_eq h.table h.buckets hkey, hentry, Option.bind_eq_bind, Option.bind_some]
  exact (field_key_of_binding hbinding).2

end Lookup

section Change

variable {obj : LRUCache} {chains : Nat → List Nat}

/-- Adding an entry for a key the table does not have. -/
theorem hashPut_spec (htable : obj.hashTable.length = HASH_SIZE)
    (hbuckets : Buckets Entry.next Entry.key bucket obj.entries obj.hashTable chains) {key : Int32}
    (hkey : 0 ≤ key.toInt) (hnone : entry_of obj chains key = none) (node : Nat) :
    ∃ entries hashTable, hashPut obj key node = some { obj with entries := entries, hashTable := hashTable } ∧
      hashTable.length = HASH_SIZE ∧
      Buckets Entry.next Entry.key bucket entries hashTable
        (fun b => if b = bucket key then obj.entries.next :: chains b else chains b) ∧
      entries.field Entry.binding obj.entries.next = some (key, some node) ∧
      ∀ e, e ≠ obj.entries.next → entries.field Entry.binding e = obj.entries.field Entry.binding e := by
  have hlt : bucket key < obj.hashTable.length := htable ▸ bucket_lt hkey
  obtain ⟨head, hhead, -⟩ := hbuckets.table_get hlt
  have hnew : ∀ e ∈ chains (bucket key), obj.entries.field Entry.key e ≠ some key := by
    intro e he hfield
    rw [entry_of, (hbuckets.stored_eq_some_iff hlt).mpr ⟨he, hfield⟩] at hnone
    cases hnone
  have hpush := hbuckets.push (v := { key := key, node := some node, next := head }) hhead rfl hnew
  refine ⟨_, _, ?_, ?_, hpush, Heap.field_alloc_self _ _ _, fun e he => Heap.field_alloc_of_ne _ _ _ he⟩
  · rw [hashPut, hashGetEntry_eq htable hbuckets hkey, hnone, Option.bind_eq_bind, Option.bind_some]
    simp only [hhead, Option.bind_some, Heap.fst_alloc]
  · rw [List.length_set, htable]

/-- Removing the entry of a key. -/
theorem hashRemove_spec (htable : obj.hashTable.length = HASH_SIZE)
    (hbuckets : Buckets Entry.next Entry.key bucket obj.entries obj.hashTable chains) {key : Int32}
    (hkey : 0 ≤ key.toInt) {e : Nat} (hentry : entry_of obj chains key = some e) :
    ∃ entries hashTable, hashRemove obj key = some { obj with entries := entries, hashTable := hashTable } ∧
      hashTable.length = HASH_SIZE ∧
      Buckets Entry.next Entry.key bucket entries hashTable (fun b => (chains b).erase e) ∧
      ∀ e', e' ≠ e → entries.field Entry.binding e' = obj.entries.field Entry.binding e' := by
  have hlt : bucket key < obj.hashTable.length := htable ▸ bucket_lt hkey
  obtain ⟨head, hhead, hchain⟩ := hbuckets.table_get hlt
  obtain ⟨he, hfield⟩ := (hbuckets.stored_eq_some_iff hlt).mp hentry
  obtain ⟨v, hget⟩ := hbuckets.live hlt he
  have hnext : v.next = succ (chains (bucket key)) e := by
    have hlink := hchain.next_eq e he
    rw [Heap.field, hget] at hlink
    exact Option.some.inj hlink
  have hlive : ∀ c, pred (chains (bucket key)) e = some c → ∃ v, obj.entries.get c = some v := fun c hc =>
    hbuckets.live hlt (mem_of_pred_eq_some hc)
  have hunlink := hbuckets.unlink (fun p (v : Entry) => (rfl : (v.set_next p).next = p))
    (fun p (v : Entry) => (rfl : (v.set_next p).key = v.key)) hlt he
  refine ⟨_, _, ?_, ?_, hunlink, ?_⟩
  · have hfind := hbuckets.find_prev_eq hhead (Nat.lt_succ_self obj.entries.next)
    rw [entry_of] at hentry
    rw [hentry, Option.map_some] at hfind
    have hmodify := Heap.modify_if_of_live hlive (.set_next (succ (chains (bucket key)) e))
    have hstill : ∃ v, (obj.entries.update_if (pred (chains (bucket key)) e)
        (.set_next (succ (chains (bucket key)) e))).get e = some v := (Heap.live_update_if _ _ _).mpr ⟨v, hget⟩
    obtain ⟨v', hget'⟩ := hstill
    rw [hashRemove, hhead, LRUCache.fuel]
    simp only [Option.bind_eq_bind, Option.bind_some, hfind, hget, hnext, hmodify, Heap.free_of_get hget', unlinked]
  · split <;> simp [htable]
  · intro e' hne
    exact field_unlinked obj.entries (fun p (v : Entry) => (rfl : (v.set_next p).binding = v.binding)) _ hne

end Change

end csystems.lru_cache
