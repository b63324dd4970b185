import CSystems.Lib.Bytes
import CSystems.LruCache.Table

open clib clib.cint clib.heap clib.hash_table clib.recency

namespace csystems.lru_cache

section Touch

variable {obj : LRUCache} {cache : List (Int32 × Int32)} {lru : List Nat} {chains : Nat → List Nat}

/-- Moving a node to the front, perhaps with a new value, touches its key. -/
theorem Holds.touch (h : Holds obj cache lru chains) {a : Nat} {key value value' : Int32} (ha : a ∈ lru)
    (hcontents : obj.nodes.field Node.contents a = some (key, value)) {nodes : Heap Node} {head tail : Option Nat}
    (hlinked : Linked nodes head tail (a :: lru.erase a))
    (hsame : ∀ b ∈ lru, b ≠ a → nodes.field Node.contents b = obj.nodes.field Node.contents b)
    (hself : nodes.field Node.contents a = some (key, value')) :
    Holds { obj with nodes := nodes, head := head, tail := tail } ((key, value') :: remove cache key)
      (a :: lru.erase a) chains := by
  have hnodup := h.linked.nodup
  have hmem : (key, value) ∈ cache := h.shows.mem_iff.mpr ⟨a, ha, hcontents⟩
  have hperm : ∀ b, b ∈ a :: lru.erase a ↔ b ∈ lru := fun b => ((List.perm_cons_erase ha).mem_iff).symm
  have hsub (b : Nat) (hb : b ∈ lru) : ∃ k v v', obj.nodes.field Node.contents b = some (k, v) ∧
      nodes.field Node.contents b = some (k, v') := by
    obtain ⟨k, v, hkv⟩ := h.shows.exists_of_mem hb
    by_cases hba : b = a
    · subst hba
      exact ⟨key, value, value', hcontents, hself⟩
    · exact ⟨k, v, v, hkv, (hsame b hb hba).trans hkv⟩
  refine ⟨hlinked, ?_, h.keyed.touch key value', ?_, h.table, h.buckets, ?_, ?_⟩
  · have herase := h.shows.erase h.keyed ha hcontents
    have hshows : Shows (nodes.field Node.contents) (lru.erase a) (remove cache key) := by
      apply herase.congr
      intro b hb
      obtain ⟨hne, hb⟩ := (hnodup.mem_erase_iff).mp hb
      exact hsame b hb hne
    exact hshows.cons hself
  · intro e he
    obtain rfl | he := List.mem_cons.mp he
    · exact h.nonneg (key, value) hmem
    · exact h.nonneg e (List.mem_of_mem_filter he)
  · intro b hb e he
    obtain ⟨k, v, a', ha', hbinding, hkv⟩ := h.entry_node b hb e he
    obtain ⟨k', v₁, v₂, hold, hnew⟩ := hsub a' ha'
    rw [hkv] at hold
    obtain ⟨rfl, -⟩ := Prod.mk.inj (Option.some.inj hold)
    exact ⟨k, v₂, a', (hperm a').mpr ha', hbinding, hnew⟩
  · intro b hb k v hkv
    have hb := (hperm b).mp hb
    obtain ⟨k', v₁, v₂, hold, hnew⟩ := hsub b hb
    obtain ⟨rfl, -⟩ := Prod.mk.inj (Option.some.inj (hkv.symm.trans hnew))
    exact h.node_entry b hb k v₁ hold

/-- `lRUCacheGet` is a lookup in the cache. -/
theorem Holds.lRUCacheGet_spec (h : Holds obj cache lru chains) {key : Int32} (hkey : 0 ≤ key.toInt) :
    ∃ obj' lru', lRUCacheGet obj key = some (obj', ((recency.get cache key).1).getD (-1)) ∧
      Holds obj' (recency.get cache key).2 lru' chains ∧ obj'.size = obj.size ∧ obj'.capacity = obj.capacity := by
  unfold recency.get
  cases hlookup : lookup cache key with
  | none =>
    refine ⟨obj, lru, ?_, h, rfl, rfl⟩
    rw [lRUCacheGet, h.hashGet_of_none hkey hlookup]
    rfl
  | some value =>
    obtain ⟨a, ha, hcontents, hget⟩ := h.hashGet_of_some hkey hlookup
    obtain ⟨nodes, head, tail, hrun, hlinked, hsame, -⟩ := moveToHead_spec h.linked ha
    have hself : nodes.field Node.contents a = some (key, value) := by rw [hsame, hcontents]
    have hvalue : nodes.field Node.value a = some value := by
      obtain ⟨n, hn, heq⟩ := Heap.field_eq_some hself
      simp only [Heap.field, hn, Option.map_some]
      exact congrArg some (Prod.mk.inj heq).2
    refine ⟨_, _, ?_, h.touch ha hcontents hlinked (fun b _ _ => by rw [hsame]) hself, rfl, rfl⟩
    rw [lRUCacheGet]
    simp only [Option.bind_eq_bind, hget, Option.bind_some, hrun, hvalue, Option.getD_some]

/-- `lRUCachePut` of a cached key. -/
theorem Holds.lRUCachePut_of_some (h : Holds obj cache lru chains) {key old : Int32} (hkey : 0 ≤ key.toInt)
    (hlookup : lookup cache key = some old) (value : Int32) :
    ∃ obj' lru', lRUCachePut obj key value = some obj' ∧
      Holds obj' ((key, value) :: remove cache key) lru' chains ∧ obj'.size = obj.size ∧
      obj'.capacity = obj.capacity := by
  obtain ⟨a, ha, hcontents, hget⟩ := h.hashGet_of_some hkey hlookup
  obtain ⟨n, hn⟩ := h.live ha
  let nodes := obj.nodes.update a (.set_value value)
  have hmodify : obj.nodes.modify a (.set_value value) = some nodes := Heap.modify_of_get hn _
  have hnext : nodes.field Node.next = obj.nodes.field Node.next := Heap.field_update_of_eq _ _ fun _ => rfl
  have hprev : nodes.field Node.prev = obj.nodes.field Node.prev := Heap.field_update_of_eq _ _ fun _ => rfl
  have hlinked : Linked nodes obj.head obj.tail lru := by
    rw [Linked, hnext, hprev]
    exact h.linked
  obtain ⟨nodes', head, tail, hrun, hlinked', hsame, -⟩ :=
    @moveToHead_spec { obj with nodes := nodes } lru hlinked a ha
  have hother : ∀ b ∈ lru, b ≠ a → nodes'.field Node.contents b = obj.nodes.field Node.contents b := by
    intro b _ hne
    rw [hsame]
    simp only [nodes, Heap.field, Heap.get_update_of_ne _ hne]
  have hself : nodes'.field Node.contents a = some (key, value) := by
    rw [Heap.field, hn, Option.map_some] at hcontents
    obtain ⟨hkeys, -⟩ := Prod.mk.inj (Option.some.inj hcontents)
    rw [hsame]
    simp only [nodes, Heap.field, Heap.get_update_self, hn, Option.map_some, Node.contents, Node.set_value, hkeys]
  refine ⟨_, _, ?_, h.touch ha hcontents hlinked' hother hself, rfl, rfl⟩
  rw [lRUCachePut]
  simp only [Option.bind_eq_bind, hget, Option.bind_some, hmodify, hrun]

end Touch

section Insert

variable {obj : LRUCache} {cache : List (Int32 × Int32)} {lru : List Nat} {chains : Nat → List Nat}

/-- A new node in front of the list, with an entry of its own. -/
theorem Holds.insert (h : Holds obj cache lru chains) {key : Int32} (hkey : 0 ≤ key.toInt)
    (hnone : lookup cache key = none) (value : Int32) :
    ∃ obj₁ obj₂ lru' chains',
      addToHead (createNode obj key value).2 (createNode obj key value).1 = some obj₁ ∧
      hashPut obj₁ key (createNode obj key value).1 = some obj₂ ∧
      Holds obj₂ ((key, value) :: cache) lru' chains' ∧ obj₂.size = obj.size ∧ obj₂.capacity = obj.capacity := by
  let node : Node := { key := key, value := value, prev := none, next := none }
  let a := obj.nodes.next
  let nodes := (obj.nodes.alloc node).2
  have hfresh : ∀ b ∈ lru, b ≠ a := by
    intro b hb
    obtain ⟨n, hn⟩ := h.live hb
    exact Nat.ne_of_lt (Heap.lt_next_of_get hn)
  have hsame {β : Type} (f : Node → β) : ∀ b ∈ lru, nodes.field f b = obj.nodes.field f b := fun b hb =>
    Heap.field_alloc_of_ne _ _ _ (hfresh b hb)
  have hself : nodes.field Node.contents a = some (key, value) := Heap.field_alloc_self _ _ _
  have hlinked : Linked nodes obj.head obj.tail lru := h.linked.congr (hsame Node.next) (hsame Node.prev)
  obtain ⟨nodes', head, tail, hadd, hlinked', hcontents, -⟩ :=
    addToHead_spec { obj with nodes := nodes } hlinked (Heap.get_alloc_self _ _) fun ha => hfresh a ha rfl
  have hkept : ∀ b ∈ lru, nodes'.field Node.contents b = obj.nodes.field Node.contents b := by
    intro b hb
    rw [hcontents]
    exact hsame Node.contents b hb
  have hentry := h.entry_of_eq_none hkey hnone
  obtain ⟨entries, hashTable, hput, htable, hbuckets, hnew, hold⟩ :=
    @hashPut_spec { obj with nodes := nodes', head := head, tail := tail } chains h.table h.buckets key hkey hentry a
  have hlive (b : Nat) (hb : b < HASH_SIZE) (e : Nat) (he : e ∈ chains b) : e ≠ obj.entries.next := by
    obtain ⟨v, hv⟩ := h.buckets.live (h.table ▸ hb) he
    exact Nat.ne_of_lt (Heap.lt_next_of_get hv)
  have hnode : nodes'.field Node.contents a = some (key, value) := by rw [hcontents]; exact hself
  refine ⟨_, _, _, _, hadd, hput, ⟨hlinked', ?_, ?_, ?_, htable, hbuckets, ?_, ?_⟩, rfl, rfl⟩
  · exact (h.shows.congr hkept).cons hnode
  · exact List.nodup_cons.mpr ⟨lookup_eq_none_iff.mp hnone, h.keyed⟩
  · intro e he
    obtain rfl | he := List.mem_cons.mp he
    · exact hkey
    · exact h.nonneg e he
  · intro b hb e he
    by_cases hnext : e = obj.entries.next
    · subst hnext
      exact ⟨key, value, a, List.mem_cons_self, hnew, hnode⟩
    · have he : e ∈ chains b := by
        split at he
        · exact (List.mem_cons.mp he).resolve_left hnext
        · exact he
      obtain ⟨k, v, a', ha', hbinding, hkv⟩ := h.entry_node b hb e he
      exact ⟨k, v, a', List.mem_cons_of_mem _ ha', (hold e hnext).trans hbinding, (hkept a' ha').trans hkv⟩
  · intro b hb k v hkv
    obtain rfl | hb := List.mem_cons.mp hb
    · obtain ⟨rfl, -⟩ := Prod.mk.inj (Option.some.inj (hnode.symm.trans hkv))
      exact ⟨obj.entries.next, by rw [if_pos rfl]; exact List.mem_cons_self, hnew⟩
    · rw [hkept b hb] at hkv
      obtain ⟨e, he, hbinding⟩ := h.node_entry b hb k v hkv
      have hk : 0 ≤ k.toInt := h.nonneg (k, v) (h.shows.mem_iff.mpr ⟨b, hb, hkv⟩)
      refine ⟨e, ?_, (hold e (hlive _ (bucket_lt hk) e he)).trans hbinding⟩
      split
      · exact List.mem_cons_of_mem _ he
      · exact he

end Insert

section Evict

variable {obj : LRUCache} {cache : List (Int32 × Int32)} {lru : List Nat} {chains : Nat → List Nat}

/-- Two entries that lead to one node are the same. -/
theorem Holds.entry_inj (h : Holds obj cache lru chains) {b b' e e' a : Nat} {key key' : Int32} (hb : b < HASH_SIZE)
    (hb' : b' < HASH_SIZE) (he : e ∈ chains b) (he' : e' ∈ chains b')
    (hbinding : obj.entries.field Entry.binding e = some (key, some a))
    (hbinding' : obj.entries.field Entry.binding e' = some (key', some a)) : e = e' := by
  obtain ⟨k, v, a₁, -, h₁, hcontents⟩ := h.entry_node b hb e he
  obtain ⟨k', v', a₂, -, h₂, hcontents'⟩ := h.entry_node b' hb' e' he'
  rw [hbinding] at h₁
  rw [hbinding'] at h₂
  obtain ⟨rfl, ha⟩ := Prod.mk.inj (Option.some.inj h₁)
  obtain ⟨rfl, ha'⟩ := Prod.mk.inj (Option.some.inj h₂)
  obtain rfl := Option.some.inj ha
  obtain rfl := Option.some.inj ha'
  rw [hcontents] at hcontents'
  obtain ⟨rfl, -⟩ := Prod.mk.inj (Option.some.inj hcontents')
  have hfield := (field_key_of_binding hbinding).1
  have hfield' := (field_key_of_binding hbinding').1
  obtain ⟨k, hk, hhash⟩ := h.buckets.keyed b (h.table ▸ hb) e he
  obtain ⟨k', hk', hhash'⟩ := h.buckets.keyed b' (h.table ▸ hb') e' he'
  rw [hfield] at hk
  rw [hfield'] at hk'
  obtain rfl := Option.some.inj hk
  obtain rfl := Option.some.inj hk'
  obtain rfl : b = b' := hhash.symm.trans hhash'
  exact h.buckets.inj b (h.table ▸ hb) e he e' he' (hfield.trans hfield'.symm)

/-- Dropping the last node, with its entry. -/
theorem Holds.evict_spec (h : Holds obj cache lru chains) (hne : cache ≠ []) :
    ∃ obj' lru' chains', evict obj = some obj' ∧ Holds obj' cache.dropLast lru' chains' ∧
      obj'.size = obj.size - 1 ∧ obj'.capacity = obj.capacity := by
  have hnil : lru ≠ [] := by
    intro hnil
    have hlength := h.shows.length_eq
    rw [hnil] at hlength
    exact hne (List.length_eq_zero_iff.mp hlength.symm)
  obtain ⟨front, a, rfl⟩ : ∃ front a, lru = front ++ [a] := ⟨_, _, (List.dropLast_append_getLast hnil).symm⟩
  have ha : a ∈ front ++ [a] := by simp
  have hfront : a ∉ front := by
    have hnodup := h.linked.nodup
    intro hmem
    exact (List.disjoint_of_nodup_append hnodup) hmem (by simp)
  have herase : (front ++ [a]).erase a = front := erase_concat h.linked.nodup
  obtain ⟨key, value, hcontents⟩ := h.shows.exists_of_mem ha
  have hkey : 0 ≤ key.toInt := h.nonneg (key, value) (h.shows.mem_iff.mpr ⟨a, ha, hcontents⟩)
  have htail : obj.tail = some a := by rw [h.linked.tail_eq]; simp
  obtain ⟨nodes, head, tail, hremove, hlinked, hsame, -⟩ := removeNode_spec h.linked ha
  rw [herase] at hlinked
  have hread : nodes.field Node.contents a = some (key, value) := by rw [hsame, hcontents]
  obtain ⟨n, hget, hn⟩ := Heap.field_eq_some hread
  have hkeys : nodes.field Node.key a = some key := by
    rw [Heap.field, hget, Option.map_some]
    exact congrArg some (Prod.mk.inj hn).1
  obtain ⟨e, he, hentry, hbinding⟩ := h.entry_of_eq_some hkey ha hcontents
  obtain ⟨entries, hashTable, hrun, htable, hbuckets, hother⟩ :=
    @hashRemove_spec { obj with nodes := nodes, head := head, tail := tail } chains h.table h.buckets key hkey e hentry
  have hlost (b : Nat) (hb : b ∈ front) : b ≠ a := fun heq => hfront (heq ▸ hb)
  have hkept {β : Type} (f : Node → β) : ∀ b ∈ front, (nodes.erase a).field f b = nodes.field f b := fun b hb =>
    Heap.field_erase_of_ne _ _ (hlost b hb)
  have hcontents' : ∀ b ∈ front, (nodes.erase a).field Node.contents b = obj.nodes.field Node.contents b := by
    intro b hb
    rw [hkept Node.contents b hb, hsame]
  let obj' : LRUCache := { obj with
    nodes := nodes.erase a, entries := entries, size := obj.size - 1, hashTable := hashTable, head := head,
    tail := tail }
  refine ⟨obj', front, _, ?_, ⟨?_, ?_, ?_, ?_, htable, hbuckets, ?_, ?_⟩, rfl, rfl⟩
  · simp only [evict, removeTail, htail, Option.bind_eq_bind, Option.bind_some, hremove, hkeys, hrun,
      Heap.free_of_get hget, obj']
  · exact hlinked.congr (hkept Node.next) (hkept Node.prev)
  · have hshows := h.shows.dropLast
    rw [List.dropLast_concat] at hshows
    exact hshows.congr hcontents'
  · exact h.keyed.sublist ((List.dropLast_sublist _).map Prod.fst)
  · intro e he
    exact h.nonneg e ((List.dropLast_sublist _).subset he)
  · intro b hb e' he'
    obtain ⟨head', -, hchain⟩ := h.buckets.table_get (h.table ▸ hb)
    obtain ⟨hne', he'⟩ := (hchain.nodup.mem_erase_iff).mp he'
    obtain ⟨k, v, a', ha', hbinding', hkv⟩ := h.entry_node b hb e' he'
    have haa' : a' ≠ a := by
      rintro rfl
      exact hne' (h.entry_inj hb (bucket_lt hkey) he' he hbinding' hbinding)
    have hmem : a' ∈ front := by simpa [haa'] using ha'
    exact ⟨k, v, a', hmem, (hother e' hne').trans hbinding', (hcontents' a' hmem).trans hkv⟩
  · intro b hb k v hkv
    rw [hcontents' b hb] at hkv
    obtain ⟨e', he', hbinding'⟩ := h.node_entry b (List.mem_append_left _ hb) k v hkv
    have hne' : e' ≠ e := by
      rintro rfl
      rw [hbinding] at hbinding'
      exact hlost b hb (Option.some.inj (Prod.mk.inj (Option.some.inj hbinding')).2).symm
    exact ⟨e', (List.mem_erase_of_ne hne').mpr he', (hother e' hne').trans hbinding'⟩

end Evict

/-- The list, its reverse, the hash chains and the size all describe the cache. -/
def Represents (obj : LRUCache) (cache : List (Int32 × Int32)) : Prop :=
  (∃ lru chains, Holds obj cache lru chains) ∧ obj.size.toInt = cache.length

section Put

variable {obj : LRUCache} {cache : List (Int32 × Int32)}

theorem Represents.lRUCachePut_overflow (h : Represents obj cache) {key : Int32} (hkey : 0 ≤ key.toInt)
    (hnone : lookup cache key = none) (hfull : cache.length = INT_MAX) (value : Int32) :
    lRUCachePut obj key value = none := by
  obtain ⟨⟨lru, chains, hholds⟩, hsize⟩ := h
  obtain ⟨obj₁, obj₂, -, -, hadd, hput, -, hkept, -⟩ := hholds.insert hkey hnone value
  have hincrement : increment obj₂.size = none := by rw [increment, hkept, hsize, hfull, if_pos rfl]
  rw [lRUCachePut, hholds.hashGet_of_none hkey hnone]
  simp only [Option.bind_eq_bind, Option.bind_some, hadd, hput, hincrement, Option.bind_none]

/-- `lRUCachePut` stores in the cache, while the size can be counted. -/
theorem Represents.lRUCachePut_spec (h : Represents obj cache) {capacity : Nat}
    (hcapacity : obj.capacity.toInt = capacity) {key : Int32} (hkey : 0 ≤ key.toInt)
    (hroom : lookup cache key = none → cache.length < INT_MAX) (value : Int32) :
    ∃ obj', lRUCachePut obj key value = some obj' ∧ Represents obj' (put capacity cache key value) ∧
      obj'.capacity = obj.capacity := by
  obtain ⟨⟨lru, chains, hholds⟩, hsize⟩ := h
  unfold put
  cases hlookup : lookup cache key with
  | some old =>
    obtain ⟨obj', lru', hrun, hholds', hkept, hsame⟩ := hholds.lRUCachePut_of_some hkey hlookup value
    refine ⟨obj', hrun, ⟨⟨lru', chains, hholds'⟩, ?_⟩, hsame⟩
    have hlength := length_remove hholds.keyed (mem_of_lookup hlookup)
    rw [hkept, hsize, List.length_cons, hlength]
  | none =>
    obtain ⟨obj₁, obj₂, lru', chains', hadd, hput, hholds', hkept, hsame⟩ := hholds.insert hkey hlookup value
    have hlt := hroom hlookup
    have hmax : INT_MAX = 2147483647 := rfl
    have hnext : (obj₂.size + 1).toInt = cache.length + 1 := by
      rw [hkept, toInt_succ (by omega), hsize]
    have hincrement : increment obj₂.size = some (obj₂.size + 1) := by
      rw [increment, hkept, hsize, if_neg (by omega)]
    let obj₃ : LRUCache := { obj₂ with size := obj₂.size + 1 }
    have hholds₃ : Holds obj₃ ((key, value) :: cache) lru' chains' :=
      ⟨hholds'.linked, hholds'.shows, hholds'.keyed, hholds'.nonneg, hholds'.table, hholds'.buckets,
        hholds'.entry_node, hholds'.node_entry⟩
    have hrun : lRUCachePut obj key value = if obj₃.size > obj₃.capacity then evict obj₃ else some obj₃ := by
      rw [lRUCachePut, hholds.hashGet_of_none hkey hlookup]
      simp only [Option.bind_eq_bind, Option.bind_some, hadd, hput, hincrement, obj₃]
    have hcompare : obj₃.size > obj₃.capacity ↔ capacity < cache.length + 1 := by
      rw [gt_iff_lt, Int32.lt_iff_toInt_lt, hnext, hsame, hcapacity]
      omega
    rw [hrun]
    dsimp only
    by_cases hover : capacity < cache.length + 1
    · rw [if_pos (hcompare.mpr hover), if_pos hover]
      obtain ⟨obj', lru'', chains'', hevict, hholds'', hsize'', hcapacity''⟩ := hholds₃.evict_spec (by simp)
      refine ⟨obj', hevict, ⟨⟨lru'', chains'', hholds''⟩, ?_⟩, hcapacity''.trans hsame⟩
      rw [hsize'', Int32.add_sub_cancel, hkept, hsize, List.length_dropLast, List.length_cons, Nat.add_sub_cancel]
    · rw [if_neg (fun h => hover (hcompare.mp h)), if_neg hover]
      exact ⟨obj₃, rfl, ⟨⟨lru', chains', hholds₃⟩, hnext⟩, hsame⟩

theorem Represents.lRUCacheGet_spec (h : Represents obj cache) {key : Int32} (hkey : 0 ≤ key.toInt) :
    ∃ obj', lRUCacheGet obj key = some (obj', ((recency.get cache key).1).getD (-1)) ∧
      Represents obj' (recency.get cache key).2 ∧ obj'.capacity = obj.capacity := by
  obtain ⟨⟨lru, chains, hholds⟩, hsize⟩ := h
  obtain ⟨obj', lru', hrun, hholds', hkept, hsame⟩ := hholds.lRUCacheGet_spec hkey
  refine ⟨obj', hrun, ⟨⟨lru', chains, hholds'⟩, ?_⟩, hsame⟩
  rw [hkept, hsize, length_get hholds.keyed]

theorem represents_create (capacity : Int32) : Represents (lRUCacheCreate capacity) [] := by
  refine ⟨⟨[], fun _ => [], ?_⟩, rfl⟩
  have hlinked : Linked (lRUCacheCreate capacity).nodes none none [] := ⟨List.nodup_nil, rfl, rfl, by simp, by simp⟩
  refine ⟨hlinked, rfl, keyed_nil, by simp, List.length_replicate, ⟨?_, by simp, by simp⟩, by simp, by simp⟩
  intro b head hget
  obtain ⟨hlt, rfl⟩ := List.getElem?_eq_some_iff.mp hget
  have hnull : (lRUCacheCreate capacity).hashTable[b] = none := List.getElem_replicate hlt
  rw [hnull]
  exact chain_nil _

end Put

end csystems.lru_cache
