import CSystems.LruCache.Refinement

open clib.heap clib.run

namespace csystems.lru_cache

/-- The key of the node that `lRUCachePut` takes off the end after it has inserted a new
key, if it takes one off. -/
def evicted_key (obj : LRUCache) (key value : Int32) : Option Int32 := do
  let (newNode, obj) := createNode obj key value
  let obj ← addToHead obj newNode
  let obj ← hashPut obj key newNode
  let size ← increment obj.size
  let obj := { obj with size := size }
  if obj.size > obj.capacity then
    let (tail, obj) ← removeTail obj
    obj.nodes.field Node.key tail
  else none

/-- The indexes at which a call reads or writes `hashTable`: `hashGetEntry` for `hashGet`;
for a new key `hashGetEntry` and then the bucket itself in `hashPut`; and the bucket of
the evicted key in `hashRemove`. -/
def accesses (obj : LRUCache) : call_t → List Nat
  | .get key => [bucket key]
  | .put key value =>
    match hashGet obj key with
    | some none => [bucket key, bucket key, bucket key] ++ (evicted_key obj key value).toList.map bucket
    | _ => [bucket key]

/-- The remainder of the key is not negative. -/
def InRange (key : Int32) : Prop := 0 ≤ key.toInt ∨ (10007 : Int) ∣ key.toInt

instance (key : Int32) : Decidable (InRange key) := inferInstanceAs (Decidable (_ ∨ _))

/-- A negative remainder becomes an index of almost 2^32. -/
theorem bucket_lt_iff (key : Int32) : bucket key < HASH_SIZE ↔ InRange key := by
  have hmod : (key % 10007).toInt = key.toInt.tmod 10007 := by
    rw [Int32.toInt_mod]
    rfl
  have hbucket : bucket key = (key % 10007).toBitVec.toNat := rfl
  have hunsigned : (key % 10007).toInt = if 2 * (key % 10007).toBitVec.toNat < 2 ^ 32
      then ((key % 10007).toBitVec.toNat : Int) else (key % 10007).toBitVec.toNat - (2 ^ 32 : Nat) :=
    BitVec.toInt_eq_toNat_cond _
  have hsize : HASH_SIZE = 10007 := rfl
  rw [hmod, Int.tmod_eq_emod, ← hbucket] at hunsigned
  rw [InRange]
  split at hunsigned
  · omega
  · have hlt := Int.emod_lt_of_pos key.toInt (show (0 : Int) < 10007 by decide)
    have hnonneg := Int.emod_nonneg key.toInt (show (10007 : Int) ≠ 0 by decide)
    split at hunsigned
    · omega
    · omega

/-- Every node in memory was put under a key whose bucket is in the table. -/
structure Indexed (obj : LRUCache) : Prop where
  length : obj.hashTable.length = HASH_SIZE
  keys : ∀ a key, obj.nodes.field Node.key a = some key → bucket key < HASH_SIZE

/-- A step that changes the links and the table, but no key in a node. -/
structure Keeps (obj obj' : LRUCache) : Prop where
  keys : obj'.nodes.field Node.key = obj.nodes.field Node.key
  length : obj'.hashTable.length = obj.hashTable.length

section Keeps

variable {obj obj' obj'' : LRUCache} {node : Nat} {key : Int32}

theorem Keeps.trans (h : Keeps obj obj') (h' : Keeps obj' obj'') : Keeps obj obj'' :=
  ⟨h'.keys.trans h.keys, h'.length.trans h.length⟩

theorem Indexed.keeps (h : Indexed obj) (hkeeps : Keeps obj obj') : Indexed obj' :=
  ⟨hkeeps.length.trans h.length, fun a key ha => h.keys a key (hkeeps.keys ▸ ha)⟩

theorem addToHead_keeps (h : addToHead obj node = some obj') : Keeps obj obj' := by
  obtain ⟨nodes, hnext, h⟩ := Option.bind_eq_some_iff.mp h
  obtain ⟨nodes', hprev, h⟩ := Option.bind_eq_some_iff.mp h
  obtain ⟨nodes'', hhead, h⟩ := Option.bind_eq_some_iff.mp h
  obtain rfl := Option.some.inj h
  refine ⟨?_, rfl⟩
  have hkeys := Heap.field_modify_if hhead (f := Node.key) fun _ => rfl
  have hkeys' := Heap.field_modify hprev (f := Node.key) fun _ => rfl
  exact (hkeys.trans hkeys').trans (Heap.field_modify hnext fun _ => rfl)

theorem removeNode_keeps (h : removeNode obj node = some obj') : Keeps obj obj' := by
  obtain ⟨n, -, h⟩ := Option.bind_eq_some_iff.mp h
  obtain ⟨nodes, hprev, h⟩ := Option.bind_eq_some_iff.mp h
  obtain ⟨n', -, h⟩ := Option.bind_eq_some_iff.mp h
  obtain ⟨nodes', hnext, h⟩ := Option.bind_eq_some_iff.mp h
  obtain rfl := Option.some.inj h
  have hkeys := Heap.field_modify_if hnext (f := Node.key) fun _ => rfl
  exact ⟨hkeys.trans (Heap.field_modify_if hprev fun _ => rfl), rfl⟩

theorem moveToHead_keeps (h : moveToHead obj node = some obj') : Keeps obj obj' := by
  obtain ⟨object, hremove, hadd⟩ := Option.bind_eq_some_iff.mp h
  exact (removeNode_keeps hremove).trans (addToHead_keeps hadd)

theorem removeTail_keeps (h : removeTail obj = some (node, obj')) : Keeps obj obj' := by
  obtain ⟨tail, -, h⟩ := Option.bind_eq_some_iff.mp h
  obtain ⟨object, hremove, h⟩ := Option.bind_eq_some_iff.mp h
  obtain ⟨-, rfl⟩ := Prod.mk.inj (Option.some.inj h)
  exact removeNode_keeps hremove

/-- A lookup that is defined has read its bucket. -/
theorem hashGet_lt {found : Option Nat} (h : hashGet obj key = some found) : bucket key < obj.hashTable.length := by
  obtain ⟨entry, hentry, -⟩ := Option.bind_eq_some_iff.mp h
  obtain ⟨head, hhead, -⟩ := Option.bind_eq_some_iff.mp hentry
  exact (List.getElem?_eq_some_iff.mp hhead).1

theorem hashPut_keeps (h : hashPut obj key node = some obj') : Keeps obj obj' := by
  obtain ⟨found, -, h⟩ := Option.bind_eq_some_iff.mp h
  cases found with
  | some entry =>
    obtain ⟨entries, -, h⟩ := Option.bind_eq_some_iff.mp h
    obtain rfl := Option.some.inj h
    exact ⟨rfl, rfl⟩
  | none =>
    obtain ⟨head, -, h⟩ := Option.bind_eq_some_iff.mp h
    obtain rfl := Option.some.inj h
    exact ⟨rfl, List.length_set⟩

theorem hashRemove_keeps (h : hashRemove obj key = some obj') : Keeps obj obj' := by
  obtain ⟨head, -, h⟩ := Option.bind_eq_some_iff.mp h
  obtain ⟨found, -, h⟩ := Option.bind_eq_some_iff.mp h
  cases found with
  | none =>
    obtain rfl := Option.some.inj h
    exact ⟨rfl, rfl⟩
  | some found =>
    obtain ⟨e, -, h⟩ := Option.bind_eq_some_iff.mp h
    obtain ⟨entries, -, h⟩ := Option.bind_eq_some_iff.mp h
    obtain ⟨entries', -, h⟩ := Option.bind_eq_some_iff.mp h
    obtain rfl := Option.some.inj h
    refine ⟨rfl, ?_⟩
    dsimp only
    split
    · exact List.length_set
    · rfl

end Keeps

section Runs

variable {obj obj' : LRUCache} {key value : Int32}

/-- The part of `lRUCachePut` before it compares the size with the capacity, for a new key. -/
def insert (obj : LRUCache) (key value : Int32) : Option LRUCache := do
  let (newNode, obj) := createNode obj key value
  let obj ← addToHead obj newNode
  let obj ← hashPut obj key newNode
  let size ← increment obj.size
  some { obj with size := size }

theorem evicted_key_eq : evicted_key obj key value = (insert obj key value).bind fun obj =>
    if obj.size > obj.capacity then (removeTail obj).bind fun r => r.2.nodes.field Node.key r.1 else none := by
  simp [evicted_key, insert, Option.bind_assoc]

theorem lRUCachePut_of_new (hnew : hashGet obj key = some none) :
    lRUCachePut obj key value = (insert obj key value).bind fun obj =>
      if obj.size > obj.capacity then evict obj else some obj := by
  simp [lRUCachePut, insert, hnew, Option.bind_assoc]

theorem Indexed.insert (h : Indexed obj) (hlt : bucket key < HASH_SIZE) (hinsert : insert obj key value = some obj') :
    Indexed obj' := by
  obtain ⟨object, hadd, hinsert⟩ := Option.bind_eq_some_iff.mp hinsert
  obtain ⟨object', hput, hinsert⟩ := Option.bind_eq_some_iff.mp hinsert
  obtain ⟨size, -, hinsert⟩ := Option.bind_eq_some_iff.mp hinsert
  obtain rfl := Option.some.inj hinsert
  have hcreated : Indexed (createNode obj key value).2 := by
    refine ⟨h.length, fun a key' ha => ?_⟩
    change (obj.nodes.alloc _).2.field Node.key a = some key' at ha
    by_cases hself : a = obj.nodes.next
    · rw [hself, Heap.field_alloc_self] at ha
      exact Option.some.inj ha ▸ hlt
    · rw [Heap.field_alloc_of_ne _ _ _ hself] at ha
      exact h.keys a key' ha
  have hkept := (hcreated.keeps (addToHead_keeps hadd)).keeps (hashPut_keeps hput)
  exact ⟨hkept.length, hkept.keys⟩

/-- The evicted key has been put before, by this call or by an earlier one. -/
theorem Indexed.evicted_key_lt (h : Indexed obj) (hlt : bucket key < HASH_SIZE) {evicted : Int32}
    (hevicted : evicted_key obj key value = some evicted) : bucket evicted < HASH_SIZE := by
  rw [evicted_key_eq] at hevicted
  obtain ⟨object, hinsert, hevicted⟩ := Option.bind_eq_some_iff.mp hevicted
  split at hevicted
  · obtain ⟨⟨tail, object'⟩, htail, hkey⟩ := Option.bind_eq_some_iff.mp hevicted
    exact ((h.insert hlt hinsert).keeps (removeTail_keeps htail)).keys tail evicted hkey
  · cases hevicted

theorem Indexed.evict (h : Indexed obj) (hevict : evict obj = some obj') : Indexed obj' := by
  obtain ⟨⟨tail, object⟩, htail, hevict⟩ := Option.bind_eq_some_iff.mp hevict
  obtain ⟨key, -, hevict⟩ := Option.bind_eq_some_iff.mp hevict
  obtain ⟨object', hremove, hevict⟩ := Option.bind_eq_some_iff.mp hevict
  obtain ⟨nodes, hfree, hevict⟩ := Option.bind_eq_some_iff.mp hevict
  obtain rfl := Option.some.inj hevict
  have hkept := (h.keeps (removeTail_keeps htail)).keeps (hashRemove_keeps hremove)
  exact ⟨hkept.length, fun a key ha => hkept.keys a key (Heap.field_free hfree ha)⟩

theorem Indexed.lRUCachePut (h : Indexed obj) (hput : lRUCachePut obj key value = some obj') : Indexed obj' := by
  obtain ⟨found, hget, hrest⟩ := Option.bind_eq_some_iff.mp hput
  have hlt : bucket key < HASH_SIZE := h.length ▸ hashGet_lt hget
  cases found with
  | some node =>
    obtain ⟨nodes, hvalue, hmove⟩ := Option.bind_eq_some_iff.mp hrest
    have hkeeps : Keeps obj { obj with nodes := nodes } := ⟨Heap.field_modify hvalue fun _ => rfl, rfl⟩
    exact h.keeps (hkeeps.trans (moveToHead_keeps hmove))
  | none =>
    rw [lRUCachePut_of_new hget] at hput
    obtain ⟨object, hinsert, hput⟩ := Option.bind_eq_some_iff.mp hput
    have hinserted := h.insert hlt hinsert
    split at hput
    · exact hinserted.evict hput
    · exact Option.some.inj hput ▸ hinserted

theorem Indexed.lRUCacheGet (h : Indexed obj) {result : Int32} (hget : lRUCacheGet obj key = some (obj', result)) :
    Indexed obj' := by
  obtain ⟨found, -, hget⟩ := Option.bind_eq_some_iff.mp hget
  cases found with
  | none =>
    obtain ⟨rfl, -⟩ := Prod.mk.inj (Option.some.inj hget)
    exact h
  | some node =>
    obtain ⟨object, hmove, hget⟩ := Option.bind_eq_some_iff.mp hget
    obtain ⟨field, -, hget⟩ := Option.bind_eq_some_iff.mp hget
    obtain ⟨rfl, -⟩ := Prod.mk.inj (Option.some.inj hget)
    exact h.keeps (moveToHead_keeps hmove)

theorem Indexed.call (h : Indexed obj) {c : call_t} {result : Option Int32} (hcall : call obj c = some (obj', result)) :
    Indexed obj' := by
  cases c with
  | get key =>
    obtain ⟨⟨object, value⟩, hget, heq⟩ := Option.map_eq_some_iff.mp hcall
    obtain ⟨rfl, -⟩ := Prod.mk.inj heq
    exact h.lRUCacheGet hget
  | put key value =>
    obtain ⟨object, hput, heq⟩ := Option.map_eq_some_iff.mp hcall
    obtain ⟨rfl, -⟩ := Prod.mk.inj heq
    exact h.lRUCachePut hput

theorem indexed_create (capacity : Int32) : Indexed (lRUCacheCreate capacity) :=
  ⟨List.length_replicate, fun a key ha => by cases ha⟩

/-- Every cache that calls lead to without undefined behaviour. -/
theorem indexed_run {capacity : Int32} {calls : List call_t} {results : List (Option Int32)}
    (hrun : run (lRUCacheCreate capacity) calls = some (obj, results)) : Indexed obj :=
  exec_invariant (P := Indexed) (fun _ _ _ _ h hcall => h.call hcall) (indexed_create capacity) hrun

end Runs

/-- In every state reached the accesses of the next call stay inside the table exactly if
the remainder of its key is not negative; the evicted key is never the reason. -/
theorem accesses_lt_iff {capacity : Int32} {calls : List call_t} {obj : LRUCache} {results : List (Option Int32)}
    (hrun : run (lRUCacheCreate capacity) calls = some (obj, results)) (c : call_t) :
    (∀ i ∈ accesses obj c, i < HASH_SIZE) ↔ InRange c.key := by
  have hindexed := indexed_run hrun
  rw [← bucket_lt_iff]
  cases c with
  | get key => simp [accesses, call_t.key]
  | put key value =>
    constructor
    · intro hall
      refine hall _ ?_
      rw [accesses]
      split <;> simp [call_t.key]
    · intro hlt i hi
      rw [accesses] at hi
      split at hi
      · rcases List.mem_append.mp hi with hself | hevicted
        · have heq : i = bucket key := by simpa using hself
          exact heq ▸ hlt
        · obtain ⟨evicted, hmem, rfl⟩ := List.mem_map.mp hevicted
          exact hindexed.evicted_key_lt hlt (Option.mem_toList.mp hmem)
      · exact List.mem_singleton.mp hi ▸ hlt

/-- A put under a multiple of 10007 below zero that evicts the key put before. -/
theorem accesses_lt_evicting : ∃ obj results, run (lRUCacheCreate 1) [.put 3 10] = some (obj, results) ∧
    evicted_key obj (-20014) 5 = some 3 ∧ accesses obj (.put (-20014) 5) = [0, 0, 0, 3] ∧
    ∀ i ∈ accesses obj (.put (-20014) 5), i < HASH_SIZE := by
  have hrun : ∃ obj results, run (lRUCacheCreate 1) [.put 3 10] = some (obj, results) ∧
      evicted_key obj (-20014) 5 = some 3 ∧ accesses obj (.put (-20014) 5) = [0, 0, 0, 3] := ⟨_, _, rfl, rfl, rfl⟩
  obtain ⟨obj, results, hrun, hevicted, haccesses⟩ := hrun
  exact ⟨obj, results, hrun, hevicted, haccesses, (accesses_lt_iff hrun (.put (-20014) 5)).mpr (by decide)⟩

/-- Looking up the key -1 in a new cache. -/
theorem accesses_negative :
    accesses (lRUCacheCreate 1) (.get (-1)) = [4294967295] ∧
      ¬ ∀ (capacity : Int32) (calls : List call_t) (obj : LRUCache) (results : List (Option Int32)),
        run (lRUCacheCreate capacity) calls = some (obj, results) →
          ∀ c, ∀ i ∈ accesses obj c, i < HASH_SIZE := by
  have hbucket : bucket (-1) = 4294967295 := by decide
  refine ⟨by rw [accesses, hbucket], fun hall => ?_⟩
  have hlt := hall 1 [] _ [] rfl (.get (-1)) (bucket (-1)) (by simp [accesses])
  rw [hbucket] at hlt
  exact absurd hlt (by decide)

end csystems.lru_cache
