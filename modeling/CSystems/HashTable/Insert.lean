import CSystems.HashTable.Chains

open clib.heap clib.hash_table

namespace csystems.hash_table

section Walk

variable {heap : Heap Node} {key : key_t} {value : Int32} {newNode : Nat}

/-- A walk that meets the key at the last node only, or not at all, changes
nothing. -/
theorem insert_walk_miss {first last : Nat} {rest : List Nat}
    (hchain : Chain (heap.field Node.next) (some first) (first :: rest))
    (hlast : (first :: rest).getLast? = some last)
    (hmiss : ∀ a ∈ first :: rest, a ≠ last → ∃ k, heap.field Node.key a = some k ∧ k ≠ key)
    (hlive : ∃ n, heap.get last = some n) {fuel : Nat} (hfuel : rest.length < fuel) :
    insert_walk key value newNode fuel heap first = some (heap, last) := by
  induction rest generalizing first fuel with
  | nil =>
    obtain ⟨fuel, rfl⟩ : ∃ k, fuel = k + 1 := ⟨fuel - 1, by omega⟩
    obtain rfl : first = last := by simpa using hlast
    obtain ⟨n, hn⟩ := hlive
    have hnext : n.next = none := by simpa [Heap.field, hn] using hchain.tail.1
    simp [insert_walk, hn, hnext]
  | cons second rest ih =>
    obtain ⟨fuel, rfl⟩ : ∃ k, fuel = k + 1 := ⟨fuel - 1, by omega⟩
    obtain ⟨hnext, htail⟩ := hchain.tail
    rw [List.getLast?_cons_cons] at hlast
    have hne : first ≠ last := by
      rintro rfl
      exact (List.nodup_cons.mp hchain.nodup).1 (List.mem_of_getLast? hlast)
    obtain ⟨k, hk, hkey⟩ := hmiss first List.mem_cons_self hne
    obtain ⟨n, hn, rfl⟩ := Heap.field_eq_some hk
    have hlink : n.next = some second := by simpa [Heap.field, hn] using hnext
    have hfuel : rest.length < fuel := by simpa using hfuel
    have hrest := ih htail hlast (fun a ha => hmiss a (List.mem_cons_of_mem _ ha)) hfuel
    simp only [insert_walk, hn, Option.bind_eq_bind, Option.bind_some, hlink, if_neg hkey, hrest]

/-- A walk that meets the key earlier stores the value, frees the new node and
walks on to the last one. -/
theorem insert_walk_hit {first last hit : Nat} {rest : List Nat}
    (hchain : Chain (heap.field Node.next) (some first) (first :: rest))
    (hlast : (first :: rest).getLast? = some last)
    (hmem : hit ∈ first :: rest) (hinner : hit ≠ last) (hkey : heap.field Node.key hit = some key)
    (hother : ∀ a ∈ first :: rest, a ≠ hit → ∃ k, heap.field Node.key a = some k ∧ k ≠ key)
    (hnew : ∃ n, heap.get newNode = some n) (hnot : newNode ∉ first :: rest) {fuel : Nat}
    (hfuel : rest.length < fuel) :
    insert_walk key value newNode fuel heap first =
      some ((heap.update hit (.set_value value)).erase newNode, last) := by
  induction rest generalizing first fuel with
  | nil =>
    obtain rfl : first = last := by simpa using hlast
    exact absurd (by simpa using hmem) hinner
  | cons second rest ih =>
    obtain ⟨fuel, rfl⟩ : ∃ k, fuel = k + 1 := ⟨fuel - 1, by omega⟩
    obtain ⟨hnext, htail⟩ := hchain.tail
    rw [List.getLast?_cons_cons] at hlast
    have hfuel : rest.length < fuel := by simpa using hfuel
    have hnot : newNode ≠ first ∧ newNode ∉ second :: rest := by simpa [not_or] using hnot
    by_cases hhit : first = hit
    · subst hhit
      obtain ⟨n, hn, hk⟩ := Heap.field_eq_some hkey
      have hlink : n.next = some second := by simpa [Heap.field, hn] using hnext
      have hfirst : first ∉ second :: rest := (List.nodup_cons.mp hchain.nodup).1
      have hfree : (heap.update first (.set_value value)).free newNode =
          some ((heap.update first (.set_value value)).erase newNode) := by
        obtain ⟨m, hm⟩ := (Heap.live_update first newNode (Node.set_value value)).mpr hnew
        exact Heap.free_of_get hm
      have hsame : ∀ a ∈ second :: rest,
          ((heap.update first (.set_value value)).erase newNode).get a = heap.get a := by
        intro a ha
        have hane : a ≠ newNode := fun heq => hnot.2 (heq ▸ ha)
        have hafirst : a ≠ first := fun heq => hfirst (heq ▸ ha)
        rw [Heap.get_erase_of_ne _ hane, Heap.get_update_of_ne _ hafirst]
      have hfields {β : Type} (f : Node → β) : ∀ a ∈ second :: rest,
          ((heap.update first (.set_value value)).erase newNode).field f a = heap.field f a := by
        intro a ha
        rw [Heap.field, hsame a ha, Heap.field]
      have hrest : insert_walk key value newNode fuel ((heap.update first (.set_value value)).erase newNode) second =
          some ((heap.update first (.set_value value)).erase newNode, last) := by
        apply insert_walk_miss (htail.congr (hfields Node.next)) hlast
        · intro a ha _
          rw [hfields Node.key a ha]
          exact hother a (List.mem_cons_of_mem _ ha) fun heq => hfirst (heq ▸ ha)
        · have hmemlast := List.mem_of_getLast? hlast
          have hlastne : last ≠ first := fun heq => hfirst (heq ▸ hmemlast)
          obtain ⟨k, hk, -⟩ := hother last (List.mem_cons_of_mem _ hmemlast) hlastne
          obtain ⟨m, hm, -⟩ := Heap.field_eq_some hk
          exact ⟨m, by rw [hsame last hmemlast, hm]⟩
        · exact hfuel
      simp only [insert_walk, hn, Option.bind_eq_bind, Option.bind_some, hlink, if_pos hk, Heap.modify_of_get hn,
        hfree, hrest]
    · have hmem : hit ∈ second :: rest := by simpa [Ne.symm hhit] using hmem
      obtain ⟨k, hk, hkne⟩ := hother first List.mem_cons_self hhit
      obtain ⟨n, hn, rfl⟩ := Heap.field_eq_some hk
      have hlink : n.next = some second := by simpa [Heap.field, hn] using hnext
      have hrest := ih htail hlast hmem (fun a ha => hother a (List.mem_cons_of_mem _ ha)) hnot.2 hfuel
      simp only [insert_walk, hn, Option.bind_eq_bind, Option.bind_some, hlink, if_neg hkne, hrest]

end Walk

section Insert

variable {t : table_t} {chains : Nat → List Nat} {entries : List (key_t × Int32)}

theorem mem_bucket_iff {b : Nat} {p : key_t × Int32} : p ∈ bucket entries b ↔ p ∈ entries ∧ hash p.1 = b := by
  simp [bucket]

/-- The address of a new node is not that of a cell. -/
theorem Represents.ne_next (h : Represents t chains entries) {b : Nat} (hb : b < TABLE_SIZE) {a : Nat}
    (ha : a ∈ chains b) : a ≠ t.heap.next := by
  obtain ⟨n, hn⟩ := h.buckets.live (h.length ▸ hb) ha
  exact Nat.ne_of_lt (Heap.lt_next_of_get hn)

/-- Where the walk of an insertion starts, in the heap that has the new node. -/
theorem Represents.walk_start (h : Represents t chains entries) {key : key_t} {a : Nat} (ha : a ∈ chains (hash key))
    (newNode : Node) :
    ∃ first rest, chains (hash key) = first :: rest ∧ t.hashTable[hash key]? = some (some first) ∧
      Chain ((t.heap.alloc newNode).2.field Node.next) (some first) (first :: rest) ∧ rest.length < t.fuel := by
  obtain ⟨head, hhead, hchain⟩ := h.head_get key
  have hlength := h.buckets.length_lt (h.length ▸ hash_lt key)
  obtain ⟨first, rest, hcells⟩ := List.exists_cons_of_ne_nil (List.ne_nil_of_mem ha)
  have hsame : ∀ c ∈ chains (hash key), (t.heap.alloc newNode).2.field Node.next c = t.heap.field Node.next c :=
    fun c hc => Heap.field_alloc_of_ne _ _ _ (h.ne_next (hash_lt key) hc)
  have hstart := hchain.congr hsame
  rw [hcells] at hstart hlength
  obtain rfl : head = some first := hstart.head_eq
  exact ⟨first, rest, hcells, hhead, hstart, lt_of_le_of_lt (Nat.le_succ _) hlength⟩

/-- The table after the new node was put behind the last node of its bucket. -/
def appended (t : table_t) (chains : Nat → List Nat) (key : key_t) (value : Int32) : table_t where
  hashTable := if chains (hash key) = [] then t.hashTable.set (hash key) (some t.heap.next) else t.hashTable
  heap := (t.heap.alloc ⟨key, value, none⟩).2.update_if (chains (hash key)).getLast? (.set_next (some t.heap.next))

theorem field_contents_appended (t : table_t) (chains : Nat → List Nat) (key : key_t) (value : Int32) (a : Nat) :
    (appended t chains key value).heap.field Node.contents a =
      if a = t.heap.next then some (key, value) else t.heap.field Node.contents a := by
  dsimp only [appended]
  rw [Heap.field_update_if_of_eq _ _ fun v : Node => (rfl : (v.set_next (some t.heap.next)).contents = v.contents)]
  split
  · next hnew => rw [hnew, Heap.field_alloc_self, Node.contents]
  · next hold => rw [Heap.field_alloc_of_ne _ _ _ hold]

theorem Represents.field_next_appended (h : Represents t chains entries) (key : key_t) (value : Int32) (a : Nat) :
    (appended t chains key value).heap.field Node.next a =
      if (chains (hash key)).getLast? = some a then some (some t.heap.next)
      else if a = t.heap.next then some none else t.heap.field Node.next a := by
  have hlive : ∀ c, (chains (hash key)).getLast? = some c →
      ∃ v, (t.heap.alloc ⟨key, value, none⟩).2.get c = some v := by
    intro c hc
    have hmem := List.mem_of_getLast? hc
    obtain ⟨n, hn⟩ := h.buckets.live (h.length ▸ hash_lt key) hmem
    exact ⟨n, (Heap.get_alloc_of_ne _ _ (h.ne_next (hash_lt key) hmem)).trans hn⟩
  dsimp only [appended]
  rw [Heap.field_update_if_const (fun v : Node => (rfl : (v.set_next (some t.heap.next)).next = _)) hlive]
  split
  · rfl
  · split
    · next hnew => rw [hnew, Heap.field_alloc_self]
    · next hold => rw [Heap.field_alloc_of_ne _ _ _ hold]

/-- An insertion of a key that is not in the table puts its node behind the others
of its bucket. -/
theorem Represents.insert_absent (h : Represents t chains entries) {key : key_t} (value : Int32)
    (habsent : key ∉ entries.map Prod.fst) : insert key value t = some (appended t chains key value) := by
  rw [insert, appended]
  cases hlast : (chains (hash key)).getLast? with
  | none =>
    have hnil := List.getLast?_eq_none_iff.mp hlast
    obtain ⟨head, hhead, hchain⟩ := h.head_get key
    rw [hnil] at hchain
    obtain rfl : head = none := hchain.head_eq
    simp only [Option.bind_eq_bind, hhead, Option.bind_some, hnil]
    rfl
  | some last =>
    have hmem := List.mem_of_getLast? hlast
    obtain ⟨first, rest, hcells, hhead, hchain, hfuel⟩ := h.walk_start hmem ⟨key, value, none⟩
    have hother : ∀ a ∈ first :: rest,
        ∃ k, (t.heap.alloc ⟨key, value, none⟩).2.field Node.key a = some k ∧ k ≠ key := by
      intro a ha
      rw [← hcells] at ha
      obtain ⟨p, hp, hcontents⟩ := h.cell (hash_lt key) ha
      refine ⟨p.1, (Heap.field_alloc_of_ne _ _ _ (h.ne_next (hash_lt key) ha)).trans
        (field_key_of_contents hcontents).1, ?_⟩
      rintro rfl
      exact habsent (List.mem_map_of_mem (mem_bucket_iff.mp hp).1)
    rw [hcells] at hlast hmem
    obtain ⟨k, hk, hkey⟩ := hother last hmem
    obtain ⟨n, hn, rfl⟩ := Heap.field_eq_some hk
    have hwalk : insert_walk key value t.heap.next t.fuel (t.heap.alloc ⟨key, value, none⟩).2 first =
        some ((t.heap.alloc ⟨key, value, none⟩).2, last) :=
      insert_walk_miss hchain hlast (fun a ha _ => hother a ha) ⟨n, hn⟩ hfuel
    simp only [Option.bind_eq_bind, hhead, Option.bind_some, Heap.fst_alloc, hwalk, hn, if_neg hkey,
      Heap.modify_of_get hn, Heap.update_if, hcells, List.cons_ne_nil, if_false]

/-- The chain of the bucket now ends in the new node. -/
theorem Represents.chain_appended (h : Represents t chains entries) {key : key_t} (value : Int32) {first : Option Nat}
    (hget : (appended t chains key value).hashTable[hash key]? = some first) :
    Chain ((appended t chains key value).heap.field Node.next) first (chains (hash key) ++ [t.heap.next]) := by
  obtain ⟨head, hhead, hchain⟩ := h.head_get key
  have hself : t.heap.next ∉ chains (hash key) := fun hmem => h.ne_next (hash_lt key) hmem rfl
  cases hlast : (chains (hash key)).getLast? with
  | none =>
    have hnil := List.getLast?_eq_none_iff.mp hlast
    have hfirst : first = some t.heap.next := by
      have hlt : hash key < t.hashTable.length := h.length ▸ hash_lt key
      have hget : (t.hashTable.set (hash key) (some t.heap.next))[hash key]? = some first := by
        simpa only [appended, if_pos hnil] using hget
      rw [List.getElem?_set_self hlt] at hget
      exact (Option.some.inj hget).symm
    rw [hnil, hfirst]
    refine (chain_nil (t.heap.field Node.next)).push List.not_mem_nil ?_ fun a ha => absurd ha List.not_mem_nil
    rw [h.field_next_appended, hlast, if_neg (by simp), if_pos rfl]
  | some last =>
    have hne : chains (hash key) ≠ [] := List.ne_nil_of_mem (List.mem_of_getLast? hlast)
    have hfirst : first = head := by
      have hget : t.hashTable[hash key]? = some first := by
        simpa only [appended, if_neg hne] using hget
      exact Option.some.inj (hget.symm.trans hhead)
    have hlastne : last ≠ t.heap.next := h.ne_next (hash_lt key) (List.mem_of_getLast? hlast)
    rw [← List.append_nil (chains (hash key))] at hchain
    rw [hfirst]
    refine hchain.insert hlast (by rwa [List.append_nil]) ?_ ?_ ?_
    · rw [h.field_next_appended, hlast, if_neg fun heq => hlastne (Option.some.inj heq), if_pos rfl]
      rfl
    · rw [h.field_next_appended, if_pos hlast]
    · intro c hc hne
      rw [List.append_nil] at hc
      rw [h.field_next_appended, hlast, if_neg fun heq => hne (Option.some.inj heq).symm,
        if_neg (h.ne_next (hash_lt key) hc)]

theorem Represents.appended (h : Represents t chains entries) {key : key_t} (value : Int32)
    (habsent : key ∉ entries.map Prod.fst) :
    Represents (appended t chains key value)
      (fun b => if b = hash key then chains b ++ [t.heap.next] else chains b)
      (enter_call entries (.insert key value)) := by
  refine ⟨?_, ?_, ?_, nodup_enter_call h.distinct _⟩
  · dsimp only [hash_table.appended]
    split <;> simp [h.length]
  · intro b first hget
    by_cases hbucket : b = hash key
    · subst hbucket
      rw [if_pos rfl]
      exact h.chain_appended value hget
    · have hget : t.hashTable[b]? = some first := by
        dsimp only [hash_table.appended] at hget
        split at hget
        · rwa [List.getElem?_set_ne (Ne.symm hbucket)] at hget
        · exact hget
      have hb : b < TABLE_SIZE := h.length ▸ (List.getElem?_eq_some_iff.mp hget).1
      rw [if_neg hbucket]
      refine (h.chain b first hget).congr fun a ha => ?_
      rw [h.field_next_appended, if_neg, if_neg (h.ne_next hb ha)]
      intro hlast
      exact hbucket (h.buckets.eq_of_mem (h.length ▸ hb) (h.length ▸ hash_lt key) ha (List.mem_of_getLast? hlast))
  · intro b hb
    have hsame : (chains b).map ((hash_table.appended t chains key value).heap.field Node.contents) =
        (bucket entries b).map some := by
      rw [← h.contents b hb]
      refine List.map_congr_left fun a ha => ?_
      rw [field_contents_appended, if_neg (h.ne_next hb ha)]
    rw [enter_call, if_neg habsent, bucket, List.filter_append, List.map_append, ← bucket, ← hsame]
    by_cases hbucket : b = hash key
    · rw [if_pos hbucket, List.map_append, hbucket]
      simp [field_contents_appended]
    · simp [hbucket, Ne.symm hbucket]

end Insert

end csystems.hash_table
