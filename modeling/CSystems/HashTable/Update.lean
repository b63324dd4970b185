import CSystems.HashTable.Insert

open clib.heap clib.hash_table

namespace csystems.hash_table

/-- The table after the value of a cell was changed and the new node freed. -/
def replaced (t : table_t) (key : key_t) (value : Int32) (a : Nat) : table_t where
  hashTable := t.hashTable
  heap := ((t.heap.alloc ⟨key, value, none⟩).2.update a (.set_value value)).erase t.heap.next

section Fields

variable {t : table_t} {key : key_t} {value : Int32} {a c : Nat}

theorem field_next_replaced (hc : c ≠ t.heap.next) :
    (replaced t key value a).heap.field Node.next c = t.heap.field Node.next c := by
  dsimp only [replaced]
  rw [Heap.field_erase_of_ne _ _ hc,
    Heap.field_update_of_eq _ _ fun v : Node => (rfl : (v.set_value value).next = v.next),
    Heap.field_alloc_of_ne _ _ _ hc]

theorem field_contents_replaced (hc : c ≠ t.heap.next) :
    (replaced t key value a).heap.field Node.contents c =
      (t.heap.field Node.contents c).map fun p => if c = a then (p.1, value) else p := by
  dsimp only [replaced]
  rw [Heap.field_erase_of_ne _ _ hc, Heap.field, Heap.get_update]
  split
  · next hca =>
    subst hca
    rw [Heap.get_alloc_of_ne _ _ hc, Heap.field, Option.map_map, Option.map_map]
    rfl
  · rw [Heap.get_alloc_of_ne _ _ hc, ← Heap.field]
    simp

end Fields

section Update

variable {t : table_t} {chains : Nat → List Nat} {entries : List (key_t × Int32)} {key : key_t} {old : Int32}
  {a : Nat}

theorem Represents.replaced (h : Represents t chains entries) (ha : a ∈ chains (hash key))
    (hcontents : t.heap.field Node.contents a = some (key, old)) (hkey : key ∈ entries.map Prod.fst) (value : Int32) :
    Represents (replaced t key value a) chains (enter_call entries (.insert key value)) := by
  refine ⟨h.length, ?_, ?_, nodup_enter_call h.distinct _⟩
  · intro b head hget
    have hget : t.hashTable[b]? = some head := hget
    have hb : b < TABLE_SIZE := h.length ▸ (List.getElem?_eq_some_iff.mp hget).1
    exact (h.chain b head hget).congr fun c hc => field_next_replaced (h.ne_next hb hc)
  · intro b hb
    have hbucket : bucket (enter_call entries (.insert key value)) b =
        (bucket entries b).map fun p => if p.1 = key then (key, value) else p := by
      rw [enter_call, if_pos hkey, bucket, List.filter_map, bucket]
      congr 1
      refine List.filter_congr fun p _ => ?_
      by_cases hp : p.1 = key <;> simp [hp]
    rw [hbucket, List.map_map]
    have hmap := congrArg (List.map (Option.map fun p => if p.1 = key then (key, value) else p)) (h.contents b hb)
    rw [List.map_map, List.map_map] at hmap
    refine Eq.trans (List.map_congr_left fun c hc => ?_) hmap
    obtain ⟨p, hp, hpc⟩ := h.cell hb hc
    rw [field_contents_replaced (h.ne_next hb hc), Function.comp_apply, hpc, Option.map_some, Option.map_some]
    simp only [h.eq_cell_iff ha hcontents hb hc hpc]
    split
    · next hp => rw [hp]
    · rfl

/-- Every other cell of the bucket has another key. -/
theorem Represents.other_key (h : Represents t chains entries) (ha : a ∈ chains (hash key))
    (hcontents : t.heap.field Node.contents a = some (key, old)) (value : Int32) :
    ∀ c ∈ chains (hash key), c ≠ a →
      ∃ k, (t.heap.alloc ⟨key, value, none⟩).2.field Node.key c = some k ∧ k ≠ key := by
  intro c hc hne
  obtain ⟨p, hp, hpc⟩ := h.cell (hash_lt key) hc
  refine ⟨p.1, ?_, fun hkey => hne ((h.eq_cell_iff ha hcontents (hash_lt key) hc hpc).mpr hkey)⟩
  rw [Heap.field_alloc_of_ne _ _ _ (h.ne_next (hash_lt key) hc), (field_key_of_contents hpc).1]

/-- An insertion of the key of the last node of a bucket changes its value. -/
theorem Represents.insert_last (h : Represents t chains entries) (hlast : (chains (hash key)).getLast? = some a)
    (hcontents : t.heap.field Node.contents a = some (key, old)) (value : Int32) :
    insert key value t = some (hash_table.replaced t key value a) := by
  have ha := List.mem_of_getLast? hlast
  have hne : a ≠ t.heap.next := h.ne_next (hash_lt key) ha
  have hother := h.other_key ha hcontents value
  have hkey : (t.heap.alloc ⟨key, value, none⟩).2.field Node.key a = some key := by
    rw [Heap.field_alloc_of_ne _ _ _ hne, (field_key_of_contents hcontents).1]
  obtain ⟨n, hn, hnkey⟩ := Heap.field_eq_some hkey
  obtain ⟨first, rest, hcells, hhead, hchain, hfuel⟩ := h.walk_start ha ⟨key, value, none⟩
  rw [hcells] at hlast hother
  have hwalk : insert_walk key value t.heap.next t.fuel (t.heap.alloc ⟨key, value, none⟩).2 first =
      some ((t.heap.alloc ⟨key, value, none⟩).2, a) := insert_walk_miss hchain hlast hother ⟨n, hn⟩ hfuel
  have hfree : ((t.heap.alloc ⟨key, value, none⟩).2.update a (.set_value value)).free t.heap.next =
      some (((t.heap.alloc ⟨key, value, none⟩).2.update a (.set_value value)).erase t.heap.next) :=
    Heap.free_of_get ((Heap.get_update_of_ne _ (Ne.symm hne) _).trans (Heap.get_alloc_self _ _))
  rw [insert, hash_table.replaced]
  simp only [Option.bind_eq_bind, hhead, Option.bind_some, Heap.fst_alloc, hwalk, hn, if_pos hnkey,
    Heap.modify_of_get hn, hfree]

/-- An insertion of the key of an earlier node links the freed node. -/
theorem Represents.insert_inner (h : Represents t chains entries) {last : Nat} (ha : a ∈ chains (hash key))
    (hlast : (chains (hash key)).getLast? = some last) (hne : a ≠ last)
    (hcontents : t.heap.field Node.contents a = some (key, old)) (value : Int32) :
    insert key value t = some { hashTable := t.hashTable
                                heap := (hash_table.replaced t key value a).heap.update last
                                  (.set_next (some t.heap.next)) } := by
  have hmemlast := List.mem_of_getLast? hlast
  have hother := h.other_key ha hcontents value
  have hkey : (t.heap.alloc ⟨key, value, none⟩).2.field Node.key a = some key := by
    rw [Heap.field_alloc_of_ne _ _ _ (h.ne_next (hash_lt key) ha), (field_key_of_contents hcontents).1]
  obtain ⟨n, hn, hnkey⟩ : ∃ n, (hash_table.replaced t key value a).heap.get last = some n ∧ n.key ≠ key := by
    obtain ⟨k, hk, hkne⟩ := hother last hmemlast (Ne.symm hne)
    obtain ⟨n, hn, rfl⟩ := Heap.field_eq_some hk
    refine ⟨n, ?_, hkne⟩
    dsimp only [hash_table.replaced]
    rw [Heap.get_erase_of_ne _ (h.ne_next (hash_lt key) hmemlast), Heap.get_update_of_ne _ (Ne.symm hne), hn]
  obtain ⟨first, rest, hcells, hhead, hchain, hfuel⟩ := h.walk_start ha ⟨key, value, none⟩
  have hself : t.heap.next ∉ chains (hash key) := fun hmem => h.ne_next (hash_lt key) hmem rfl
  rw [hcells] at hlast hother hself ha
  have hwalk : insert_walk key value t.heap.next t.fuel (t.heap.alloc ⟨key, value, none⟩).2 first =
      some ((hash_table.replaced t key value a).heap, last) :=
    insert_walk_hit hchain hlast ha hne hkey hother ⟨_, Heap.get_alloc_self _ _⟩ hself hfuel
  rw [insert]
  simp only [Option.bind_eq_bind, hhead, Option.bind_some, Heap.fst_alloc, hwalk, hn, if_neg hnkey,
    Heap.modify_of_get hn]

/-- After that no chain from the head of the bucket leads through live nodes to
its end. -/
theorem Represents.not_linked (h : Represents t chains entries) {last : Nat}
    (hlast : (chains (hash key)).getLast? = some last) {value : Int32} {head : Option Nat}
    (hhead : t.hashTable[hash key]? = some head) (xs : List Nat) :
    ¬ Chain (((hash_table.replaced t key value a).heap.update last (.set_next (some t.heap.next))).field Node.next)
      head xs := by
  intro hchain
  have hnew : ∀ c ∈ chains (hash key), c ≠ t.heap.next := fun c hc => h.ne_next (hash_lt key) hc
  have hmemlast := List.mem_of_getLast? hlast
  have hlive : ∃ n, (hash_table.replaced t key value a).heap.get last = some n := by
    obtain ⟨n, hn⟩ := h.buckets.live (h.length ▸ hash_lt key) hmemlast
    have hlink : (hash_table.replaced t key value a).heap.field Node.next last = some n.next := by
      rw [field_next_replaced (hnew last hmemlast), Heap.field, hn, Option.map_some]
    obtain ⟨m, hm, -⟩ := Heap.field_eq_some hlink
    exact ⟨m, hm⟩
  obtain ⟨n, hn⟩ := hlive
  have hstore (c : Nat) := Heap.field_update_const
    (fun v : Node => (rfl : (v.set_next (some t.heap.next)).next = some t.heap.next)) hn c
  have hmem : last ∈ xs := by
    refine (h.chain _ _ hhead).mem_last hchain hlast fun c hc hne => ?_
    rw [hstore c, if_neg hne, field_next_replaced (hnew c hc)]
  have hsucc : succ xs last = some t.heap.next := by
    have hlink := hchain.next_eq last hmem
    rw [hstore last, if_pos rfl] at hlink
    exact (Option.some.inj hlink).symm
  have hdangling := hchain.next_eq t.heap.next (mem_of_succ_eq_some hsucc)
  rw [hstore, if_neg (Ne.symm (hnew last hmemlast))] at hdangling
  simp [hash_table.replaced, Heap.field, Heap.get_erase] at hdangling

end Update

end csystems.hash_table
