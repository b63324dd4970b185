import CSystems.Lib.Path
import CSystems.BlockCache.Insert

open clib.string clib.heap

namespace csystems.block_cache

/-- The cache holds these entries, most recently used first. -/
def Holds (cache : cache_t) (entries : List cached_t) : Prop :=
  ∃ lru chains, Represents cache lru chains ∧ recency cache.heap lru = entries

/-- The live entries, read along the recency list from `lru_head`. -/
def live_entries (cache : cache_t) : List cached_t :=
  recency cache.heap (walk (cache.heap.field cache_entry_t.lru_next) cache.fuel cache.lru_head)

theorem Linked.live_entries_eq {cache : cache_t} {lru : List Nat} {chains : Nat → List Nat}
    (h : Linked cache lru chains) : live_entries cache = recency cache.heap lru := by
  rw [live_entries, h.list.forwards.path.walk_eq h.length_lt_fuel]

theorem Holds.live_entries_eq {cache : cache_t} {entries : List cached_t} (h : Holds cache entries) :
    live_entries cache = entries := by
  obtain ⟨lru, chains, h, rfl⟩ := h
  exact h.toLinked.live_entries_eq

/-- The entry a lookup of the key finds. -/
def find_entry (key : List UInt8) (entries : List cached_t) : Option cached_t :=
  entries.find? fun e => e.key == c_str key

/-- The entries after a lookup of the key. -/
def touch_entry (key : List UInt8) (entries : List cached_t) : List cached_t :=
  match find_entry key entries with
  | none => entries
  | some e => e :: entries.eraseP fun e => e.key == c_str key

/-- A fresh cache is empty. -/
theorem create_cache_holds {max_size bucket_count : Nat} (hmax : max_size < SIZE_MOD) (hbuckets : 0 < bucket_count) :
    Holds (create_cache max_size bucket_count) [] :=
  ⟨[], fun _ => [], create_cache_represents hmax hbuckets, rfl⟩

private theorem find_recency (heap : Heap cache_entry_t) (lru : List Nat) (key : List UInt8) :
    find_entry key (recency heap lru) =
      (lru.find? (has_key heap key)).bind (heap.field cache_entry_t.contents) :=
  List.find?_filterMap

private theorem recency_cons {heap : Heap cache_entry_t} {a : Nat} {e : cached_t}
    (hfield : heap.field cache_entry_t.contents a = some e) (lru : List Nat) :
    recency heap (a :: lru) = e :: recency heap lru := List.filterMap_cons_some hfield

private theorem recency_congr {heap heap' : Heap cache_entry_t} {lru : List Nat}
    (hsame : ∀ a ∈ lru, heap'.field cache_entry_t.contents a = heap.field cache_entry_t.contents a) :
    recency heap' lru = recency heap lru :=
  List.filterMap_congr hsame

private theorem recency_erase {heap : Heap cache_entry_t} {lru : List Nat} {key : List UInt8} {entry : Nat}
    (hlive : ∀ a ∈ lru, ∃ e, heap.get a = some e) (hfind : lru.find? (has_key heap key) = some entry) :
    recency heap (lru.erase entry) = (recency heap lru).eraseP fun e => e.key == c_str key := by
  induction lru with
  | nil => cases hfind
  | cons a lru ih =>
    obtain ⟨e, hget⟩ := hlive a (by simp)
    have hcontents : heap.field cache_entry_t.contents a = some e.contents := by simp [Heap.field, hget]
    have hkey : has_key heap key a = (e.contents.key == c_str key) := by rw [has_key, hcontents]; rfl
    rw [recency_cons hcontents]
    cases hp : has_key heap key a with
    | true =>
      rw [List.find?_cons_of_pos hp] at hfind
      cases hfind
      rw [List.erase_cons_head, List.eraseP_cons_of_pos (by rw [← hkey, hp])]
    | false =>
      rw [List.find?_cons_of_neg (by simp [hp])] at hfind
      have hne : a ≠ entry := by
        rintro rfl
        rw [List.find?_some hfind] at hp
        cases hp
      rw [List.erase_cons_tail (by simpa using hne), List.eraseP_cons_of_neg (by rw [← hkey, hp]; simp),
        recency_cons hcontents, ih (fun b hb => hlive b (by simp [hb])) hfind]

/-- `cache_get` finds the most recently used entry of the key and touches it. -/
theorem cache_get_spec {cache : cache_t} {entries : List cached_t} (h : Holds cache entries) (now : Int64)
    (key : List UInt8) :
    ∃ cache', cache_get now cache key = some (cache', (find_entry key entries).map cached_t.data) ∧
      Holds cache' (touch_entry key entries) ∧ cache'.max_size = cache.max_size := by
  obtain ⟨lru, chains, h, rfl⟩ := h
  obtain ⟨cache', hrun, h', hcontents, -, hmax⟩ := h.get now key
  rw [touch_entry, find_recency]
  cases hfind : lru.find? (has_key cache.heap key) with
  | none =>
    rw [hfind] at hrun h'
    exact ⟨cache', hrun, ⟨lru, chains, h', by rw [recency, hcontents]; rfl⟩, hmax⟩
  | some entry =>
    rw [hfind] at hrun h'
    obtain ⟨e, hget⟩ := h.toLinked.live (List.mem_of_find?_eq_some hfind)
    have hfield : cache.heap.field cache_entry_t.contents entry = some e.contents := by simp [Heap.field, hget]
    simp only [Option.bind_some, hfield]
    refine ⟨cache', ?_, ⟨entry :: lru.erase entry, chains, h', ?_⟩, hmax⟩
    · rw [hrun, Option.bind_some, Heap.field, hget]
      rfl
    · rw [recency_cons (by rw [hcontents, hfield])]
      congr 1
      rw [recency_congr fun a _ => congrFun hcontents a]
      exact recency_erase (fun a ha => h.toLinked.live ha) hfind

/-- `cache_put` drops least recently used entries as needed and puts the new
one in front, next to any older entry of the same key. -/
theorem cache_put_spec {cache : cache_t} {entries : List cached_t} (h : Holds cache entries) (now : Int64)
    (key data : List UInt8) {size : Nat} (hsize : size ≤ cache.max_size)
    (hwrap : cache.max_size + size < SIZE_MOD) :
    ∃ cache' kept, cache_put now cache key data size = some cache' ∧ kept <+: entries ∧
      Holds cache' ({ key := c_str key, data := data.take size, size := size } :: kept) ∧
      cache'.max_size = cache.max_size := by
  obtain ⟨lru, chains, h, rfl⟩ := h
  obtain ⟨cache', kept, chains', hrun, h', hkeep, -, hnew, hcontents, -, hmax⟩ := h.put now key data hsize hwrap
  refine ⟨cache', recency cache.heap kept, hrun, hkeep.filterMap _, ⟨_, _, h', ?_⟩, hmax⟩
  rw [recency_cons hnew]
  congr 1
  exact recency_congr hcontents

private theorem recency_take {heap : Heap cache_entry_t} {lru : List Nat}
    (hlive : ∀ a ∈ lru, ∃ e, heap.get a = some e) (n : Nat) :
    recency heap (lru.take n) = (recency heap lru).take n := by
  induction lru generalizing n with
  | nil => simp [recency]
  | cons a lru ih =>
    obtain ⟨e, hget⟩ := hlive a (by simp)
    have hcontents : heap.field cache_entry_t.contents a = some e.contents := by simp [Heap.field, hget]
    cases n with
    | zero => rfl
    | succ n =>
      rw [List.take_succ_cons, recency_cons hcontents, recency_cons hcontents, List.take_succ_cons,
        ih (fun b hb => hlive b (by simp [hb]))]

/-- In a cache of entries of one size, `cache_put` keeps as many of them as there
is space for next to the new one. -/
theorem cache_put_uniform {cache : cache_t} {entries : List cached_t} (h : Holds cache entries) {size n : Nat}
    (hsizes : ∀ e ∈ entries, e.size = size) (hpos : 0 < size) (hmax : cache.max_size = (n + 1) * size)
    (hwrap : cache.max_size + size < SIZE_MOD) (now : Int64) (key data : List UInt8) :
    ∃ cache', cache_put now cache key data size = some cache' ∧
      Holds cache' ({ key := c_str key, data := data.take size, size := size } :: entries.take n) ∧
      cache'.max_size = cache.max_size := by
  obtain ⟨lru, chains, h, rfl⟩ := h
  have hfits : size ≤ cache.max_size := by
    rw [hmax]
    exact Nat.le_mul_of_pos_left size (Nat.succ_pos n)
  obtain ⟨cache', kept, chains', hrun, h', hkeep, hlongest, hnew, hcontents, -, hmax'⟩ :=
    h.put now key data hfits hwrap
  have hsize : ∀ a ∈ lru, entry_size cache.heap a = size := by
    intro a ha
    obtain ⟨e, hget⟩ := h.toLinked.live ha
    have hfield : cache.heap.field cache_entry_t.contents a = some e.contents := by rw [Heap.field, hget]; rfl
    rw [entry_size, hfield]
    exact hsizes _ (List.mem_filterMap.mpr ⟨a, ha, hfield⟩)
  have hsum {front : List Nat} (hfront : front <+: lru) :
      (front.map (entry_size cache.heap)).sum = front.length * size := by
    rw [List.map_congr_left fun a ha => hsize a (hfront.subset ha), List.map_const', List.sum_replicate_nat]
  have hnew_size : entry_size cache'.heap cache.heap.next = size := by rw [entry_size, hnew]; rfl
  have hlength : kept.length ≤ n := by
    have htotal := h'.size_eq
    rw [List.map_cons, List.sum_cons, hnew_size,
      List.map_congr_left fun a ha => entry_size_congr (hcontents a ha), hsum hkeep] at htotal
    have hle := h'.size_le
    rw [htotal, hmax', hmax, Nat.add_comm, ← Nat.succ_mul] at hle
    exact Nat.le_of_succ_le_succ (Nat.le_of_mul_le_mul_right hle hpos)
  have hfirst : lru.take n <+: kept := by
    apply hlongest _ (List.take_prefix n lru)
    rw [hsum (List.take_prefix n lru), hmax, Nat.succ_mul]
    have hle := Nat.mul_le_mul_right size (List.length_take_le n lru)
    omega
  have hkept : kept = lru.take n := by
    have hwithin : kept <+: lru.take n := List.prefix_take_iff.mpr ⟨hkeep, hlength⟩
    exact hwithin.eq_of_length_le hfirst.length_le
  refine ⟨cache', hrun, ⟨_, _, h', ?_⟩, hmax'⟩
  rw [recency_cons hnew]
  congr 1
  rw [hkept] at hcontents ⊢
  exact (recency_congr hcontents).trans (recency_take (fun a ha => h.toLinked.live ha) n)

section Find

variable {entries : List cached_t} {key key' : List UInt8}

/-- A lookup does not change what any key finds. -/
@[simp] theorem find_entry_touch_entry : find_entry key' (touch_entry key entries) = find_entry key' entries := by
  unfold touch_entry
  cases hfind : find_entry key entries with
  | none => rfl
  | some e =>
    have hkey : e.key = c_str key := by simpa using List.find?_some hfind
    dsimp only
    unfold find_entry at hfind ⊢
    by_cases hsame : c_str key = c_str key'
    · rw [List.find?_cons_of_pos (by simp [hkey, hsame]), ← hsame, hfind]
    · rw [List.find?_cons_of_neg (by simp [hkey, hsame])]
      induction entries with
      | nil => rfl
      | cons a entries ih =>
        by_cases ha : a.key = c_str key
        · rw [List.eraseP_cons_of_pos (by simp [ha]), List.find?_cons_of_neg (by simp [ha, hsame])]
        · rw [List.find?_cons_of_neg (by simp [ha])] at hfind
          rw [List.eraseP_cons_of_neg (by simp [ha]), List.find?_cons, List.find?_cons, ih hfind]

/-- What is found among the entries that were kept was found before. -/
theorem find_entry_of_kept {kept : List cached_t} (hkeep : kept <+: entries) {e : cached_t}
    (hfind : find_entry key kept = some e) : find_entry key entries = some e :=
  List.IsPrefix.find?_eq_some hkeep hfind

end Find

end csystems.block_cache
