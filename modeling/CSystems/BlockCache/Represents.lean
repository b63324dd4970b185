import Mathlib.Algebra.Order.BigOperators.Group.List
import Mathlib.Algebra.Order.Group.Nat
import CSystems.Lib.DoubleLinks
import CSystems.BlockCache.Cache

open clib.string clib.heap

namespace csystems.block_cache

/-- The contents of an entry, without its links. -/
structure cached_t where
  key : List UInt8
  data : List UInt8
  size : Nat
  deriving DecidableEq, Repr

def cache_entry_t.contents (e : cache_entry_t) : cached_t := { key := e.key, data := e.data, size := e.size }

/-- The links of the recency list. -/
def lru_links : Links cache_entry_t where
  next := cache_entry_t.lru_next
  prev := cache_entry_t.lru_prev
  set_next := cache_entry_t.set_lru_next
  set_prev := cache_entry_t.set_lru_prev
  next_set_next _ _ := rfl
  prev_set_prev _ _ := rfl
  next_set_prev _ _ := rfl
  prev_set_next _ _ := rfl
  set_comm _ _ _ := rfl

theorem next_apart : lru_links.Apart cache_entry_t.next := fun _ _ => ⟨rfl, rfl⟩

theorem contents_apart : lru_links.Apart cache_entry_t.contents := fun _ _ => ⟨rfl, rfl⟩

section Fields

variable (heap : Heap cache_entry_t)

theorem lru_next_update_if {p : Option Nat} (hlive : ∀ a, p = some a → ∃ v, heap.get a = some v)
    (value : Option Nat) (b : Nat) :
    (heap.update_if p (.set_lru_next value)).field cache_entry_t.lru_next b =
      if p = some b then some value else heap.field cache_entry_t.lru_next b :=
  @Links.next_store_next _ lru_links heap p hlive value b

theorem lru_prev_update_if {p : Option Nat} (hlive : ∀ a, p = some a → ∃ v, heap.get a = some v)
    (value : Option Nat) (b : Nat) :
    (heap.update_if p (.set_lru_prev value)).field cache_entry_t.lru_prev b =
      if p = some b then some value else heap.field cache_entry_t.lru_prev b :=
  @Links.prev_store_prev _ lru_links heap p hlive value b

@[simp] theorem lru_prev_update_if_set_lru_next (p value : Option Nat) :
    (heap.update_if p (.set_lru_next value)).field cache_entry_t.lru_prev = heap.field cache_entry_t.lru_prev :=
  @Links.prev_store_next _ lru_links heap p value

@[simp] theorem lru_next_update_if_set_lru_prev (p value : Option Nat) :
    (heap.update_if p (.set_lru_prev value)).field cache_entry_t.lru_next = heap.field cache_entry_t.lru_next :=
  @Links.next_store_prev _ lru_links heap p value

@[simp] theorem next_update_if_set_lru_next (p value : Option Nat) :
    (heap.update_if p (.set_lru_next value)).field cache_entry_t.next = heap.field cache_entry_t.next :=
  (Links.sameApart_store_next heap p value).field next_apart

@[simp] theorem next_update_if_set_lru_prev (p value : Option Nat) :
    (heap.update_if p (.set_lru_prev value)).field cache_entry_t.next = heap.field cache_entry_t.next :=
  (Links.sameApart_store_prev heap p value).field next_apart

@[simp] theorem contents_update_if_set_lru_next (p value : Option Nat) :
    (heap.update_if p (.set_lru_next value)).field cache_entry_t.contents = heap.field cache_entry_t.contents :=
  (Links.sameApart_store_next heap p value).field contents_apart

@[simp] theorem contents_update_if_set_lru_prev (p value : Option Nat) :
    (heap.update_if p (.set_lru_prev value)).field cache_entry_t.contents = heap.field cache_entry_t.contents :=
  (Links.sameApart_store_prev heap p value).field contents_apart

end Fields

/-- The recency list of a cache, most recently used entry first. -/
def recency (heap : Heap cache_entry_t) (lru : List Nat) : List cached_t :=
  lru.filterMap (heap.field cache_entry_t.contents)

/-- The entry is stored under the key. -/
def has_key (heap : Heap cache_entry_t) (key : List UInt8) (a : Nat) : Bool :=
  (heap.field cache_entry_t.contents a).any fun e => e.key == c_str key

def entry_size (heap : Heap cache_entry_t) (a : Nat) : Nat :=
  ((heap.field cache_entry_t.contents a).map cached_t.size).getD 0

/-- The addresses `lru` are the cache's entries in recency order, and `chains`
are its bucket chains, whatever the size fields hold. Entries of one key stand in the
same order in both. -/
structure Linked (cache : cache_t) (lru : List Nat) (chains : Nat → List Nat) : Prop where
  bucket_pos : 0 < cache.bucket_count
  table : cache.hash_table.length = cache.bucket_count
  list : DList (cache.heap.field cache_entry_t.lru_next) (cache.heap.field cache_entry_t.lru_prev)
    cache.lru_head cache.lru_tail lru
  chain : ∀ b head, cache.hash_table[b]? = some head → Chain (cache.heap.field cache_entry_t.next) head (chains b)
  keyed : ∀ a ∈ lru, ∃ key, has_key cache.heap key a = true
  bucket : ∀ b < cache.bucket_count, ∀ a ∈ chains b,
    ∃ key, has_key cache.heap key a = true ∧ hash_key key cache.bucket_count = b
  order : ∀ key, (chains (hash_key key cache.bucket_count)).filter (has_key cache.heap key) =
    lru.filter (has_key cache.heap key)

/-- The size field holds the bytes of the entries, which are within the bound. -/
structure Represents (cache : cache_t) (lru : List Nat) (chains : Nat → List Nat) : Prop
    extends Linked cache lru chains where
  size_eq : cache.current_size = (lru.map (entry_size cache.heap)).sum
  size_le : cache.current_size ≤ cache.max_size
  max_lt : cache.max_size < SIZE_MOD

/-- The size field counts the bytes of the entries as a `size_t`, which may wrap
around. -/
structure Accounted (cache : cache_t) (lru : List Nat) (chains : Nat → List Nat) : Prop
    extends Linked cache lru chains where
  size_eq : cache.current_size = (lru.map (entry_size cache.heap)).sum % SIZE_MOD
  entry_lt : ∀ a ∈ lru, entry_size cache.heap a < SIZE_MOD

theorem Represents.accounted {cache : cache_t} {lru : List Nat} {chains : Nat → List Nat}
    (h : Represents cache lru chains) : Accounted cache lru chains := by
  have hlt : (lru.map (entry_size cache.heap)).sum < SIZE_MOD := by
    rw [← h.size_eq]
    exact Nat.lt_of_le_of_lt h.size_le h.max_lt
  refine ⟨h.toLinked, ?_, ?_⟩
  · rw [Nat.mod_eq_of_lt hlt, h.size_eq]
  · intro a ha
    exact Nat.lt_of_le_of_lt (List.single_le_sum (fun _ _ => Nat.zero_le _) _ (List.mem_map_of_mem ha)) hlt

/-- A fresh cache is empty. -/
theorem create_cache_linked {max_size bucket_count : Nat} (hbuckets : 0 < bucket_count) :
    Linked (create_cache max_size bucket_count) [] fun _ => [] := by
  refine ⟨hbuckets, ?_, ?_, ?_, ?_, ?_, ?_⟩
  · simp [create_cache]
  · exact ⟨List.nodup_nil, rfl, rfl, by simp, by simp⟩
  · intro b head hget
    obtain ⟨-, rfl⟩ := List.mem_replicate.mp (List.mem_of_getElem? hget)
    exact chain_nil _
  · simp
  · simp
  · simp

theorem create_cache_represents {max_size bucket_count : Nat} (hmax : max_size < SIZE_MOD)
    (hbuckets : 0 < bucket_count) : Represents (create_cache max_size bucket_count) [] fun _ => [] :=
  ⟨create_cache_linked hbuckets, rfl, Nat.zero_le _, hmax⟩

theorem create_cache_accounted {max_size bucket_count : Nat} (hbuckets : 0 < bucket_count) :
    Accounted (create_cache max_size bucket_count) [] fun _ => [] :=
  ⟨create_cache_linked hbuckets, rfl, by simp⟩

theorem has_key_congr {heap heap' : Heap cache_entry_t} {a : Nat}
    (hsame : heap'.field cache_entry_t.contents a = heap.field cache_entry_t.contents a) (key : List UInt8) :
    has_key heap' key a = has_key heap key a := by
  unfold has_key
  rw [hsame]

theorem entry_size_congr {heap heap' : Heap cache_entry_t} {a : Nat}
    (hsame : heap'.field cache_entry_t.contents a = heap.field cache_entry_t.contents a) :
    entry_size heap' a = entry_size heap a := by
  unfold entry_size
  rw [hsame]

theorem hash_key_eq_of_c_str_eq {key key' : List UInt8} (h : c_str key = c_str key') (bucket_count : Nat) :
    hash_key key bucket_count = hash_key key' bucket_count := by
  unfold hash_key
  rw [h]

theorem has_key_iff {heap : Heap cache_entry_t} {key : List UInt8} {a : Nat} :
    has_key heap key a = true ↔ ∃ e, heap.get a = some e ∧ e.key = c_str key := by
  cases hget : heap.get a with
  | none => simp [has_key, Heap.field, hget]
  | some e => simp [has_key, Heap.field, hget, cache_entry_t.contents]

/-- The key of an entry determines its bucket. -/
theorem has_key_hash {heap : Heap cache_entry_t} {key key' : List UInt8} {a : Nat}
    (h : has_key heap key a = true) (h' : has_key heap key' a = true) (bucket_count : Nat) :
    hash_key key bucket_count = hash_key key' bucket_count := by
  obtain ⟨e, hget, hkey⟩ := has_key_iff.mp h
  obtain ⟨e', hget', hkey'⟩ := has_key_iff.mp h'
  rw [hget] at hget'
  cases hget'
  exact hash_key_eq_of_c_str_eq (hkey.symm.trans hkey') bucket_count

theorem lru_live {heap : Heap cache_entry_t} {head tail : Option Nat} {lru : List Nat}
    (h : DList (heap.field cache_entry_t.lru_next) (heap.field cache_entry_t.lru_prev) head tail lru)
    {a : Nat} (ha : a ∈ lru) :
    ∃ e, heap.get a = some e ∧ e.lru_next = succ lru a ∧ e.lru_prev = pred lru a := by
  obtain ⟨e, hget, hnext⟩ := Heap.field_eq_some (h.next_eq a ha)
  have hprev := h.prev_eq a ha
  rw [Heap.field, hget] at hprev
  exact ⟨e, hget, hnext, Option.some.inj hprev⟩

theorem erase_cons_eq_of_head {lru : List Nat} {a : Nat} (hhead : lru.head? = some a) :
    a :: lru.erase a = lru := by
  cases lru with
  | nil => cases hhead
  | cons x xs =>
    obtain rfl : x = a := by simpa using hhead
    simp

/-- Moving an entry to the front changes the recency list only. -/
theorem move_to_front_spec {cache : cache_t} {lru : List Nat}
    (h : DList (cache.heap.field cache_entry_t.lru_next) (cache.heap.field cache_entry_t.lru_prev)
      cache.lru_head cache.lru_tail lru) {entry : Nat} (hentry : entry ∈ lru) :
    ∃ heap head tail,
      move_to_front cache entry = some { cache with heap := heap, lru_head := head, lru_tail := tail } ∧
      DList (heap.field cache_entry_t.lru_next) (heap.field cache_entry_t.lru_prev) head tail
        (entry :: lru.erase entry) ∧
      heap.field cache_entry_t.next = cache.heap.field cache_entry_t.next ∧
      heap.field cache_entry_t.contents = cache.heap.field cache_entry_t.contents := by
  by_cases hhead : some entry = cache.lru_head
  · refine ⟨cache.heap, cache.lru_head, cache.lru_tail, ?_, ?_, rfl, rfl⟩
    · simp [move_to_front, hhead]
    · rw [erase_cons_eq_of_head (by rw [← h.head_eq, hhead])]
      exact h
  · obtain ⟨e, hget, hnext, hprev⟩ := lru_live h hentry
    have hlive (b : Nat) (hb : b ∈ lru) : ∃ v, cache.heap.get b = some v := by
      obtain ⟨v, hv, -⟩ := lru_live h hb
      exact ⟨v, hv⟩
    obtain ⟨h₁, h₂, hrun₁, hrun₂, hsame₁, hsame₂, hunlinked⟩ :=
      Links.unlinked_of_live lru_links (fun b hb => hlive b (mem_of_pred_eq_some hb))
        (fun b hb => hlive b (mem_of_succ_eq_some hb))
    obtain ⟨h₃, h₄, h₅, hrun₃, hrun₄, hrun₅, hpushed⟩ :=
      Links.pushed_of_live lru_links (hunlinked.same.live (hlive entry hentry))
        (fun b hb => hunlinked.same.live (hlive b (h.back.mem_of_head hb)))
    have hrun₁ : cache.heap.modify_if (pred lru entry) (.set_lru_next (succ lru entry)) = some h₁ := hrun₁
    have hrun₂ : h₁.modify_if (succ lru entry) (.set_lru_prev (pred lru entry)) = some h₂ := hrun₂
    have hrun₃ : h₂.modify entry (.set_lru_prev none) = some h₃ := hrun₃
    have hrun₄ : h₃.modify entry (.set_lru_next cache.lru_head) = some h₄ := hrun₄
    have hrun₅ : h₄.modify_if cache.lru_head (.set_lru_prev (some entry)) = some h₅ := hrun₅
    have hget₁ : h₁.get entry = some e := (hsame₁ entry (pred_ne_self h.nodup entry)).trans hget
    have hget₂ : h₂.get entry = some e :=
      (hsame₂ entry (pred_ne_self h.nodup entry) (succ_ne_self h.nodup entry)).trans hget
    have hrest := hunlinked.dlist h
    rw [if_neg (Ne.symm hhead)] at hrest
    have hsame := hunlinked.same.trans hpushed.same
    refine ⟨h₅, some entry, _, ?_, hpushed.dlist hrest h.nodup.not_mem_erase, hsame.field next_apart,
      hsame.field contents_apart⟩
    rw [move_to_front, if_neg hhead]
    simp only [Option.bind_eq_bind, hget, Option.bind_some, hprev, hnext, hrun₁, hget₁, hrun₂, hget₂, hrun₃, hrun₄,
      hrun₅]
    simp only [eq_comm]

end csystems.block_cache
