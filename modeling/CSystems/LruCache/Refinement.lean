import Mathlib.Data.Finset.Card
import CSystems.LruCache.Operations

open clib clib.recency clib.run

namespace csystems.lru_cache

/-- A call on the abstract cache, with what it returns. -/
def spec_call (capacity : Nat) (cache : List (Int32 × Int32)) : call_t → List (Int32 × Int32) × Option Int32
  | .get key => ((recency.get cache key).2, some (((recency.get cache key).1).getD (-1)))
  | .put key value => (put capacity cache key value, none)

def spec_run (capacity : Nat) (cache : List (Int32 × Int32)) (calls : List call_t) :
    List (Int32 × Int32) × List (Option Int32) := respond (spec_call capacity) cache calls

/-- The abstract cache after the calls. -/
def cached (capacity : Nat) (calls : List call_t) : List (Int32 × Int32) := (spec_run capacity [] calls).1

def call_t.key : call_t → Int32
  | .get key => key
  | .put key _ => key

def call_t.put_key : call_t → Option Int32
  | .get _ => none
  | .put key _ => some key

/-- The distinct keys of the `lRUCachePut` calls. -/
def put_keys (calls : List call_t) : Finset Int32 := (calls.filterMap call_t.put_key).toFinset

section Abstract

variable {capacity : Nat}

theorem cached_append (calls : List call_t) (c : call_t) :
    cached capacity (calls ++ [c]) = (spec_call capacity (cached capacity calls) c).1 := by
  rw [cached, spec_run, respond_append]
  rfl

theorem keyed_spec_call {cache : List (Int32 × Int32)} (h : Keyed cache) (c : call_t) :
    Keyed (spec_call capacity cache c).1 := by
  cases c with
  | get key => exact h.get key
  | put key value => exact h.put capacity key value

theorem keyed_cached (calls : List call_t) : Keyed (cached capacity calls) := by
  induction calls using List.reverseRecOn with
  | nil => exact keyed_nil
  | append_singleton calls c ih =>
    rw [cached_append]
    exact keyed_spec_call ih c

theorem length_cached_le (calls : List call_t) : (cached capacity calls).length ≤ capacity := by
  induction calls using List.reverseRecOn with
  | nil => exact Nat.zero_le _
  | append_singleton calls c ih =>
    rw [cached_append]
    cases c with
    | get key => exact (length_get (keyed_cached calls) key).le.trans ih
    | put key value => exact length_put_le (keyed_cached calls) ih key value

@[simp] theorem put_keys_nil : put_keys [] = ∅ := rfl

theorem put_keys_append_get (calls : List call_t) (key : Int32) : put_keys (calls ++ [.get key]) = put_keys calls := by
  ext k
  simp [put_keys, call_t.put_key]

theorem put_keys_append_put (calls : List call_t) (key value : Int32) :
    put_keys (calls ++ [.put key value]) = insert key (put_keys calls) := by
  ext k
  simp [put_keys, call_t.put_key]

theorem put_keys_subset_append (calls : List call_t) (c : call_t) : put_keys calls ⊆ put_keys (calls ++ [c]) := by
  cases c with
  | get key => rw [put_keys_append_get]
  | put key value =>
    rw [put_keys_append_put]
    exact Finset.subset_insert key _

/-- The keys of the abstract cache. -/
def keys (cache : List (Int32 × Int32)) : Finset Int32 := (cache.map Prod.fst).toFinset

theorem mem_keys {cache : List (Int32 × Int32)} {key : Int32} : key ∈ keys cache ↔ key ∈ cache.map Prod.fst :=
  List.mem_toFinset

theorem card_keys {cache : List (Int32 × Int32)} (h : Keyed cache) : (keys cache).card = cache.length := by
  rw [keys, List.toFinset_card_of_nodup h, List.length_map]

theorem keys_get (cache : List (Int32 × Int32)) (key : Int32) : keys (recency.get cache key).2 = keys cache := by
  unfold recency.get
  cases hlookup : lookup cache key with
  | none => rfl
  | some value =>
    ext k
    rw [mem_keys, mem_keys]
    exact mem_keys_touch hlookup value k

theorem keys_put {cache : List (Int32 × Int32)} {key : Int32} (value : Int32)
    (hroom : lookup cache key = none → cache.length < capacity) :
    keys (put capacity cache key value) = insert key (keys cache) := by
  ext k
  rw [Finset.mem_insert, mem_keys, mem_keys]
  unfold put
  cases hlookup : lookup cache key with
  | some old =>
    have hmem : key ∈ cache.map Prod.fst := List.mem_map_of_mem (mem_of_lookup hlookup)
    have htouch := mem_keys_touch hlookup value k
    refine htouch.trans ⟨Or.inr, ?_⟩
    rintro (rfl | hk)
    · exact hmem
    · exact hk
  | none =>
    have hlt := hroom hlookup
    dsimp only
    rw [if_neg (by omega), List.map_cons, List.mem_cons]

/-- A cache that every key fits in never drops one. -/
theorem keys_cached {calls : List call_t} (hfits : (put_keys calls).card ≤ capacity) :
    keys (cached capacity calls) = put_keys calls := by
  induction calls using List.reverseRecOn with
  | nil => rfl
  | append_singleton calls c ih =>
    have ih := ih ((Finset.card_le_card (put_keys_subset_append calls c)).trans hfits)
    rw [cached_append]
    cases c with
    | get key =>
      rw [put_keys_append_get, spec_call, keys_get, ih]
    | put key value =>
      rw [put_keys_append_put] at hfits ⊢
      rw [spec_call, keys_put value, ih]
      intro hnone
      have hnew : key ∉ put_keys calls := by
        rw [← ih, mem_keys]
        exact lookup_eq_none_iff.mp hnone
      rw [Finset.card_insert_of_notMem hnew, ← ih, card_keys (keyed_cached calls)] at hfits
      omega

end Abstract

/-- After the calls the cache has returned what the abstract one returns, and all
its parts describe the entries of the abstract one. -/
def Refined (capacity : Int32) (calls : List call_t) : Prop :=
  ∃ obj, run (lRUCacheCreate capacity) calls = some (obj, (spec_run capacity.toInt.toNat [] calls).2) ∧
    Represents obj (cached capacity.toInt.toNat calls) ∧ obj.capacity = capacity ∧
    (cached capacity.toInt.toNat calls).length ≤ capacity.toInt.toNat

/-- The size can be counted: the capacity is below `INT_MAX`, or there are no more
keys than that. -/
def Countable (capacity : Int32) (calls : List call_t) : Prop :=
  capacity.toInt < INT_MAX ∨ (put_keys calls).card ≤ INT_MAX

section Steps

variable {capacity : Int32} {calls : List call_t}

theorem refined_nil (capacity : Int32) : Refined capacity [] :=
  ⟨_, rfl, represents_create capacity, rfl, Nat.zero_le _⟩

/-- One more call refines the abstract one, if it does not make the size overflow. -/
theorem Refined.step (h : Refined capacity calls) (hcapacity : 0 ≤ capacity.toInt) {c : call_t}
    (hkey : 0 ≤ c.key.toInt)
    (hroom : ∀ key value, c = .put key value → lookup (cached capacity.toInt.toNat calls) key = none →
      (cached capacity.toInt.toNat calls).length < INT_MAX) : Refined capacity (calls ++ [c]) := by
  obtain ⟨obj, hrun, hrepresents, hsame, -⟩ := h
  cases c with
  | get key =>
    have hkey : 0 ≤ key.toInt := hkey
    obtain ⟨obj', hget, hrepresents', hsame'⟩ := hrepresents.lRUCacheGet_spec hkey
    refine ⟨obj', ?_, ?_, hsame'.trans hsame, length_cached_le _⟩
    · rw [run, exec_append hrun, call, hget, spec_run, spec_run, respond_append]
      rfl
    · rw [cached_append]
      exact hrepresents'
  | put key value =>
    have hkey : 0 ≤ key.toInt := hkey
    have hnat : obj.capacity.toInt = capacity.toInt.toNat := by
      rw [hsame]
      omega
    obtain ⟨obj', hput, hrepresents', hsame'⟩ :=
      hrepresents.lRUCachePut_spec hnat hkey (hroom key value rfl) value
    refine ⟨obj', ?_, ?_, hsame'.trans hsame, length_cached_le _⟩
    · rw [run, exec_append hrun, call, hput, spec_run, spec_run, respond_append]
      rfl
    · rw [cached_append]
      exact hrepresents'

theorem Countable.of_append {c : call_t} (h : Countable capacity (calls ++ [c])) : Countable capacity calls := by
  obtain hlt | hle := h
  · exact Or.inl hlt
  · exact Or.inr ((Finset.card_le_card (put_keys_subset_append calls c)).trans hle)

/-- While the size can be counted, the cache refines the abstract one. -/
theorem refined_of_countable (hcapacity : 0 ≤ capacity.toInt) (hkeys : ∀ c ∈ calls, 0 ≤ c.key.toInt)
    (h : Countable capacity calls) : Refined capacity calls := by
  induction calls using List.reverseRecOn with
  | nil => exact refined_nil capacity
  | append_singleton calls c ih =>
    have ih := ih (fun c hc => hkeys c (by simp [hc])) h.of_append
    refine ih.step hcapacity (hkeys c (by simp)) ?_
    rintro key value rfl hnone
    have hlength : (cached capacity.toInt.toNat calls).length ≤ capacity.toInt.toNat := length_cached_le calls
    by_contra hnot
    have hfull : ¬ capacity.toInt < INT_MAX := by omega
    have hcard := h.resolve_left hfull
    have hfits : (put_keys calls).card ≤ capacity.toInt.toNat := by
      have hle := (Finset.card_le_card (put_keys_subset_append calls (.put key value))).trans hcard
      omega
    have hcached := keys_cached hfits
    have hnew : key ∉ put_keys calls := by
      rw [← hcached, mem_keys]
      exact lookup_eq_none_iff.mp hnone
    rw [put_keys_append_put, Finset.card_insert_of_notMem hnew, ← hcached, card_keys (keyed_cached calls)] at hcard
    omega

/-- The key after the `INT_MAX`-th makes the size overflow. -/
theorem exists_not_refined (hkeys : ∀ c ∈ calls, 0 ≤ c.key.toInt) (hcapacity : ¬ capacity.toInt < INT_MAX)
    (hcard : INT_MAX < (put_keys calls).card) : ∃ now, now <+: calls ∧ ¬ Refined capacity now := by
  induction calls using List.reverseRecOn with
  | nil => simp at hcard
  | append_singleton calls c ih =>
    have hcalls : ∀ c ∈ calls, 0 ≤ c.key.toInt := fun c hc => hkeys c (by simp [hc])
    by_cases hbefore : INT_MAX < (put_keys calls).card
    · obtain ⟨now, hnow, hnot⟩ := ih hcalls hbefore
      exact ⟨now, hnow.trans (List.prefix_append calls [c]), hnot⟩
    by_cases hrefined : Refined capacity calls
    · refine ⟨calls ++ [c], List.prefix_refl _, ?_⟩
      cases c with
      | get key =>
        rw [put_keys_append_get] at hcard
        exact absurd hcard hbefore
      | put key value =>
        rw [put_keys_append_put] at hcard
        have hnew : key ∉ put_keys calls := by
          intro hmem
          rw [Finset.insert_eq_of_mem hmem] at hcard
          exact hbefore hcard
        rw [Finset.card_insert_of_notMem hnew] at hcard
        have hcached : keys (cached capacity.toInt.toNat calls) = put_keys calls := keys_cached (by omega)
        have hnone : lookup (cached capacity.toInt.toNat calls) key = none := by
          rw [lookup_eq_none_iff, ← mem_keys, hcached]
          exact hnew
        have hfull : (cached capacity.toInt.toNat calls).length = INT_MAX := by
          rw [← card_keys (keyed_cached calls), hcached]
          omega
        obtain ⟨obj, hrun, hrepresents, -⟩ := hrefined
        have hkey : 0 ≤ key.toInt := hkeys (.put key value) (by simp)
        have hoverflow := hrepresents.lRUCachePut_overflow hkey hnone hfull value
        rintro ⟨obj', hrun', -⟩
        rw [run, exec_append hrun, call, hoverflow] at hrun'
        cases hrun'
    · exact ⟨calls, List.prefix_append calls [c], hrefined⟩

end Steps

/-- The cache refines the abstract one throughout exactly if its size can be
counted. -/
theorem lru_refines_iff (capacity : Int32) (hcapacity : 0 ≤ capacity.toInt) (calls : List call_t)
    (hkeys : ∀ c ∈ calls, 0 ≤ c.key.toInt) :
    (∀ now, now <+: calls → Refined capacity now) ↔ Countable capacity calls := by
  constructor
  · intro hall
    by_contra hnot
    rw [Countable, not_or] at hnot
    obtain ⟨now, hnow, hbad⟩ := exists_not_refined hkeys hnot.1 (by omega)
    exact hbad (hall now hnow)
  · intro h now hnow
    refine refined_of_countable hcapacity (fun c hc => hkeys c (hnow.subset hc)) ?_
    obtain hlt | hle := h
    · exact Or.inl hlt
    · refine Or.inr ((Finset.card_le_card ?_).trans hle)
      intro k hk
      rw [put_keys, List.mem_toFinset] at hk ⊢
      exact (hnow.filterMap _).subset hk

theorem lru_refines_one :
    (∀ now, now <+: [call_t.put 1 10, .put 2 20, .get 1, .get 2] →
      Refined 1 now) ↔ Countable 1 [call_t.put 1 10, .put 2 20, .get 1, .get 2] :=
  lru_refines_iff 1 (by decide) _ (by simp [call_t.key])

/-- One call of `lRUCachePut` for each key below `n`. -/
def fill (n : Nat) : List call_t := (List.range n).map fun i => .put (Int32.ofNat i) 0

theorem toInt_ofNat {i : Nat} (hi : i < INT_MAX + 1) : (Int32.ofNat i).toInt = i := by
  have hmax : INT_MAX = 2147483647 := rfl
  exact Int32.toInt_ofNat_of_lt (by omega)

theorem card_put_keys_fill {n : Nat} (hn : n ≤ INT_MAX + 1) : (put_keys (fill n)).card = n := by
  have hkeys : (fill n).filterMap call_t.put_key = (List.range n).map Int32.ofNat := by
    rw [fill, List.filterMap_map]
    exact congrFun List.filterMap_eq_map (List.range n)
  have hnodup : ((List.range n).map Int32.ofNat).Nodup := by
    refine List.Nodup.map_on ?_ List.nodup_range
    intro i hi j hj heq
    have htoInt := congrArg Int32.toInt heq
    rw [toInt_ofNat (by have := List.mem_range.mp hi; omega), toInt_ofNat (by have := List.mem_range.mp hj; omega)]
      at htoInt
    exact Int.ofNat.inj htoInt
  rw [put_keys, hkeys, List.toFinset_card_of_nodup hnodup, List.length_map, List.length_range]

theorem fill_keys_nonneg {n : Nat} (hn : n ≤ INT_MAX + 1) : ∀ c ∈ fill n, 0 ≤ c.key.toInt := by
  intro c hc
  obtain ⟨i, hi, rfl⟩ := List.mem_map.mp hc
  rw [List.mem_range] at hi
  rw [call_t.key, toInt_ofNat (by omega)]
  omega

/-- With the largest capacity, storing all keys makes the size overflow. -/
theorem lru_size_overflows : 0 ≤ Int32.maxValue.toInt ∧ (∀ c ∈ fill (INT_MAX + 1), 0 ≤ c.key.toInt) ∧
    ¬ ∀ now, now <+: fill (INT_MAX + 1) → Refined Int32.maxValue now := by
  have hkeys := fill_keys_nonneg (Nat.le_refl (INT_MAX + 1))
  refine ⟨by decide, hkeys, ?_⟩
  intro hall
  have hcard := card_put_keys_fill (Nat.le_refl (INT_MAX + 1))
  have hfull : ¬ Int32.maxValue.toInt < INT_MAX := by decide
  obtain ⟨now, hnow, hbad⟩ := exists_not_refined hkeys hfull (by rw [hcard]; exact Nat.lt_succ_self _)
  exact hbad (hall now hnow)

section Capacity

/-- The answer of a smaller cache and that of a larger one. -/
def Agrees (result result' : Option Int32) : Prop := result = some (-1) ∨ result' = result

theorem Countable.of_le {capacity capacity' : Int32} {calls : List call_t} (hle : capacity.toInt ≤ capacity'.toInt)
    (h : Countable capacity' calls) : Countable capacity calls :=
  h.imp_left fun hlt => Int.lt_of_le_of_lt hle hlt

/-- The contents of the smaller cache are always among those of the larger one. -/
theorem within_cached {small large : Nat} (hle : small ≤ large) (calls : List call_t) :
    Within small large (cached small calls) (cached large calls) ∧
      List.Forall₂ Agrees (spec_run small [] calls).2 (spec_run large [] calls).2 := by
  induction calls using List.reverseRecOn with
  | nil => exact ⟨within_nil, .nil⟩
  | append_singleton calls c ih =>
    obtain ⟨hwithin, hagree⟩ := ih
    rw [cached_append, cached_append, spec_run, spec_run, respond_append, respond_append]
    have hrest (result result' : Option Int32) (h : Agrees result result') :
        List.Forall₂ Agrees ((respond (spec_call small) [] calls).2 ++ [result])
          ((respond (spec_call large) [] calls).2 ++ [result']) := List.rel_append hagree (.cons h .nil)
    cases c with
    | get key =>
      refine ⟨hwithin.get key, hrest _ _ ?_⟩
      have hfound : Agrees (some (((recency.get (cached small calls) key).1).getD (-1)))
          (some (((recency.get (cached large calls) key).1).getD (-1))) := by
        unfold recency.get
        cases hlookup : lookup (cached small calls) key with
        | none => exact Or.inl rfl
        | some value =>
          rw [hwithin.lookup_eq hlookup]
          exact Or.inr rfl
      exact hfound
    | put key value => exact ⟨hwithin.put hle key value, hrest _ _ (Or.inr rfl)⟩

end Capacity

/-- A cache of a larger capacity answers every `lRUCacheGet` that a smaller one answers,
and with the same value. -/
theorem larger_cache_agrees (capacity capacity' : Int32) (hcapacity : 0 ≤ capacity.toInt)
    (hle : capacity.toInt ≤ capacity'.toInt) (calls : List call_t) (hkeys : ∀ c ∈ calls, 0 ≤ c.key.toInt)
    (hcountable : Countable capacity' calls) :
    ∃ obj results obj' results', run (lRUCacheCreate capacity) calls = some (obj, results) ∧
      run (lRUCacheCreate capacity') calls = some (obj', results') ∧ List.Forall₂ Agrees results results' := by
  obtain ⟨obj, hrun, -⟩ := refined_of_countable hcapacity hkeys (hcountable.of_le hle)
  obtain ⟨obj', hrun', -⟩ := refined_of_countable (hcapacity.trans hle) hkeys hcountable
  refine ⟨obj, _, obj', _, hrun, hrun', (within_cached ?_ calls).2⟩
  omega

theorem larger_cache_agrees_one :
    ∃ obj results obj' results', run (lRUCacheCreate 1) [.put 1 10, .put 2 20, .get 1, .get 2] = some (obj, results) ∧
      run (lRUCacheCreate 2) [.put 1 10, .put 2 20, .get 1, .get 2] = some (obj', results') ∧
      List.Forall₂ Agrees results results' :=
  larger_cache_agrees 1 2 (by decide) (by decide) [.put 1 10, .put 2 20, .get 1, .get 2]
    (by simp [call_t.key]) (Or.inl (by decide))

end csystems.lru_cache
