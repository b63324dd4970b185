import Mathlib.Data.List.Basic
import Mathlib.Data.List.Nodup

namespace clib.recency

variable {κ ν : Type} [DecidableEq κ]

/-! A least recently used cache is an association list, most recently used entry
first. -/

def lookup (cache : List (κ × ν)) (k : κ) : Option ν := (cache.find? fun e => decide (e.1 = k)).map Prod.snd

def remove (cache : List (κ × ν)) (k : κ) : List (κ × ν) := cache.filter fun e => decide (e.1 ≠ k)

/-- A lookup moves the entry it finds to the front. -/
def get (cache : List (κ × ν)) (k : κ) : Option ν × List (κ × ν) :=
  match lookup cache k with
  | none => (none, cache)
  | some v => (some v, (k, v) :: remove cache k)

/-- Storing under a key puts the entry in front; a new one that does not fit drops
the last entry. -/
def put (capacity : Nat) (cache : List (κ × ν)) (k : κ) (v : ν) : List (κ × ν) :=
  match lookup cache k with
  | some _ => (k, v) :: remove cache k
  | none => if capacity < cache.length + 1 then ((k, v) :: cache).dropLast else (k, v) :: cache

/-- No key occurs twice. -/
def Keyed (cache : List (κ × ν)) : Prop := (cache.map Prod.fst).Nodup

section Cache

variable {cache : List (κ × ν)} {k : κ} {v : ν}

omit [DecidableEq κ] in
theorem keyed_nil : Keyed ([] : List (κ × ν)) := List.nodup_nil

theorem lookup_eq_none_iff : lookup cache k = none ↔ k ∉ cache.map Prod.fst := by
  simp only [lookup, Option.map_eq_none_iff, List.find?_eq_none, decide_eq_true_eq, List.mem_map, not_exists, not_and]

theorem mem_of_lookup (h : lookup cache k = some v) : (k, v) ∈ cache := by
  obtain ⟨e, hfind, rfl⟩ := Option.map_eq_some_iff.mp h
  have hkey : e.1 = k := by simpa using List.find?_some hfind
  rw [← hkey]
  exact List.mem_of_find?_eq_some hfind

theorem Keyed.lookup_of_mem (h : Keyed cache) (hmem : (k, v) ∈ cache) : lookup cache k = some v := by
  cases hlookup : lookup cache k with
  | none => exact absurd (List.mem_map_of_mem hmem) (lookup_eq_none_iff.mp hlookup)
  | some w =>
    have hw := mem_of_lookup hlookup
    have hsame := List.inj_on_of_nodup_map h hw hmem rfl
    rw [(Prod.mk.inj hsame).2]

theorem key_not_mem_remove (cache : List (κ × ν)) (k : κ) : k ∉ (remove cache k).map Prod.fst := by
  intro hmem
  obtain ⟨e, he, rfl⟩ := List.mem_map.mp hmem
  simp [remove] at he

theorem remove_of_not_mem (h : k ∉ cache.map Prod.fst) : remove cache k = cache := by
  refine List.filter_eq_self.mpr fun e he => ?_
  have hne : e.1 ≠ k := fun heq => h (heq ▸ List.mem_map_of_mem he)
  simpa using hne

theorem Keyed.remove (h : Keyed cache) (k : κ) : Keyed (remove cache k) :=
  h.sublist ((List.filter_sublist).map Prod.fst)

theorem Keyed.touch (h : Keyed cache) (k : κ) (v : ν) : Keyed ((k, v) :: recency.remove cache k) :=
  List.nodup_cons.mpr ⟨key_not_mem_remove cache k, h.remove k⟩

theorem length_remove (h : Keyed cache) (hmem : (k, v) ∈ cache) : (remove cache k).length + 1 = cache.length := by
  induction cache with
  | nil => cases hmem
  | cons e cache ih =>
    obtain ⟨hnot, hkeys⟩ := List.nodup_cons.mp h
    by_cases hkey : e.1 = k
    · have hcons : remove (e :: cache) k = remove cache k := List.filter_cons_of_neg (by simpa using hkey)
      rw [hcons, remove_of_not_mem (hkey ▸ hnot), List.length_cons]
    · have hmem : (k, v) ∈ cache := by
        obtain heq | hmem := List.mem_cons.mp hmem
        · exact absurd (by rw [← heq]) hkey
        · exact hmem
      have hcons : remove (e :: cache) k = e :: remove cache k := List.filter_cons_of_pos (by simpa using hkey)
      rw [hcons, List.length_cons, List.length_cons, ih hkeys hmem]

theorem mem_keys_touch (h : lookup cache k = some v) (w : ν) (k' : κ) :
    k' ∈ ((k, w) :: remove cache k).map Prod.fst ↔ k' ∈ cache.map Prod.fst := by
  rw [List.map_cons, List.mem_cons]
  constructor
  · rintro (rfl | hmem)
    · exact List.mem_map_of_mem (mem_of_lookup h)
    · exact ((List.filter_sublist).map Prod.fst).subset hmem
  · intro hmem
    by_cases hkey : k' = k
    · exact Or.inl hkey
    · obtain ⟨e, he, rfl⟩ := List.mem_map.mp hmem
      exact Or.inr (List.mem_map_of_mem (List.mem_filter.mpr ⟨he, by simpa using hkey⟩))

theorem Keyed.get (h : Keyed cache) (k : κ) : Keyed (get cache k).2 := by
  unfold recency.get
  cases lookup cache k with
  | none => exact h
  | some v => exact h.touch k v

theorem Keyed.put (h : Keyed cache) (capacity : Nat) (k : κ) (v : ν) : Keyed (put capacity cache k v) := by
  unfold recency.put
  cases hlookup : lookup cache k with
  | some w => exact h.touch k v
  | none =>
    have hnew : Keyed ((k, v) :: cache) := List.nodup_cons.mpr ⟨lookup_eq_none_iff.mp hlookup, h⟩
    dsimp only
    split
    · exact hnew.sublist ((List.dropLast_sublist _).map Prod.fst)
    · exact hnew

theorem length_get (h : Keyed cache) (k : κ) : (get cache k).2.length = cache.length := by
  unfold get
  cases hlookup : lookup cache k with
  | none => rfl
  | some v => exact length_remove h (mem_of_lookup hlookup)

theorem length_put_le (h : Keyed cache) {capacity : Nat} (hle : cache.length ≤ capacity) (k : κ) (v : ν) :
    (put capacity cache k v).length ≤ capacity := by
  unfold put
  cases hlookup : lookup cache k with
  | some w =>
    have hlength := length_remove h (mem_of_lookup hlookup)
    dsimp only
    rw [List.length_cons]
    omega
  | none =>
    dsimp only
    split
    · rw [List.length_dropLast, List.length_cons]
      omega
    · rw [List.length_cons]
      omega

end Cache

/-- What two caches hold after the same calls, where one has at least the capacity of
the other. -/
structure Within (small large : Nat) (m n : List (κ × ν)) : Prop where
  keyed : Keyed n
  sublist : m.Sublist n
  not_full : m.length < small → n = m
  le_small : m.length ≤ small
  le_large : n.length ≤ large

section Within

variable {small large : Nat} {m n : List (κ × ν)} {k : κ}

omit [DecidableEq κ] in
theorem within_nil : Within small large ([] : List (κ × ν)) [] :=
  ⟨keyed_nil, List.Sublist.refl [], fun _ => rfl, Nat.zero_le _, Nat.zero_le _⟩

omit [DecidableEq κ] in
theorem sublist_dropLast (h : m.Sublist n) : m.dropLast.Sublist n.dropLast := by
  have htail := h.reverse.tail
  rw [List.tail_reverse, List.tail_reverse] at htail
  exact List.reverse_sublist.mp htail

/-- What the smaller cache finds, the larger one finds as well. -/
theorem Within.lookup_eq {v : ν} (h : Within small large m n) (hlookup : lookup m k = some v) : lookup n k = some v :=
  h.keyed.lookup_of_mem (h.sublist.subset (mem_of_lookup hlookup))

/-- A cache that finds what the smaller one does not is the larger one, and the smaller
one is full. -/
theorem Within.full (h : Within small large m n) {v : ν} (hm : lookup m k = none) (hn : lookup n k = some v) :
    m.length = small := by
  by_contra hne
  have heq := h.not_full (Nat.lt_of_le_of_ne h.le_small hne)
  rw [heq, hm] at hn
  cases hn

/-- Both caches move the entry to the front. -/
theorem Within.touch {v : ν} (h : Within small large m n) (hlookup : lookup m k = some v) (w : ν) :
    Within small large ((k, w) :: remove m k) ((k, w) :: remove n k) := by
  have hm : (remove m k).length + 1 = m.length := by
    have hkeyed : Keyed m := h.keyed.sublist (h.sublist.map Prod.fst)
    exact length_remove hkeyed (mem_of_lookup hlookup)
  have hn := length_remove h.keyed (mem_of_lookup (h.lookup_eq hlookup))
  refine ⟨h.keyed.touch k w, (h.sublist.filter _).cons_cons _, fun hlt => ?_, ?_, ?_⟩
  · rw [h.not_full (by rw [List.length_cons] at hlt; omega)]
  · rw [List.length_cons, hm]
    exact h.le_small
  · rw [List.length_cons, hn]
    exact h.le_large

theorem Within.get (h : Within small large m n) (k : κ) : Within small large (get m k).2 (get n k).2 := by
  unfold recency.get
  cases hm : lookup m k with
  | some v =>
    rw [h.lookup_eq hm]
    exact h.touch hm v
  | none =>
    cases hn : lookup n k with
    | none => exact h
    | some v =>
      have hfull := h.full hm hn
      have hremove := length_remove h.keyed (mem_of_lookup hn)
      have hsame : remove m k = m := remove_of_not_mem (lookup_eq_none_iff.mp hm)
      have hsublist := h.sublist.filter fun e => decide (e.1 ≠ k)
      rw [← recency.remove, hsame] at hsublist
      refine ⟨h.keyed.touch k v, hsublist.cons _, fun hlt => absurd hfull (Nat.ne_of_lt hlt), h.le_small, ?_⟩
      dsimp only
      rw [List.length_cons, hremove]
      exact h.le_large

theorem Within.put (h : Within small large m n) (hle : small ≤ large) (k : κ) (v : ν) :
    Within small large (put small m k v) (put large n k v) := by
  have hkeyed := h.keyed.put large k v
  have hkeyed_small : Keyed m := h.keyed.sublist (h.sublist.map Prod.fst)
  have hlarge := length_put_le h.keyed h.le_large k v
  have hsmall := length_put_le hkeyed_small h.le_small k v
  cases hm : lookup m k with
  | some w =>
    rw [recency.put, recency.put, hm, h.lookup_eq hm]
    exact h.touch hm v
  | none =>
    by_cases hfull : m.length = small
    · have hput : recency.put small m k v = ((k, v) :: m).dropLast := by
        rw [recency.put, hm]
        exact if_pos (by omega)
      refine ⟨hkeyed, ?_, fun hlt => absurd hlt ?_, hsmall, hlarge⟩
      · rw [hput, recency.put]
        cases hn : lookup n k with
        | some w =>
          have hsame : remove m k = m := remove_of_not_mem (lookup_eq_none_iff.mp hm)
          have hsublist := h.sublist.filter fun e => decide (e.1 ≠ k)
          rw [← recency.remove, hsame] at hsublist
          exact (List.dropLast_sublist _).trans (hsublist.cons_cons _)
        | none =>
          dsimp only
          split
          · exact sublist_dropLast (h.sublist.cons_cons _)
          · exact (List.dropLast_sublist _).trans (h.sublist.cons_cons _)
      · rw [hput, List.length_dropLast, List.length_cons, hfull]
        exact Nat.lt_irrefl _
    · -- neither cache has dropped an entry yet
      have hlt : m.length < small := Nat.lt_of_le_of_ne h.le_small hfull
      obtain rfl := h.not_full hlt
      have hput (capacity : Nat) (hroom : n.length < capacity) : recency.put capacity n k v = (k, v) :: n := by
        rw [recency.put, hm]
        exact if_neg (by omega)
      rw [hput small hlt, hput large (by omega)] at *
      exact ⟨hkeyed, List.Sublist.refl _, fun _ => rfl, hsmall, hlarge⟩

end Within

section Addresses

variable {f : Nat → Option (κ × ν)} {xs : List Nat} {cache : List (κ × ν)} {a : Nat} {k : κ} {v : ν}

omit [DecidableEq κ]

/-- The cells at these addresses hold the entries of the cache, in its order. -/
def Shows (f : Nat → Option (κ × ν)) (xs : List Nat) (cache : List (κ × ν)) : Prop := xs.map f = cache.map some

theorem Shows.length_eq (h : Shows f xs cache) : xs.length = cache.length := by
  have hlength := congrArg List.length h
  simpa using hlength

theorem Shows.congr (h : Shows f xs cache) {f' : Nat → Option (κ × ν)} (hsame : ∀ a ∈ xs, f' a = f a) :
    Shows f' xs cache := (List.map_congr_left hsame).trans h

theorem Shows.cons (h : Shows f xs cache) (ha : f a = some (k, v)) : Shows f (a :: xs) ((k, v) :: cache) := by
  rw [Shows, List.map_cons, List.map_cons, ha, h]

theorem Shows.dropLast (h : Shows f xs cache) : Shows f xs.dropLast cache.dropLast := by
  rw [Shows, List.map_dropLast, List.map_dropLast, h]

theorem Shows.mem_iff (h : Shows f xs cache) : (k, v) ∈ cache ↔ ∃ a ∈ xs, f a = some (k, v) := by
  have hsome : (k, v) ∈ cache ↔ some (k, v) ∈ cache.map some := by simp
  rw [hsome, ← h, List.mem_map]

theorem Shows.exists_of_mem (h : Shows f xs cache) (ha : a ∈ xs) : ∃ k v, f a = some (k, v) := by
  have hmem : f a ∈ cache.map some := by
    rw [← h]
    exact List.mem_map_of_mem ha
  obtain ⟨⟨k, v⟩, -, heq⟩ := List.mem_map.mp hmem
  exact ⟨k, v, heq.symm⟩

/-- Cells with one key are the same cell. -/
theorem Shows.eq_of_key (h : Shows f xs cache) (hkeys : Keyed cache) {a' : Nat} {v' : ν} (ha : a ∈ xs) (ha' : a' ∈ xs)
    (hf : f a = some (k, v)) (hf' : f a' = some (k, v')) : a = a' := by
  have hkeyed : (xs.map fun a => (f a).map Prod.fst).Nodup := by
    have heq : xs.map (fun a => (f a).map Prod.fst) = (cache.map Prod.fst).map some := by
      have hmap := congrArg (List.map (Option.map Prod.fst)) h
      simpa only [List.map_map, Function.comp_def, Option.map_some] using hmap
    rw [heq]
    exact hkeys.map fun _ _ => Option.some.inj
  refine List.inj_on_of_nodup_map hkeyed ha ha' ?_
  simp [hf, hf']

theorem Shows.erase [DecidableEq κ] (h : Shows f xs cache) (hkeys : Keyed cache) (ha : a ∈ xs)
    (hf : f a = some (k, v)) : Shows f (xs.erase a) (remove cache k) := by
  induction xs generalizing cache with
  | nil => cases ha
  | cons b xs ih =>
    cases cache with
    | nil => cases h
    | cons e cache =>
      obtain ⟨hb, hrest⟩ := List.cons.inj h
      obtain ⟨hnot, hkeys'⟩ := List.nodup_cons.mp hkeys
      by_cases hba : b = a
      · subst hba
        obtain rfl : e = (k, v) := Option.some.inj (hb.symm.trans hf)
        have hcons : remove ((k, v) :: cache) k = remove cache k := List.filter_cons_of_neg (by simp)
        rw [List.erase_cons_head, hcons, remove_of_not_mem hnot]
        exact hrest
      · have ha : a ∈ xs := by
          obtain heq | ha := List.mem_cons.mp ha
          · exact absurd heq.symm hba
          · exact ha
        have hmem : (k, v) ∈ cache := (Shows.mem_iff hrest).mpr ⟨a, ha, hf⟩
        have hne : e.1 ≠ k := fun heq => hnot (by rw [heq]; exact List.mem_map_of_mem hmem)
        have hcons : remove (e :: cache) k = e :: remove cache k := List.filter_cons_of_pos (by simpa using hne)
        rw [List.erase_cons_tail (by simpa using hba), hcons, Shows, List.map_cons, List.map_cons, hb]
        exact congrArg _ (ih hrest hkeys' ha)

end Addresses

end clib.recency
