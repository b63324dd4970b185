import CSystems.Lib.DoubleLinks
import CSystems.FileCache.Links

open clib clib.heap clib.string clib.recency

namespace csystems.file_cache

/-- The link fields of a node. -/
def node_links : Links cache_node_t where
  next := cache_node_t.next
  prev := cache_node_t.prev
  set_next := cache_node_t.set_next
  set_prev := cache_node_t.set_prev
  next_set_next _ _ := rfl
  prev_set_prev _ _ := rfl
  next_set_prev _ _ := rfl
  prev_set_next _ _ := rfl
  set_comm _ _ _ := rfl

theorem contents_apart : node_links.Apart cache_node_t.contents := fun _ _ => ⟨rfl, rfl⟩

/-- The bucket of a node is part of its contents. -/
theorem bucket_congr {cache cache' : lru_cache_t} {a : Nat}
    (h : cache'.heap.field cache_node_t.contents a = cache.heap.field cache_node_t.contents a) :
    cache'.bucket a = cache.bucket a := by
  have hmap (c : lru_cache_t) : c.bucket a = (c.heap.field cache_node_t.contents a).map fun e => hash e.1 := by
    simp only [lru_cache_t.bucket, Heap.field, Option.map_map]
    rfl
  rw [hmap, hmap, h]

section Search

variable {cache : lru_cache_t} {entries : List (List UInt8 × List UInt8)} {lru : List Nat} {key data : List UInt8}

/-- The search goes through the nodes of the chain. -/
theorem Holds.search_eq (h : Holds cache entries lru) (hkey : Fits KEY_SIZE key) :
    ∃ xs : List Nat, (∀ a ∈ xs, a ∈ lru) ∧ (∀ a ∈ lru, cache.bucket a = some (hash key) → a ∈ xs) ∧
      search cache key =
        some (xs.find? fun a => decide ((cache.heap.field cache_node_t.contents a).map Prod.fst = some key)) := by
  obtain ⟨q, hq, xs, hpath, hsub, hcover⟩ := h.chain_of_lt (hash_lt key)
  refine ⟨xs, hsub, hcover, ?_⟩
  rw [search, hq, Option.bind_eq_bind, Option.bind_some]
  refine hpath.chain.find_cell_eq ?_ (h.length_lt hpath hsub)
  intro a ha
  obtain ⟨k, v, hcontents⟩ := h.shows.exists_of_mem (hsub a ha)
  have hfits : Fits KEY_SIZE k := h.fits (k, v) (h.shows.mem_iff.mpr ⟨a, hsub a ha, hcontents⟩)
  obtain ⟨n, hget, heq⟩ := Heap.field_eq_some hcontents
  obtain ⟨rfl, rfl⟩ := Prod.mk.inj heq
  rw [hcontents]
  simp only [Heap.field, hget, Option.map_some, strcmp_eq_zero_of_fits hfits hkey, Option.some.injEq]

theorem Holds.search_of_none (h : Holds cache entries lru) (hkey : Fits KEY_SIZE key)
    (hnone : lookup entries key = none) : search cache key = some none := by
  obtain ⟨xs, hsub, -, hsearch⟩ := h.search_eq hkey
  rw [hsearch, List.find?_eq_none.mpr]
  intro a ha
  obtain ⟨k, v, hcontents⟩ := h.shows.exists_of_mem (hsub a ha)
  have hmem : (k, v) ∈ entries := h.shows.mem_iff.mpr ⟨a, hsub a ha, hcontents⟩
  have hne : k ≠ key := by
    rintro rfl
    exact lookup_eq_none_iff.mp hnone (List.mem_map_of_mem hmem)
  simpa [hcontents] using hne

theorem Holds.search_of_some (h : Holds cache entries lru) (hkey : Fits KEY_SIZE key)
    (hsome : lookup entries key = some data) :
    ∃ n ∈ lru, cache.heap.field cache_node_t.contents n = some (key, data) ∧ search cache key = some (some n) := by
  obtain ⟨xs, hsub, hcover, hsearch⟩ := h.search_eq hkey
  obtain ⟨n, hn, hcontents⟩ := h.shows.mem_iff.mp (mem_of_lookup hsome)
  refine ⟨n, hn, hcontents, ?_⟩
  rw [hsearch]
  cases hfind : xs.find? fun a => decide ((cache.heap.field cache_node_t.contents a).map Prod.fst = some key) with
  | none =>
    have hnot := List.find?_eq_none.mp hfind n (hcover n hn (bucket_of_contents hcontents))
    simp [hcontents] at hnot
  | some a =>
    have ha : a ∈ lru := hsub a (List.mem_of_find?_eq_some hfind)
    obtain ⟨k, v, hcontents'⟩ := h.shows.exists_of_mem ha
    have hk : k = key := by simpa [hcontents'] using List.find?_some hfind
    subst hk
    rw [h.shows.eq_of_key h.keyed ha hn hcontents' hcontents]

end Search

section Move

variable {cache : lru_cache_t} {entries : List (List UInt8 × List UInt8)} {lru : List Nat}

/-- The stores of `move_to_front`, where the link of the node is that of the
recency list. -/
theorem move_to_front_spec (h : Back (cache.heap.field cache_node_t.prev) cache.head cache.tail lru) {n : Nat}
    (hn : n ∈ lru) (hhead : cache.head ≠ some n) (hnext : cache.heap.field cache_node_t.next n = some (succ lru n)) :
    ∃ heap tail, move_to_front cache n = some { cache with heap := heap, head := some n, tail := tail } ∧
      Back (heap.field cache_node_t.prev) (some n) tail (n :: lru.erase n) ∧
      (∀ b, heap.field cache_node_t.next b = if b = n then some cache.head
        else if pred lru n = some b then some (succ lru n) else cache.heap.field cache_node_t.next b) ∧
      heap.field cache_node_t.contents = cache.heap.field cache_node_t.contents ∧ heap.next = cache.heap.next := by
  have hlive (b : Nat) (hb : b ∈ lru) : ∃ v, cache.heap.get b = some v := by
    obtain ⟨v, hget, -⟩ := Heap.field_eq_some (h.prev_eq b hb)
    exact ⟨v, hget⟩
  obtain ⟨v, hget⟩ := hlive n hn
  have hvnext : v.next = succ lru n := by
    rw [Heap.field, hget] at hnext
    exact Option.some.inj hnext
  have hvprev : v.prev = pred lru n := by
    have hprev := h.prev_eq n hn
    rw [Heap.field, hget] at hprev
    exact Option.some.inj hprev
  obtain ⟨heap₁, heap₂, hrun₁, hrun₂, hsame₁, hsame₂, hunlinked⟩ :=
    Links.unlinked_of_live node_links (fun b hb => hlive b (mem_of_pred_eq_some hb))
      (fun b hb => hlive b (mem_of_succ_eq_some hb))
  obtain ⟨heap₃, heap₄, heap₅, hrun₃, hrun₄, hrun₅, hpushed⟩ :=
    Links.pushed_of_live node_links (hunlinked.same.live (hlive n hn))
      (fun b hb => hunlinked.same.live (hlive b (h.mem_of_head hb)))
  have hrun₁ : cache.heap.modify_if (pred lru n) (.set_next (succ lru n)) = some heap₁ := hrun₁
  have hrun₂ : heap₁.modify_if (succ lru n) (.set_prev (pred lru n)) = some heap₂ := hrun₂
  have hrun₃ : heap₂.modify n (.set_prev none) = some heap₃ := hrun₃
  have hrun₄ : heap₃.modify n (.set_next cache.head) = some heap₄ := hrun₄
  have hrun₅ : heap₄.modify_if cache.head (.set_prev (some n)) = some heap₅ := hrun₅
  have hget₁ : heap₁.get n = some v := (hsame₁ n (pred_ne_self h.nodup n)).trans hget
  have hget₂ : heap₂.get n = some v := (hsame₂ n (pred_ne_self h.nodup n) (succ_ne_self h.nodup n)).trans hget
  have hrest := hunlinked.back h
  rw [if_neg hhead] at hrest
  have hsame := hunlinked.same.trans hpushed.same
  refine ⟨heap₅, _, ?_, hpushed.back hrest h.nodup.not_mem_erase, fun b => ?_, hsame.field contents_apart, hsame.next⟩
  · rw [move_to_front, if_neg hhead]
    simp only [Option.bind_eq_bind, hget, Option.bind_some, hvprev, hvnext, hrun₁, hget₁, hrun₂, hget₂, hrun₃, hrun₄,
      hrun₅]
  · exact (hpushed.next b).trans (congrArg (ite (b = n) (some cache.head)) (hunlinked.next b))

/-- Where `move_to_front` does no harm, the link of the node is that of the
recency list. -/
theorem Relinkable.next_eq {p n : Nat} (hsafe : Relinkable cache p n) (h : Holds cache entries lru) (hn : n ∈ lru) :
    cache.heap.field cache_node_t.next n = some (succ lru n) := by
  obtain ⟨r, xs, hnext, hpath, hsub⟩ := h.path_of_mem hn
  rw [hnext]
  have hfollows := hsafe.follows
  rw [Holds.link_eq hnext] at hfollows
  obtain ⟨rfl, htail⟩ | hfollows := hfollows
  · rw [h.back.tail_eq] at htail
    rw [(succ_eq_none_iff h.back.nodup hn).mpr htail]
  · obtain ⟨m, rfl, hbefore⟩ := Option.bind_eq_some_iff.mp hfollows
    have hmem : m ∈ lru := by
      cases xs with
      | nil => cases hpath
      | cons a xs =>
        obtain rfl : m = a := Option.some.inj hpath.1
        exact hsub m (by simp)
    rw [h.before_eq hmem] at hbefore
    rw [(succ_eq_some_iff h.back.nodup).mpr hbefore]

/-- From the head of the list the links lead to null. -/
theorem Holds.path_head (h : Holds cache entries lru) :
    ∃ xs, Path (cache.heap.field cache_node_t.next) cache.head xs ∧ ∀ a ∈ xs, a ∈ lru := by
  rw [h.back.head_eq]
  cases lru with
  | nil => exact ⟨[], rfl, by simp⟩
  | cons a lru =>
    obtain ⟨r, xs, hnext, hpath, hsub⟩ := h.path_of_mem (List.mem_cons_self : a ∈ a :: lru)
    refine ⟨a :: xs, ⟨rfl, r, hnext, hpath⟩, ?_⟩
    intro b hb
    obtain rfl | hb := List.mem_cons.mp hb
    · exact List.mem_cons_self
    · exact hsub b hb

/-- The chains after a `move_to_front` that does no harm. -/
theorem Relinkable.leads {p n : Nat} (hsafe : Relinkable cache p n) (h : Holds cache entries lru) (hn : n ∈ lru)
    (hpred : pred lru n = some p) (cache' : lru_cache_t)
    (hnext : ∀ b, cache'.heap.field cache_node_t.next b = if b = n then some cache.head
      else if pred lru n = some b then some (succ lru n) else cache.heap.field cache_node_t.next b)
    (hcontents : cache'.heap.field cache_node_t.contents = cache.heap.field cache_node_t.contents) {b : Nat}
    (hb : b < CACHE_SIZE) {q : Option Nat} (hq : cache.nodes[b]? = some q) : Leads cache' lru b q := by
  have hp : p ∈ lru := mem_of_pred_eq_some hpred
  have hpn : p ≠ n := by
    rintro rfl
    exact pred_ne_self h.back.nodup p hpred
  obtain ⟨xs, hpath, hsub, hcover⟩ := h.chains b q hq
  obtain ⟨s, ys, hself, hrest, hys⟩ := h.path_of_mem hn
  obtain ⟨r, ts, hafter, hts, htsub⟩ := h.path_of_mem hp
  obtain ⟨zs, hhead, hzs⟩ := h.path_head
  have hs : s = succ lru n := Option.some.inj (hself.symm.trans (hsafe.next_eq h hn))
  have hlinkn : cache.reach (cache.link n) = ys := by rw [Holds.link_eq hself, h.reach_eq hrest hys]
  have hlinkp : cache.reach (cache.link p) = ts := by rw [Holds.link_eq hafter, h.reach_eq hts htsub]
  have hlinkh : cache.reach cache.head = zs := h.reach_eq hhead hzs
  have hchain : cache.chain b = xs := h.chain_eq hq hpath hsub
  have hpast_p := hsafe.past_p b hb
  have hpast_n := hsafe.past_n b hb
  have hnotin := hsafe.rest
  have hfirst := hsafe.head
  rw [hchain, hlinkp, hlinkn] at hpast_p
  rw [hchain, hlinkn, hlinkh] at hpast_n
  rw [hlinkn] at hnotin
  rw [hlinkh] at hfirst
  have hlink : cache'.heap.field cache_node_t.next p = some s := by rw [hnext, if_neg hpn, if_pos hpred, hs]
  have hlink' : cache'.heap.field cache_node_t.next n = some cache.head := by rw [hnext, if_pos rfl]
  have hsame : ∀ b, b ≠ p → b ≠ n →
      cache'.heap.field cache_node_t.next b = cache.heap.field cache_node_t.next b := by
    intro b hbp hbn
    rw [hnext, if_neg hbn, if_neg]
    rw [hpred]
    exact fun heq => hbp (Option.some.inj heq).symm
  obtain ⟨xs', hpath', hsub', hcover'⟩ :=
    hpath.relink hself hrest hnotin ⟨r, hafter, hts⟩ hhead hfirst hlink hlink' hsame
  refine ⟨xs', hpath', ?_, ?_⟩
  · intro a ha
    obtain ha | ha | ha := hsub' a ha
    · exact hsub a ha
    · exact hys a ha
    · exact hzs a ha
  · intro a ha hbucket
    rw [bucket_congr (congrFun hcontents a)] at hbucket
    apply hcover' a (hcover a ha hbucket)
    · intro hpx hat
      exact hpast_p hpx a hat hbucket
    · intro hnx hpx hay
      obtain hpz | hall := hpast_n ⟨hnx, hpx⟩
      · exact Or.inl hpz
      · exact Or.inr (hall a hay hbucket)

/-- Touching a key that the cache has. -/
theorem Holds.move_to_front_spec (h : Holds cache entries lru) {n : Nat} {key data : List UInt8} (hn : n ∈ lru)
    (hcontents : cache.heap.field cache_node_t.contents n = some (key, data))
    (hsafe : cache.head = some n ∨ ∃ p ∈ cache.before n, Relinkable cache p n) :
    ∃ cache', move_to_front cache n = some cache' ∧
      Holds cache' ((key, data) :: remove entries key) (n :: lru.erase n) ∧
      cache'.heap.field cache_node_t.contents = cache.heap.field cache_node_t.contents ∧
      cache'.count = cache.count ∧ cache'.capacity = cache.capacity := by
  have hperm (a : Nat) : a ∈ n :: lru.erase n ↔ a ∈ lru := ((List.perm_cons_erase hn).mem_iff).symm
  have hshows := (h.shows.erase h.keyed hn hcontents).cons hcontents
  have hfits : ∀ e ∈ (key, data) :: remove entries key, Fits KEY_SIZE e.1 := by
    intro e he
    obtain rfl | he := List.mem_cons.mp he
    · exact h.fits (key, data) (h.shows.mem_iff.mpr ⟨n, hn, hcontents⟩)
    · exact h.fits e (List.mem_of_mem_filter he)
  by_cases hhead : cache.head = some n
  · refine ⟨cache, by rw [move_to_front, if_pos hhead], ?_, rfl, rfl, rfl⟩
    have hlru : n :: lru.erase n = lru := by
      rw [h.back.head_eq] at hhead
      obtain ⟨rest, rfl⟩ : ∃ rest, lru = n :: rest := by
        cases lru with
        | nil => cases hhead
        | cons a rest => exact ⟨rest, by rw [Option.some.inj hhead]⟩
      rw [List.erase_cons_head]
    rw [hlru] at hshows ⊢
    exact ⟨h.back, hshows, h.keyed.touch key data, hfits, h.table, h.chains⟩
  · obtain ⟨p, hp, hrelinkable⟩ := hsafe.resolve_left hhead
    have hpred : pred lru n = some p := by
      rw [← h.before_eq hn]
      exact hp
    obtain ⟨heap, tail, hrun, hback, hnext, hsame, -⟩ :=
      file_cache.move_to_front_spec h.back hn hhead (hrelinkable.next_eq h hn)
    refine ⟨_, hrun, ⟨hback, ?_, h.keyed.touch key data, hfits, h.table, ?_⟩, hsame, rfl, rfl⟩
    · rw [← hsame] at hshows
      exact hshows
    · intro b q hq
      have hb : b < CACHE_SIZE := h.table ▸ (List.getElem?_eq_some_iff.mp hq).1
      obtain ⟨xs, hpath, hsub, hcover⟩ := hrelinkable.leads h hn hpred
        { cache with heap := heap, head := some n, tail := tail } hnext hsame hb hq
      exact ⟨xs, hpath, fun a ha => (hperm a).mpr (hsub a ha), fun a ha => hcover a ((hperm a).mp ha)⟩

/-- Storing new data in the node in front. -/
theorem Holds.set_data {n : Nat} {rest : List Nat} {key old : List UInt8}
    (h : Holds cache ((key, old) :: entries) (n :: rest)) (data : List UInt8) :
    ∃ heap, cache.heap.modify n (.set_data data) = some heap ∧
      Holds { cache with heap := heap } ((key, data) :: entries) (n :: rest) := by
  obtain ⟨v, hget⟩ := h.live (List.mem_cons_self : n ∈ n :: rest)
  have hprev : (cache.heap.update n (.set_data data)).field cache_node_t.prev = cache.heap.field cache_node_t.prev :=
    Heap.field_update_of_eq _ _ fun _ => rfl
  have hnext : (cache.heap.update n (.set_data data)).field cache_node_t.next = cache.heap.field cache_node_t.next :=
    Heap.field_update_of_eq _ _ fun _ => rfl
  have hbucket : (cache.heap.update n (.set_data data)).field (fun v => hash v.key) =
      cache.heap.field fun v => hash v.key := Heap.field_update_of_eq _ _ fun _ => rfl
  obtain ⟨hfirst, hshows⟩ := List.cons.inj h.shows
  have hnodup := List.nodup_cons.mp h.back.nodup
  refine ⟨_, Heap.modify_of_get hget _, ⟨?_, ?_, h.keyed, ?_, h.table, ?_⟩⟩
  · rw [hprev]
    exact h.back
  · have hrest : Shows ((cache.heap.update n (.set_data data)).field cache_node_t.contents) rest entries := by
      apply Shows.congr hshows
      intro a ha
      have hne : a ≠ n := fun heq => hnodup.1 (heq ▸ ha)
      simp only [Heap.field, Heap.get_update_of_ne _ hne]
    apply hrest.cons
    rw [Heap.field, hget, Option.map_some] at hfirst
    obtain ⟨hkey, -⟩ := Prod.mk.inj (Option.some.inj hfirst)
    simp only [Heap.field, Heap.get_update_self, hget, Option.map_some, cache_node_t.contents, cache_node_t.set_data,
      hkey]
  · intro e he
    obtain rfl | he := List.mem_cons.mp he
    · exact h.fits (key, old) List.mem_cons_self
    · exact h.fits e (List.mem_cons_of_mem _ he)
  · intro b q hq
    obtain ⟨xs, hpath, hsub, hcover⟩ := h.chains b q hq
    refine ⟨xs, ?_, hsub, ?_⟩
    · rw [hnext]
      exact hpath
    · intro a ha hab
      rw [lru_cache_t.bucket, hbucket] at hab
      exact hcover a ha hab

end Move

end csystems.file_cache
