import CSystems.FileCache.Move

open clib clib.heap clib.string clib.recency

namespace csystems.file_cache

section Alloc

variable {cache : lru_cache_t} {entries : List (List UInt8 × List UInt8)} {lru : List Nat}

theorem Holds.ne_next (h : Holds cache entries lru) : ∀ a ∈ lru, a ≠ cache.heap.next := by
  intro a ha
  obtain ⟨n, hn⟩ := h.live ha
  exact Nat.ne_of_lt (Heap.lt_next_of_get hn)

theorem Holds.field_alloc (h : Holds cache entries lru) (v : cache_node_t) {β : Type} (f : cache_node_t → β) :
    ∀ a ∈ lru, (cache.heap.alloc v).2.field f a = cache.heap.field f a := fun a ha =>
  Heap.field_alloc_of_ne _ _ _ (h.ne_next a ha)

theorem Holds.path_alloc (h : Holds cache entries lru) (v : cache_node_t) {q : Option Nat} {xs : List Nat}
    (hpath : Path (cache.heap.field cache_node_t.next) q xs) (hsub : ∀ a ∈ xs, a ∈ lru) :
    Path ((cache.heap.alloc v).2.field cache_node_t.next) q xs :=
  hpath.congr fun a ha => h.field_alloc v _ a (hsub a ha)

/-- A node that is not linked yet does not matter. -/
theorem Holds.alloc (h : Holds cache entries lru) (v : cache_node_t) :
    Holds { cache with heap := (cache.heap.alloc v).2 } entries lru := by
  refine ⟨h.back.congr (h.field_alloc v _), h.shows.congr (h.field_alloc v _), h.keyed, h.fits, h.table, ?_⟩
  intro b q hq
  obtain ⟨xs, hpath, hsub, hcover⟩ := h.chains b q hq
  refine ⟨xs, h.path_alloc v hpath hsub, hsub, ?_⟩
  intro a ha hbucket
  rw [lru_cache_t.bucket, h.field_alloc v _ a ha] at hbucket
  exact hcover a ha hbucket

theorem Evictable.alloc {p l : Nat} (hsafe : Evictable cache p l) (h : Holds cache entries lru) (hp : p ∈ lru)
    (hl : l ∈ lru) (v : cache_node_t) : Evictable { cache with heap := (cache.heap.alloc v).2 } p l := by
  have h' := h.alloc v
  have hreach {q : Option Nat} {xs : List Nat} (hpath : Path (cache.heap.field cache_node_t.next) q xs)
      (hsub : ∀ a ∈ xs, a ∈ lru) :
      lru_cache_t.reach { cache with heap := (cache.heap.alloc v).2 } q = cache.reach q := by
    rw [h.reach_eq hpath hsub, h'.reach_eq (h.path_alloc v hpath hsub) hsub]
  have hchain (b : Nat) (hb : b < CACHE_SIZE) :
      lru_cache_t.chain { cache with heap := (cache.heap.alloc v).2 } b = cache.chain b := by
    obtain ⟨q, hq, xs, hpath, hsub, -⟩ := h.chain_of_lt hb
    rw [lru_cache_t.chain, lru_cache_t.chain, hq]
    exact hreach hpath hsub
  have hbucket (a : Nat) (ha : a ∈ lru) :
      lru_cache_t.bucket { cache with heap := (cache.heap.alloc v).2 } a = cache.bucket a := h.field_alloc v _ a ha
  obtain ⟨r, ts, hnext, hts, htsub⟩ := h.path_of_mem hp
  have hlink : lru_cache_t.link { cache with heap := (cache.heap.alloc v).2 } p = cache.link p := by
    rw [lru_cache_t.link, lru_cache_t.link, h.field_alloc v _ p hp]
  refine ⟨?_, ?_⟩
  · intro b hb hmem
    rw [hchain b hb] at hmem
    rw [hbucket l hl]
    exact hsafe.unreached b hb hmem
  · intro b hb hmem a ha hab
    rw [hchain b hb] at hmem
    have hsame : lru_cache_t.reach { cache with heap := (cache.heap.alloc v).2 } (cache.link p) =
        cache.reach (cache.link p) := by
      rw [Holds.link_eq hnext]
      exact hreach hts htsub
    rw [hlink, hsame] at ha
    have hmem' : a ∈ lru := by
      rw [Holds.link_eq hnext, h.reach_eq hts htsub] at ha
      exact htsub a ha
    rw [hbucket a hmem'] at hab
    exact hsafe.past_p b hb hmem a ha hab

end Alloc

section Evict

variable {cache : lru_cache_t} {entries : List (List UInt8 × List UInt8)} {lru : List Nat}

/-- A chain that leads to the dropped node past `p` only, where nothing of the bucket
follows, ends at `p`. -/
theorem Holds.leads_cut (h : Holds cache entries lru) {p l b : Nat} (hpl : p ≠ l) {cache' : lru_cache_t}
    (hlink : cache'.heap.field cache_node_t.next p = some none)
    (hsame : ∀ b, b ≠ p → b ≠ l → cache'.heap.field cache_node_t.next b = cache.heap.field cache_node_t.next b)
    (hcontents : ∀ b, b ≠ l →
      cache'.heap.field cache_node_t.contents b = cache.heap.field cache_node_t.contents b)
    {q r : Option Nat} {xs ts : List Nat} (hpath : Path (cache.heap.field cache_node_t.next) q xs)
    (hafter : cache.heap.field cache_node_t.next p = some r) (hts : Path (cache.heap.field cache_node_t.next) r ts)
    (hbefore : l ∉ xs.takeWhile (· ≠ p)) (hsub : ∀ a ∈ xs, a ∈ lru)
    (hcover : ∀ a ∈ lru, a ≠ l → cache.bucket a = some b → a ∈ xs)
    (hpast : p ∈ xs → ∀ a ∈ ts, cache.bucket a = some b → a = l) : Leads cache' (lru.erase l) b q := by
  obtain ⟨xs', hpath', hsub', hcover'⟩ := hpath.cut hbefore hpl ⟨r, hafter, hts⟩ hlink hsame
  refine ⟨xs', hpath', ?_, ?_⟩
  · intro a ha
    obtain ⟨hmem, hne⟩ := hsub' a ha
    exact (List.mem_erase_of_ne hne).mpr (hsub a hmem)
  · intro a ha hab
    obtain ⟨hne, hmem⟩ := (h.back.nodup.mem_erase_iff).mp ha
    rw [bucket_congr (hcontents a hne)] at hab
    exact hcover' a (hcover a hmem hne hab) fun hpx hat => hne (hpast hpx a hat hab)

/-- The chains after an eviction that does no harm. -/
theorem Evictable.leads {p l : Nat} (hsafe : Evictable cache p l) (h : Holds cache entries lru) (hp : p ∈ lru)
    (hpl : p ≠ l) {v : cache_node_t} (hget : cache.heap.get l = some v) (cache' : lru_cache_t)
    (hlink : cache'.heap.field cache_node_t.next p = some none)
    (hsame : ∀ b, b ≠ p → b ≠ l → cache'.heap.field cache_node_t.next b = cache.heap.field cache_node_t.next b)
    (hcontents : ∀ b, b ≠ l →
      cache'.heap.field cache_node_t.contents b = cache.heap.field cache_node_t.contents b) {first : Option Nat}
    (hfirst : cache.nodes[hash v.key]? = some first)
    (hnodes : cache'.nodes = if first = some l then cache.nodes.set (hash v.key) v.next else cache.nodes) :
    ∀ b q, cache'.nodes[b]? = some q → Leads cache' (lru.erase l) b q := by
  intro b q' hq'
  have hb : b < CACHE_SIZE := by
    have hlt := (List.getElem?_eq_some_iff.mp hq').1
    have hlength : cache'.nodes.length = cache.nodes.length := by
      rw [hnodes]
      split <;> simp
    rwa [hlength, h.table] at hlt
  obtain ⟨q, hq, xs, hpath, hsub, hcover⟩ := h.chain_of_lt hb
  obtain ⟨r, ts, hafter, hts, htsub⟩ := h.path_of_mem hp
  have hchain : cache.chain b = xs := h.chain_eq hq hpath hsub
  have hbucket : cache.bucket l = some (hash v.key) := by
    rw [lru_cache_t.bucket, Heap.field, hget, Option.map_some]
  have hpast := hsafe.past_p b hb
  rw [hchain, Holds.link_eq hafter, h.reach_eq hts htsub] at hpast
  by_cases hcase : first = some l ∧ b = hash v.key
  · obtain ⟨rfl, rfl⟩ := hcase
    obtain rfl : q = some l := Option.some.inj (hq.symm.trans hfirst)
    rw [hnodes, if_pos rfl, List.getElem?_set_self (h.table ▸ hb)] at hq'
    obtain rfl := Option.some.inj hq'
    obtain ⟨rest, rfl⟩ : ∃ rest, xs = l :: rest := by
      cases xs with
      | nil => cases hpath
      | cons a rest => exact ⟨rest, by rw [Option.some.inj hpath.1]⟩
    have hnotin := (List.nodup_cons.mp hpath.nodup).1
    obtain ⟨-, r', hnext, hrest⟩ := hpath
    rw [Heap.field, hget] at hnext
    obtain rfl : v.next = r' := Option.some.inj hnext
    refine h.leads_cut hpl hlink hsame hcontents hrest hafter hts ?_ ?_ ?_ ?_
    · exact fun hmem => hnotin ((List.takeWhile_sublist _).subset hmem)
    · exact fun a ha => hsub a (List.mem_cons_of_mem _ ha)
    · exact fun a ha hne hab => (List.mem_cons.mp (hcover a ha hab)).resolve_left hne
    · exact fun hpx => hpast (List.mem_cons_of_mem _ hpx)
  · have hsame' : cache'.nodes[b]? = cache.nodes[b]? := by
      rw [hnodes]
      split
      · next hf =>
        have hne : hash v.key ≠ b := fun heq => hcase ⟨hf, heq.symm⟩
        rw [List.getElem?_set_ne hne]
      · rfl
    obtain rfl : q' = q := by
      rw [hsame', hq] at hq'
      exact (Option.some.inj hq').symm
    refine h.leads_cut hpl hlink hsame hcontents hpath hafter hts ?_ hsub (fun a ha _ => hcover a ha) hpast
    intro hmem
    rw [← hchain] at hmem
    obtain ⟨hbl, hnode⟩ := hsafe.unreached b hb hmem
    obtain rfl : hash v.key = b := Option.some.inj (hbucket.symm.trans hbl)
    exact hcase ⟨Option.some.inj (hfirst.symm.trans hnode), rfl⟩

/-- Dropping the last node. Other cells of the heap stay as they are. -/
theorem Holds.evict_spec (h : Holds cache entries lru) {p l : Nat} (htail : cache.tail = some l)
    (hbefore : cache.before l = some p) (hsafe : Evictable cache p l) :
    ∃ cache' lru', evict cache = some cache' ∧ Holds cache' entries.dropLast lru' ∧ (∀ a ∈ lru', a ∈ lru) ∧
      (∀ a, a ∉ lru → cache'.heap.get a = cache.heap.get a) ∧ cache'.count = cache.count - 1 ∧
      cache'.capacity = cache.capacity := by
  have hlast : lru.getLast? = some l := h.back.tail_eq.symm.trans htail
  have hl : l ∈ lru := List.mem_of_getLast? hlast
  have hpred : pred lru l = some p := (h.before_eq hl).symm.trans hbefore
  have hp : p ∈ lru := mem_of_pred_eq_some hpred
  have hpl : p ≠ l := by
    rintro rfl
    exact pred_ne_self h.back.nodup p hpred
  obtain ⟨v, hget⟩ := h.live hl
  have hvprev : v.prev = some p := by
    have hprev := h.back.prev_eq l hl
    rw [Heap.field, hget, hpred] at hprev
    exact Option.some.inj hprev
  have hlive : ∀ b, some p = some b → ∃ v, cache.heap.get b = some v := fun b hb => h.live (Option.some.inj hb ▸ hp)
  let heap₁ := cache.heap.update_if (some p) (.set_next none)
  let heap₂ := heap₁.erase l
  have hget₁ : heap₁.get l = some v := by
    rw [Heap.get_update_if_of_ne _ (fun heq => hpl (Option.some.inj heq)), hget]
  obtain ⟨first, hfirst, -⟩ := h.chain_of_lt (hash_lt v.key)
  let cache' : lru_cache_t := { cache with
    heap := heap₂
    tail := some p
    nodes := if first = some l then cache.nodes.set (hash v.key) v.next else cache.nodes
    count := cache.count - 1 }
  have hkept {β : Type} (f : cache_node_t → β) (b : Nat) (hb : b ≠ l) : heap₂.field f b = heap₁.field f b :=
    Heap.field_erase_of_ne _ _ hb
  have hnext (b : Nat) (hb : b ≠ l) : heap₂.field cache_node_t.next b =
      if some p = some b then some none else cache.heap.field cache_node_t.next b := by
    rw [hkept _ b hb]
    exact @Links.next_store_next _ node_links _ _ hlive none b
  have hsame : node_links.SameApart cache.heap heap₁ := Links.sameApart_store_next cache.heap (some p) none
  have hcontents (b : Nat) (hb : b ≠ l) :
      heap₂.field cache_node_t.contents b = cache.heap.field cache_node_t.contents b := by
    rw [hkept _ b hb, hsame.field contents_apart]
  have hprevs : ∀ b ∈ lru, b ≠ l → heap₂.field cache_node_t.prev b =
      if succ lru l = some b then some (pred lru l) else cache.heap.field cache_node_t.prev b := by
    intro b _ hb
    have hnone : succ lru l = none := (succ_eq_none_iff h.back.nodup hl).mpr hlast
    rw [hkept _ b hb, hnone, if_neg (by simp)]
    exact congrFun (@Links.prev_store_next _ node_links cache.heap (some p) none) b
  have hhead : cache.head ≠ some l := by
    rw [h.back.head_eq]
    intro hhead
    rw [(pred_eq_none_iff h.back.nodup hl).mpr hhead] at hpred
    cases hpred
  have hback := h.back.unlink hprevs
  rw [if_neg hhead, if_pos htail, hpred] at hback
  have herase : lru.erase l = lru.dropLast := erase_getLast h.back.nodup hlast
  have hmember : ∀ a ∈ lru.erase l, a ≠ l := fun a ha => ((h.back.nodup.mem_erase_iff).mp ha).1
  refine ⟨cache', lru.erase l, ?_, ⟨hback, ?_, ?_, ?_, ?_, ?_⟩, fun a ha => List.mem_of_mem_erase ha, ?_, rfl, rfl⟩
  · have hrun₁ : cache.heap.modify_if (some p) (.set_next none) = some heap₁ := Heap.modify_if_of_live hlive _
    have hsome : ¬ (some p = (none : Option Nat)) := by simp
    rw [evict, remove_lru, htail]
    simp only [Option.bind_eq_bind, hget, Option.bind_some, hvprev, hrun₁, hget₁, if_neg hsome, hfirst,
      Heap.free_of_get hget₁, cache', heap₂]
  · have hshows := h.shows.dropLast
    rw [← herase] at hshows
    exact hshows.congr fun a ha => hcontents a (hmember a ha)
  · exact h.keyed.sublist ((List.dropLast_sublist _).map Prod.fst)
  · intro e he
    exact h.fits e ((List.dropLast_sublist _).subset he)
  · simp only [cache']
    split <;> simp [h.table]
  · refine hsafe.leads h hp hpl hget cache' ?_ ?_ hcontents hfirst rfl
    · exact (hnext p hpl).trans (if_pos rfl)
    · intro b hbp hbl
      exact (hnext b hbl).trans (if_neg fun heq => hbp (Option.some.inj heq).symm)
  · intro a ha
    have hal : a ≠ l := fun heq => ha (heq ▸ hl)
    have hap : some p ≠ some a := fun heq => ha (Option.some.inj heq ▸ hp)
    simp only [cache', heap₂, heap₁, Heap.get_erase_of_ne _ hal, Heap.get_update_if_of_ne _ hap]

end Evict

section Insert

variable {cache : lru_cache_t} {entries : List (List UInt8 × List UInt8)} {lru : List Nat}

/-- The chains with a new node in front of one of them. -/
theorem Holds.leads_insert (h : Holds cache entries lru) {key data : List UInt8} {a : Nat} {cache' : lru_cache_t}
    {first : Option Nat} (hfirst : cache.nodes[hash key]? = some first)
    (hlink : cache'.heap.field cache_node_t.next a = some first)
    (hself : cache'.heap.field cache_node_t.contents a = some (key, data))
    (hnext : ∀ b ∈ lru, cache'.heap.field cache_node_t.next b = cache.heap.field cache_node_t.next b)
    (hcontents : cache'.heap.field cache_node_t.contents = cache.heap.field cache_node_t.contents) {b : Nat}
    {q : Option Nat} (hq : (cache.nodes.set (hash key) (some a))[b]? = some q) : Leads cache' (a :: lru) b q := by
  have hb : b < CACHE_SIZE := by
    have hlt := (List.getElem?_eq_some_iff.mp hq).1
    rwa [List.length_set, h.table] at hlt
  obtain ⟨q₀, hq₀, xs, hxs, hsub, hcover⟩ := h.chain_of_lt hb
  have hpath : Path (cache'.heap.field cache_node_t.next) q₀ xs := hxs.congr fun x hx => hnext x (hsub x hx)
  have hbucket (x : Nat) : cache'.bucket x = cache.bucket x := bucket_congr (congrFun hcontents x)
  by_cases hhash : hash key = b
  · subst hhash
    rw [List.getElem?_set_self (h.table ▸ hb)] at hq
    obtain rfl := Option.some.inj hq
    obtain rfl : first = q₀ := Option.some.inj (hfirst.symm.trans hq₀)
    refine ⟨a :: xs, ⟨rfl, first, hlink, hpath⟩, ?_, ?_⟩
    · intro x hx
      obtain rfl | hx := List.mem_cons.mp hx
      · exact List.mem_cons_self
      · exact List.mem_cons_of_mem _ (hsub x hx)
    · intro x hx hxb
      obtain rfl | hx := List.mem_cons.mp hx
      · exact List.mem_cons_self
      · rw [hbucket] at hxb
        exact List.mem_cons_of_mem _ (hcover x hx hxb)
  · rw [List.getElem?_set_ne hhash] at hq
    obtain rfl : q₀ = q := Option.some.inj (hq₀.symm.trans hq)
    refine ⟨xs, hpath, fun x hx => List.mem_cons_of_mem _ (hsub x hx), ?_⟩
    intro x hx hxb
    obtain rfl | hx := List.mem_cons.mp hx
    · rw [bucket_of_contents hself] at hxb
      exact absurd (Option.some.inj hxb) hhash
    · rw [hbucket] at hxb
      exact hcover x hx hxb

/-- A new node in front of the list and of its bucket. -/
theorem Holds.insert (h : Holds cache entries lru) {key data : List UInt8} (hkey : Fits KEY_SIZE key)
    (hnone : lookup entries key = none) {a : Nat} (hnew : a ∉ lru)
    (hget : cache.heap.get a = some { key := key, data := data, prev := none, next := none }) :
    ∃ cache₁ first heap, add_to_front cache a = some cache₁ ∧ cache₁.nodes[hash key]? = some first ∧
      cache₁.heap.modify a (.set_next first) = some heap ∧
      Holds { cache₁ with heap := heap, nodes := cache₁.nodes.set (hash key) (some a), count := cache₁.count + 1 }
        ((key, data) :: entries) (a :: lru) ∧
      cache₁.count = cache.count ∧ cache₁.capacity = cache.capacity := by
  have hlive : ∀ b, cache.head = some b → ∃ v, cache.heap.get b = some v := fun b hb =>
    h.live (h.back.mem_of_head hb)
  obtain ⟨heap₁, heap₂, heap₃, hrun₁, hrun₂, hrun₃, hpushed⟩ := Links.pushed_of_live node_links ⟨_, hget⟩ hlive
  have hrun₁ : cache.heap.modify a (.set_prev none) = some heap₁ := hrun₁
  have hrun₂ : heap₁.modify a (.set_next cache.head) = some heap₂ := hrun₂
  have hrun₃ : heap₂.modify_if cache.head (.set_prev (some a)) = some heap₃ := hrun₃
  obtain ⟨first, hfirst, -⟩ := h.chain_of_lt (hash_lt key)
  let heap₄ := heap₃.update_if (some a) (.set_next first)
  have hlive₃ : ∀ b, some a = some b → ∃ v, heap₃.get b = some v := fun b hb =>
    hpushed.same.live ⟨_, Option.some.inj hb ▸ hget⟩
  have hlast (b : Nat) : heap₄.field cache_node_t.next b =
      if some a = some b then some first else heap₃.field cache_node_t.next b :=
    @Links.next_store_next _ node_links _ _ hlive₃ first b
  have hnext : ∀ b ∈ lru, heap₄.field cache_node_t.next b = cache.heap.field cache_node_t.next b := by
    intro b hb
    have hba : b ≠ a := fun heq => hnew (heq ▸ hb)
    rw [hlast, if_neg fun heq => hba (Option.some.inj heq).symm]
    exact (hpushed.next b).trans (if_neg hba)
  have hsame : node_links.SameApart cache.heap heap₄ :=
    hpushed.same.trans (Links.sameApart_store_next heap₃ (some a) first)
  have hcontents := hsame.field contents_apart
  have hself : heap₄.field cache_node_t.contents a = some (key, data) := by
    rw [hcontents, Heap.field, hget]
    rfl
  have hback := hpushed.back h.back hnew
  rw [← @Links.prev_store_next _ node_links heap₃ (some a) first] at hback
  let cache₁ : lru_cache_t := { cache with
    heap := heap₃
    head := some a
    tail := if cache.tail = none then some a else cache.tail }
  refine ⟨cache₁, first, heap₄, ?_, hfirst, Heap.modify_if_of_live hlive₃ _, ⟨hback, ?_, ?_, ?_, ?_, ?_⟩, rfl, rfl⟩
  · rw [add_to_front]
    simp only [Option.bind_eq_bind, hrun₁, hrun₂, hrun₃, Option.bind_some, cache₁]
  · exact (h.shows.congr fun b _ => congrFun hcontents b).cons hself
  · exact List.nodup_cons.mpr ⟨lookup_eq_none_iff.mp hnone, h.keyed⟩
  · intro e he
    obtain rfl | he := List.mem_cons.mp he
    · exact hkey
    · exact h.fits e he
  · simp only [cache₁, List.length_set, h.table]
  · intro b q hq
    exact h.leads_insert hfirst ((hlast a).trans (if_pos rfl)) hself hnext hcontents hq

end Insert

end csystems.file_cache
