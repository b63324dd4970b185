import CSystems.FileCache.Eviction

open clib.hash_table clib.heap clib.run clib.string

namespace csystems.file_cache.cached_files

/-- `chains b` are the entries of bucket `b`. Every buffer of the pool is held by
one entry or free. -/
structure Owned (cache : file_cache_t) (chains : Nat → List Nat) (held free : List Nat) : Prop where
  pool : cache.buffer_pool.Sound free
  size : cache.buffer_pool.buffers.length = POOL_SIZE
  length : cache.files.length = CACHE_SIZE
  chain : ∀ b head, cache.files[b]? = some head → Chain (cache.heap.field cached_file_t.next) head (chains b)
  nodup : (cells chains).Nodup
  buffers : ((cells chains).map (cache.heap.field cached_file_t.buffer)).Perm (held.map some)
  perm : (held ++ free).Perm (List.range POOL_SIZE)

/-- The entry at which a walk along the chain of the name stops. -/
def first_named (cache : file_cache_t) (chains : Nat → List Nat) (filename : List UInt8) : Option Nat :=
  (chains (hash filename)).find? fun a => decide (cache.named filename a = some true)

/-- What a removal does to the entries. -/
inductive Removal (cache : file_cache_t) (chains : Nat → List Nat) : file_cache_t → (Nat → List Nat) → Prop where
  | unchanged : Removal cache chains cache chains
  | entry {b a : Nat} (pool : buffer_pool_t) (hb : b < CACHE_SIZE) (ha : a ∈ chains b) :
      Removal cache chains (removed cache chains pool b a) (Function.update chains b ((chains b).erase a))

/-- The file can be read and there is memory for its entry. -/
def outcome_t.Loads (out : outcome_t) : Prop := out.malloc = true ∧ ∃ data hlt, out.read = .bytes data hlt

/-- What a read does to the entries, and the buffer that it returns, with the buffers
that are free before. -/
inductive Read (cache : file_cache_t) (chains : Nat → List Nat) (free : List Nat) (filename : List UInt8)
    (out : outcome_t) : file_cache_t → (Nat → List Nat) → Option Nat → Prop where
  | hit {cached : Nat} {f : cached_file_t} (hfirst : first_named cache chains filename = some cached)
      (hf : cache.heap.get cached = some f) :
      Read cache chains free filename out
        { cache with heap := cache.heap.update cached (.set_last_accessed out.now) } chains (some f.buffer)
  | failed (pool : buffer_pool_t) (hfirst : first_named cache chains filename = none)
      (hfailed : ¬(out.Loads ∧ free ≠ [])) :
      Read cache chains free filename out { cache with buffer_pool := pool } chains none
  | loaded {f : cached_file_t} (pool : buffer_pool_t) (hfirst : first_named cache chains filename = none)
      (hloads : out.Loads) (hname : f.filename = copied FILENAME_SIZE filename) :
      Read cache chains free filename out
        { buffer_pool := pool
          files := cache.files.set (hash filename) (some cache.heap.next)
          cached_files_count := cache.cached_files_count + 1
          heap := (cache.heap.alloc f).2 }
        (Function.update chains (hash filename) (cache.heap.next :: chains (hash filename))) (some f.buffer)

/-- What a call does to the entries. -/
inductive Effect (cache : file_cache_t) (chains : Nat → List Nat) (free : List Nat) :
    call_t → file_cache_t → (Nat → List Nat) → Option Nat → Prop where
  | read {filename : List UInt8} {out : outcome_t} {cache' : file_cache_t} {chains' : Nat → List Nat}
      {result : Option Nat} (h : Read cache chains free filename out cache' chains' result) :
      Effect cache chains free (.read_file_cached filename out) cache' chains' result
  | removal {c : call_t} {cache' : file_cache_t} {chains' : Nat → List Nat}
      (hc : ∀ filename out, c ≠ .read_file_cached filename out) (h : Removal cache chains cache' chains') :
      Effect cache chains free c cache' chains' none

section Owned

variable {cache : file_cache_t} {chains : Nat → List Nat} {held free : List Nat}

theorem Owned.live (h : Owned cache chains held free) {a : Nat} (ha : a ∈ cells chains) :
    ∃ f, cache.heap.get a = some f ∧ f.buffer ∈ held := by
  have hmem : cache.heap.field cached_file_t.buffer a ∈ held.map some :=
    h.buffers.subset (List.mem_map_of_mem ha)
  obtain ⟨buffer, hbuffer, hfield⟩ := List.mem_map.mp hmem
  obtain ⟨f, hf, rfl⟩ := Heap.field_eq_some hfield.symm
  exact ⟨f, hf, hbuffer⟩

theorem Owned.ne_next (h : Owned cache chains held free) {a : Nat} (ha : a ∈ cells chains) : a ≠ cache.heap.next := by
  obtain ⟨f, hf, -⟩ := h.live ha
  exact Nat.ne_of_lt (Heap.lt_next_of_get hf)

/-- The buffers of entries are not free. -/
theorem Owned.held_not_free (h : Owned cache chains held free) {buffer : Nat} (hheld : buffer ∈ held) :
    buffer ∉ free ∧ buffer < cache.buffer_pool.buffers.length := by
  have hnodup : (held ++ free).Nodup := h.perm.nodup_iff.mpr List.nodup_range
  refine ⟨fun hfree => (List.nodup_append.mp hnodup).2.2 buffer hheld buffer hfree rfl, ?_⟩
  rw [h.size]
  exact List.mem_range.mp (h.perm.subset (List.mem_append_left _ hheld))

theorem Owned.filed (h : Owned cache chains held free) : Filed cache chains := by
  refine ⟨h.length, h.chain, h.nodup, fun a ha => ?_⟩
  obtain ⟨f, hf, hheld⟩ := h.live ha
  exact ⟨f, hf, (h.held_not_free hheld).2⟩

/-- Stores that leave the links and the buffers of the entries. -/
theorem Owned.congr (h : Owned cache chains held free) {heap : Heap cached_file_t}
    (hnext : heap.field cached_file_t.next = cache.heap.field cached_file_t.next)
    (hbuffer : heap.field cached_file_t.buffer = cache.heap.field cached_file_t.buffer) :
    Owned { cache with heap := heap } chains held free := by
  refine ⟨h.pool, h.size, h.length, ?_, h.nodup, ?_, h.perm⟩
  · intro b head hhead
    rw [hnext]
    exact h.chain b head hhead
  · rw [hbuffer]
    exact h.buffers

/-- Another state of the pool with the same free buffers. -/
theorem Owned.set_pool (h : Owned cache chains held free) {pool : buffer_pool_t} {free' : List Nat}
    (hpool : pool.Sound free') (hlength : pool.buffers.length = cache.buffer_pool.buffers.length)
    (hperm : free'.Perm free) : Owned { cache with buffer_pool := pool } chains held free' :=
  ⟨hpool, hlength.trans h.size, h.length, h.chain, h.nodup, h.buffers, (hperm.append_left held).trans h.perm⟩

/-- A read that fails puts the buffer it had acquired back where it was. -/
theorem give_back_owned {i : Nat} (h : Owned cache chains held (i :: free)) {pool : buffer_pool_t}
    (hpool : pool.Sound free) (hlength : pool.buffers.length = cache.buffer_pool.buffers.length) :
    ∃ pool', give_back { cache with buffer_pool := pool } i = some ({ cache with buffer_pool := pool' }, none) ∧
      Owned { cache with buffer_pool := pool' } chains held (i :: free) := by
  obtain ⟨hi, -⟩ := List.nodup_cons.mp h.pool.chain.nodup
  have hlt : i < pool.buffers.length := hlength ▸ h.pool.lt List.mem_cons_self
  obtain ⟨pool', hrelease, hpool', hlength'⟩ := release_buffer_held hpool hlt hi
  refine ⟨pool', ?_, h.set_pool hpool' (hlength'.trans hlength) (List.Perm.refl _)⟩
  simp [give_back, hrelease]

/-- A new entry in front of its bucket holds the buffer. -/
theorem Owned.add_entry {i : Nat} (h : Owned cache chains held (i :: free)) {pool : buffer_pool_t}
    (hpool : pool.Sound free) (hlength : pool.buffers.length = cache.buffer_pool.buffers.length) {b : Nat}
    {head : Option Nat} (hhead : cache.files[b]? = some head) {f : cached_file_t} (hnext : f.next = head)
    (hbuffer : f.buffer = i) (count : Int32) :
    Owned { buffer_pool := pool
            files := cache.files.set b (some cache.heap.next)
            cached_files_count := count
            heap := (cache.heap.alloc f).2 }
      (Function.update chains b (cache.heap.next :: chains b)) (i :: held) free := by
  have hlt : b < cache.files.length := (List.getElem?_eq_some_iff.mp hhead).1
  have hb : b < CACHE_SIZE := h.length ▸ hlt
  have hsame {β : Type} (g : cached_file_t → β) {a : Nat} (ha : a ∈ cells chains) :
      (cache.heap.alloc f).2.field g a = cache.heap.field g a := Heap.field_alloc_of_ne _ _ _ (h.ne_next ha)
  have hcells : (cells (Function.update chains b (cache.heap.next :: chains b))).Perm
      (cache.heap.next :: cells chains) := cells_push hb
  have hnew : cache.heap.next ∉ cells chains := fun hmem => h.ne_next hmem rfl
  refine ⟨hpool, hlength.trans h.size, ?_, ?_, ?_, ?_, ?_⟩
  · rw [List.length_set]
    exact h.length
  · intro c first hfirst
    by_cases hc : c = b
    · subst c
      rw [List.getElem?_set_self hlt] at hfirst
      rw [Function.update_self, ← Option.some.inj hfirst]
      refine (h.chain b head hhead).push (fun hmem => hnew (mem_cells hb hmem)) ?_ fun a ha =>
        hsame _ (mem_cells hb ha)
      rw [Heap.field_alloc_self, hnext]
    · rw [List.getElem?_set_ne (Ne.symm hc)] at hfirst
      rw [Function.update_of_ne hc]
      have hc' : c < CACHE_SIZE := h.length ▸ (List.getElem?_eq_some_iff.mp hfirst).1
      exact (h.chain c first hfirst).congr fun a ha => hsame _ (mem_cells hc' ha)
  · exact hcells.nodup_iff.mpr (List.nodup_cons.mpr ⟨hnew, h.nodup⟩)
  · refine (hcells.map _).trans ?_
    rw [List.map_cons, Heap.field_alloc_self, hbuffer, List.map_congr_left fun a ha => hsame _ ha]
    exact h.buffers.cons _
  · exact (List.perm_middle.symm).trans h.perm

/-- Whatever happens after a miss, the buffers stay owned. -/
theorem load_file_owned (h : Owned cache chains held free) (out : outcome_t) {filename : List UInt8}
    (hfirst : first_named cache chains filename = none) {head : Option Nat}
    (hhead : cache.files[hash filename]? = some head) :
    ∃ cache' result chains' held' free', load_file out cache filename head = some (cache', result) ∧
      Owned cache' chains' held' free' ∧ Read cache chains free filename out cache' chains' result := by
  unfold load_file
  cases free with
  | nil =>
    rw [acquire_buffer_nil h.pool]
    exact ⟨cache, none, chains, held, [], rfl, h, .failed cache.buffer_pool hfirst fun hloads => hloads.2 rfl⟩
  | cons i free =>
    obtain ⟨pool, hacquire, hpool, hlength⟩ := acquire_buffer_cons h.pool
    have hback {pool' : buffer_pool_t} (hpool' : pool'.Sound free)
        (hlength' : pool'.buffers.length = cache.buffer_pool.buffers.length) (hfailed : ¬out.Loads) :
        ∃ cache' result chains' held' free', give_back { cache with buffer_pool := pool' } i = some (cache', result) ∧
          Owned cache' chains' held' free' ∧ Read cache chains (i :: free) filename out cache' chains' result := by
      obtain ⟨pool'', hgive, howned⟩ := give_back_owned h hpool' hlength'
      exact ⟨_, none, chains, held, i :: free, hgive, howned, .failed pool'' hfirst fun hloads => hfailed hloads.1⟩
    rw [hacquire, Option.bind_eq_bind, Option.bind_some]
    dsimp only
    cases hread : out.read with
    | open_failed => exact hback hpool hlength (by simp [outcome_t.Loads, hread])
    | read_failed => exact hback hpool hlength (by simp [outcome_t.Loads, hread])
    | bytes data hdata =>
      have hlt : i < pool.buffers.length := hlength ▸ h.pool.lt List.mem_cons_self
      obtain ⟨pool', hfill, hpool', hlength'⟩ := fill_buffer_sound hpool hlt data
      dsimp only
      rw [hfill, Option.bind_eq_bind, Option.bind_some]
      split
      · next hmalloc =>
        exact ⟨_, _, _, _, _, rfl, h.add_entry hpool' (hlength'.trans hlength) hhead rfl rfl _,
          .loaded (f := ⟨_, i, _, _, _⟩) pool' hfirst ⟨hmalloc, data, hdata, hread⟩ rfl⟩
      · next hmalloc => exact hback hpool' (hlength'.trans hlength) fun hloads => hmalloc hloads.1

/-- Every comparison of a walk along a chain reads a live entry. -/
theorem Owned.named_eq (h : Owned cache chains held free) (filename : List UInt8) {b : Nat} (hb : b < CACHE_SIZE) :
    ∀ a ∈ chains b, cache.named filename a = some (decide (cache.named filename a = some true)) := by
  intro a ha
  obtain ⟨f, hf, -⟩ := h.live (mem_cells hb ha)
  simp [file_cache_t.named, Heap.field, hf]

/-- A hit stores the time of the access. -/
theorem read_file_cached_hit (h : Owned cache chains held free) (out : outcome_t) {filename : List UInt8}
    {cached : Nat} (hfirst : first_named cache chains filename = some cached) {f : cached_file_t}
    (hf : cache.heap.get cached = some f) :
    read_file_cached out cache filename =
      some ({ cache with heap := cache.heap.update cached (.set_last_accessed out.now) }, some f.buffer) := by
  have hb := hash_lt filename
  obtain ⟨head, hhead, hchain⟩ := h.filed.files_get hb
  have hbuffer := cache.heap.field_update_of_eq cached (g := cached_file_t.set_last_accessed out.now)
    (f := cached_file_t.buffer) fun _ => rfl
  have hread : cache.heap.field cached_file_t.buffer cached = some f.buffer := by simp [Heap.field, hf]
  have hwalk := hchain.find_cell_eq (h.named_eq filename hb) (h.filed.length_lt hb)
  rw [← first_named, hfirst] at hwalk
  rw [read_file_cached, hhead, Option.bind_eq_bind, Option.bind_some, hwalk, Option.bind_eq_bind, Option.bind_some]
  simp [Heap.modify_of_get hf, hbuffer, hread]

theorem read_file_cached_owned (h : Owned cache chains held free) (out : outcome_t) (filename : List UInt8) :
    ∃ cache' result chains' held' free', read_file_cached out cache filename = some (cache', result) ∧
      Owned cache' chains' held' free' ∧ Read cache chains free filename out cache' chains' result := by
  have hb := hash_lt filename
  obtain ⟨head, hhead, hchain⟩ := h.filed.files_get hb
  cases hfirst : first_named cache chains filename with
  | none =>
    have hwalk := hchain.find_cell_eq (h.named_eq filename hb) (h.filed.length_lt hb)
    rw [← first_named, hfirst] at hwalk
    rw [read_file_cached, hhead, Option.bind_eq_bind, Option.bind_some, hwalk, Option.bind_eq_bind, Option.bind_some]
    exact load_file_owned h out hfirst hhead
  | some cached =>
    obtain ⟨f, hf, -⟩ := h.live (mem_cells hb (List.mem_of_find?_eq_some hfirst))
    have hnext := cache.heap.field_update_of_eq cached (g := cached_file_t.set_last_accessed out.now)
      (f := cached_file_t.next) fun _ => rfl
    have hbuffer := cache.heap.field_update_of_eq cached (g := cached_file_t.set_last_accessed out.now)
      (f := cached_file_t.buffer) fun _ => rfl
    exact ⟨_, some f.buffer, chains, held, free, read_file_cached_hit h out hfirst hf, h.congr hnext hbuffer,
      .hit hfirst hf⟩

theorem Owned.removed (h : Owned cache chains held free) {b a : Nat} (hb : b < CACHE_SIZE) (ha : a ∈ chains b)
    {f : cached_file_t} (hf : cache.heap.get a = some f) (hheld : f.buffer ∈ held) {pool : buffer_pool_t}
    (hpool : pool.Sound (f.buffer :: free)) (hlength : pool.buffers.length = cache.buffer_pool.buffers.length) :
    Owned (removed cache chains pool b a) (Function.update chains b ((chains b).erase a)) (held.erase f.buffer)
      (f.buffer :: free) := by
  have hcells : (cells chains).Perm (a :: cells (Function.update chains b ((chains b).erase a))) := cells_erase hb ha
  obtain ⟨hnew, -⟩ := List.nodup_cons.mp (hcells.nodup_iff.mp h.nodup)
  have hfiled := h.filed.removed hb ha hlength
  refine ⟨hpool, hlength.trans h.size, hfiled.length, hfiled.chain, hfiled.nodup, ?_, ?_⟩
  · have hkept : ∀ c ∈ cells (Function.update chains b ((chains b).erase a)),
        (cached_files.removed cache chains pool b a).heap.field cached_file_t.buffer c =
          cache.heap.field cached_file_t.buffer c := by
      intro c hc
      have hne : c ≠ a := fun heq => hnew (heq ▸ hc)
      exact field_unlinked cache.heap (fun p (g : cached_file_t) => (rfl : (g.set_next p).buffer = g.buffer)) _ hne
    rw [List.map_congr_left hkept]
    have hcons := ((hcells.map (cache.heap.field cached_file_t.buffer)).symm.trans h.buffers).trans
      ((List.perm_cons_erase hheld).map some)
    have hself : cache.heap.field cached_file_t.buffer a = some f.buffer := by simp [Heap.field, hf]
    rw [List.map_cons, List.map_cons, hself] at hcons
    exact (List.perm_cons _).mp hcons
  · have hmove : (held.erase f.buffer ++ f.buffer :: free).Perm (held ++ free) :=
      List.perm_middle.trans ((List.perm_cons_erase hheld).symm.append_right free)
    exact hmove.trans h.perm

/-- Removing an entry gives its buffer back. -/
theorem remove_entry_owned (h : Owned cache chains held free) {b a : Nat} (hb : b < CACHE_SIZE) (ha : a ∈ chains b) :
    ∃ cache' chains' held' free', remove_entry cache b (pred (chains b) a) a = some cache' ∧
      Owned cache' chains' held' free' ∧ Removal cache chains cache' chains' := by
  obtain ⟨f, hf, hheld⟩ := h.live (mem_cells hb ha)
  obtain ⟨hfree, hlt⟩ := h.held_not_free hheld
  obtain ⟨pool, hrelease, hpool, hlength⟩ := release_buffer_held h.pool hlt hfree
  exact ⟨removed cache chains pool b a, _, held.erase f.buffer, f.buffer :: free,
    remove_entry_eq h.filed hb ha hf hrelease, h.removed hb ha hf hheld hpool hlength, .entry pool hb ha⟩

theorem remove_cache_file_owned (h : Owned cache chains held free) (filename : List UInt8) :
    ∃ cache' chains' held' free', remove_cache_file cache filename = some cache' ∧
      Owned cache' chains' held' free' ∧ Removal cache chains cache' chains' := by
  have hb := hash_lt filename
  obtain ⟨head, hhead, hchain⟩ := h.filed.files_get hb
  rw [remove_cache_file, hhead, Option.bind_eq_bind, Option.bind_some,
    hchain.find_prev_eq (h.named_eq filename hb) (h.filed.length_lt hb), Option.bind_eq_bind, Option.bind_some]
  cases hfind : (chains (hash filename)).find? fun a => decide (cache.named filename a = some true) with
  | none => exact ⟨cache, chains, held, free, rfl, h, .unchanged⟩
  | some a =>
    have ha : a ∈ chains (hash filename) := List.mem_of_find?_eq_some hfind
    have hprev : (if (chains (hash filename)).head? = some a then none else pred (chains (hash filename)) a) =
        pred (chains (hash filename)) a := by
      split
      · next hfirst => exact ((pred_eq_none_iff hchain.nodup ha).mpr hfirst).symm
      · rfl
    rw [Option.map_some, hprev]
    exact remove_entry_owned h hb ha

theorem remove_by_time_owned (h : Owned cache chains held free) {better : Int64 → Int64 → Bool}
    (hbetter : StrictOrder better) :
    ∃ cache' chains' held' free', remove_by_time better cache = some cache' ∧
      Owned cache' chains' held' free' ∧ Removal cache chains cache' chains' := by
  obtain ⟨best, hscan, hbest, -⟩ := scan_files_eq h.filed hbetter
  rw [remove_by_time, hscan, Option.bind_eq_bind, Option.bind_some]
  cases best with
  | none => exact ⟨cache, chains, held, free, rfl, h, .unchanged⟩
  | some e =>
    obtain ⟨hindex, hentry, hprev⟩ := hbest e rfl
    dsimp only
    rw [hprev]
    exact remove_entry_owned h hindex hentry

theorem call_owned (h : Owned cache chains held free) (c : call_t) :
    ∃ cache' result chains' held' free', call cache c = some (cache', result) ∧
      Owned cache' chains' held' free' ∧ Effect cache chains free c cache' chains' result := by
  cases c with
  | read_file_cached filename out =>
    obtain ⟨cache', result, chains', held', free', hread, howned, heffect⟩ := read_file_cached_owned h out filename
    exact ⟨cache', result, chains', held', free', hread, howned, .read heffect⟩
  | remove_cache_file filename =>
    obtain ⟨cache', chains', held', free', hremove, howned, heffect⟩ := remove_cache_file_owned h filename
    exact ⟨cache', none, chains', held', free', by rw [call, hremove]; rfl, howned, .removal nofun heffect⟩
  | remove_lru_cached_file =>
    obtain ⟨cache', chains', held', free', hremove, howned, heffect⟩ :=
      remove_by_time_owned h strictOrder_lt
    exact ⟨cache', none, chains', held', free', by rw [call, remove_lru_cached_file, hremove]; rfl, howned,
      .removal nofun heffect⟩
  | remove_mru_cached_file =>
    obtain ⟨cache', chains', held', free', hremove, howned, heffect⟩ :=
      remove_by_time_owned h strictOrder_gt
    exact ⟨cache', none, chains', held', free', by rw [call, remove_mru_cached_file, hremove]; rfl, howned,
      .removal nofun heffect⟩

end Owned

theorem create_file_cache_owned (memory : Nat → Vector UInt8 BUFFER_SIZE) (count : Int32) :
    Owned (create_file_cache memory count) (fun _ => []) [] (List.range POOL_SIZE) := by
  have hcells : cells (fun _ => []) = [] := List.flatMap_eq_nil_iff.mpr fun _ _ => rfl
  refine ⟨create_buffer_pool_sound memory (by decide), by simp [create_file_cache, create_buffer_pool],
    List.length_replicate, ?_, by simp [hcells], by simp [hcells], by simp⟩
  intro b head hhead
  obtain ⟨-, rfl⟩ := List.getElem?_eq_some_iff.mp hhead
  simpa [create_file_cache] using chain_nil _

/-- No sequence of calls goes wrong, and what the effect of every call preserves holds
after it. -/
theorem exec_owned {D : call_t → Prop} {P : file_cache_t → (Nat → List Nat) → Prop}
    (hstep : ∀ {cache cache' : file_cache_t} {chains chains' : Nat → List Nat} {held free : List Nat} {c : call_t}
      {result : Option Nat}, D c → Owned cache chains held free → Effect cache chains free c cache' chains' result →
        P cache chains → P cache' chains')
    {cache : file_cache_t} {chains : Nat → List Nat} {held free : List Nat} (h : Owned cache chains held free)
    (hP : P cache chains) (calls : List call_t) (hcalls : ∀ c ∈ calls, D c) :
    ∃ cache' results chains' held' free', exec call cache calls = some (cache', results) ∧
      Owned cache' chains' held' free' ∧ P cache' chains' := by
  obtain ⟨cache', results, hexec, chains', held', free', howned, hP'⟩ :=
    exec_total D (fun cache => ∃ chains held free, Owned cache chains held free ∧ P cache chains)
      (fun cache c hc ⟨chains, held, free, howned, hP⟩ => by
        obtain ⟨cache', result, chains', held', free', hcall, howned', heffect⟩ := call_owned howned c
        exact ⟨cache', result, hcall, chains', held', free', howned', hstep hc howned heffect hP⟩)
      ⟨chains, held, free, h, hP⟩ hcalls
  exact ⟨cache', results, chains', held', free', hexec, howned, hP'⟩

/-- The entries in all bucket chains. -/
def Entries (cache : file_cache_t) (entries : List Nat) : Prop :=
  ∃ chains, (∀ b head, cache.files[b]? = some head → Chain (cache.heap.field cached_file_t.next) head (chains b)) ∧
    entries = (List.range CACHE_SIZE).flatMap chains

/-- Entry by entry `held` are the buffers of the entries, and `free` are the
buffers of the free list. Every buffer of the pool is one or the other, once. -/
structure BuffersExact (cache : file_cache_t) (entries held free : List Nat) : Prop where
  in_chains : Entries cache entries
  held_by : entries.map (cache.heap.field cached_file_t.buffer) = held.map some
  distinct : held.Nodup
  in_use : ∀ i, i ∈ held ↔ ∃ b : buffer_t, cache.buffer_pool.buffers[i]? = some b ∧ b.is_free = false
  free_list : Chain cache.buffer_pool.next_of cache.buffer_pool.free_list free
  free_once : free.Nodup
  free_iff : ∀ i, i ∈ free ↔ i < POOL_SIZE ∧ i ∉ held
  count : cache.buffer_pool.free_count + entries.length = POOL_SIZE

private theorem map_eq_map_some {α β : Type} {f : α → Option β} {xs : List α} (hsome : ∀ a ∈ xs, ∃ b, f a = some b) :
    ∃ ys : List β, xs.map f = ys.map some := by
  induction xs with
  | nil => exact ⟨[], rfl⟩
  | cons a xs ih =>
    obtain ⟨b, hb⟩ := hsome a List.mem_cons_self
    obtain ⟨ys, hys⟩ := ih fun a' ha' => hsome a' (List.mem_cons_of_mem _ ha')
    exact ⟨b :: ys, by rw [List.map_cons, List.map_cons, hb, hys]⟩

theorem Owned.exact {cache : file_cache_t} {chains : Nat → List Nat} {held free : List Nat}
    (h : Owned cache chains held free) : ∃ held, BuffersExact cache (cells chains) held free := by
  obtain ⟨held', hheld'⟩ := map_eq_map_some fun a (ha : a ∈ cells chains) => by
    obtain ⟨f, hf, -⟩ := h.live ha
    exact (⟨f.buffer, by simp [Heap.field, hf]⟩ : ∃ i, cache.heap.field cached_file_t.buffer a = some i)
  have hsame : held'.Perm held := (List.map_perm_map_iff (fun _ _ h => Option.some.inj h)).mp (hheld' ▸ h.buffers)
  have hperm : (held' ++ free).Perm (List.range POOL_SIZE) := (hsame.append_right free).trans h.perm
  have hnodup : (held' ++ free).Nodup := hperm.nodup_iff.mpr List.nodup_range
  obtain ⟨hdistinct, honce, hdisjoint⟩ := List.nodup_append.mp hnodup
  have hmem (i : Nat) : i < POOL_SIZE ↔ i ∈ held' ∨ i ∈ free := by
    rw [← List.mem_range, ← hperm.mem_iff, List.mem_append]
  refine ⟨held', ⟨chains, h.chain, rfl⟩, hheld', hdistinct, ?_, h.pool.chain, honce, ?_, ?_⟩
  · intro i
    constructor
    · intro hi
      obtain ⟨hfree, hlt⟩ := h.held_not_free (hsame.subset hi)
      refine ⟨_, List.getElem?_eq_getElem hlt, ?_⟩
      rw [Bool.eq_false_iff]
      exact fun htrue => hfree ((h.pool.is_free i _ (List.getElem?_eq_getElem hlt)).mp htrue)
    · rintro ⟨b, hb, hfalse⟩
      have hlt : i < POOL_SIZE := h.size ▸ (List.getElem?_eq_some_iff.mp hb).1
      rcases (hmem i).mp hlt with hi | hi
      · exact hi
      · rw [(h.pool.is_free i b hb).mpr hi] at hfalse
        cases hfalse
  · intro i
    rw [hmem]
    constructor
    · intro hi
      exact ⟨Or.inr hi, fun hheld => hdisjoint i hheld i hi rfl⟩
    · rintro ⟨hi | hi, hnot⟩
      · exact absurd hi hnot
      · exact hi
  · have hlength := hperm.length_eq
    have hcells : (cells chains).length = held'.length := by simpa using congrArg List.length hheld'
    rw [List.length_append, List.length_range] at hlength
    rw [h.pool.count]
    omega

/-- No sequence of calls goes wrong, loses a buffer or gives one to two entries. -/
theorem buffers_owned (memory : Nat → Vector UInt8 BUFFER_SIZE) (count : Int32) (calls : List call_t) :
    ∃ cache results entries held free, exec call (create_file_cache memory count) calls = some (cache, results) ∧
      BuffersExact cache entries held free := by
  obtain ⟨cache, results, chains, held, free, hexec, howned, -⟩ :=
    exec_owned (D := fun _ => True) (P := fun _ _ => True) (fun _ _ _ _ => trivial)
      (create_file_cache_owned memory count) trivial calls fun _ _ => trivial
  obtain ⟨held', hexact⟩ := howned.exact
  exact ⟨cache, results, cells chains, held', free, hexec, hexact⟩

/-- The counter is ahead of the number of entries by `surplus`. -/
def Ahead (surplus : Int32) (cache : file_cache_t) (chains : Nat → List Nat) : Prop :=
  cache.cached_files_count = surplus + Int32.ofNat (cells chains).length

section Step

variable {surplus : Int32} {cache cache' : file_cache_t} {chains chains' : Nat → List Nat}

theorem Ahead.entered (h : Ahead surplus cache chains) (hlength : (cells chains').length = (cells chains).length + 1)
    (hcount : cache'.cached_files_count = cache.cached_files_count + 1) : Ahead surplus cache' chains' := by
  rw [Ahead, hcount, h, hlength, Int32.ofNat_add, Int32.add_assoc]
  rfl

theorem Ahead.left (h : Ahead surplus cache chains) (hlength : (cells chains).length = (cells chains').length + 1)
    (hcount : cache'.cached_files_count = cache.cached_files_count - 1) : Ahead surplus cache' chains' := by
  have hbefore : cache.cached_files_count = surplus + Int32.ofNat ((cells chains').length + 1) := hlength ▸ h
  rw [Ahead, hcount, Int32.sub_eq_iff_eq_add, hbefore, Int32.ofNat_add, Int32.add_assoc]
  rfl

theorem Ahead.read {free : List Nat} {filename : List UInt8} {out : outcome_t} {result : Option Nat}
    (h : Ahead surplus cache chains) (hread : Read cache chains free filename out cache' chains' result) :
    Ahead surplus cache' chains' := by
  cases hread with
  | hit hfirst hf => exact h
  | failed pool hfirst hfailed => exact h
  | loaded pool hfirst hloads hname => exact h.entered (cells_push (hash_lt filename)).length_eq rfl

theorem Ahead.removal (h : Ahead surplus cache chains) (hremoval : Removal cache chains cache' chains') :
    Ahead surplus cache' chains' := by
  cases hremoval with
  | unchanged => exact h
  | entry pool hb ha => exact h.left (cells_erase hb ha).length_eq rfl

theorem Ahead.effect {free : List Nat} {c : call_t} {result : Option Nat} (h : Ahead surplus cache chains)
    (heffect : Effect cache chains free c cache' chains' result) : Ahead surplus cache' chains' := by
  cases heffect with
  | read hread => exact h.read hread
  | removal hc hremoval => exact h.removal hremoval

/-- No more files are cached than the counter can count. -/
theorem Ahead.exact_iff {held free : List Nat} (h : Ahead surplus cache chains)
    (howned : Owned cache chains held free) :
    cache.cached_files_count.toInt = (cells chains).length ↔ surplus = 0 := by
  have hle : (cells chains).length < 2 ^ 31 := by
    obtain ⟨held', hexact⟩ := howned.exact
    have hcount := hexact.count
    rw [POOL_SIZE] at hcount
    omega
  rw [← Int32.add_left_inj (Int32.ofNat (cells chains).length), Int32.zero_add, ← h, ← Int32.toInt_inj,
    Int32.toInt_ofNat_of_lt hle]

end Step

/-- However `malloc` left the counter, it stays off by that much. -/
theorem cached_files_count_iff (memory : Nat → Vector UInt8 BUFFER_SIZE) (count : Int32) (calls : List call_t) :
    ∃ cache results entries, exec call (create_file_cache memory count) calls = some (cache, results) ∧
      Entries cache entries ∧ (cache.cached_files_count.toInt = entries.length ↔ count = 0) := by
  have hcreated : Ahead count (create_file_cache memory count) fun _ => [] := by
    have hcells : cells (fun _ => []) = [] := List.flatMap_eq_nil_iff.mpr fun _ _ => rfl
    rw [Ahead, hcells]
    exact (Int32.add_zero count).symm
  obtain ⟨cache, results, chains, held, free, hexec, howned, hahead⟩ :=
    exec_owned (D := fun _ => True) (P := Ahead count) (fun _ _ heffect h => h.effect heffect)
      (create_file_cache_owned memory count) hcreated calls fun _ _ => trivial
  exact ⟨cache, results, cells chains, hexec, ⟨chains, howned.chain, rfl⟩, hahead.exact_iff howned⟩

/-- Before the first call the counter holds what was in memory. -/
theorem cached_files_count_garbage :
    ∃ cache results entries,
      exec call (create_file_cache (fun _ => Vector.replicate BUFFER_SIZE 0) 7) [] = some (cache, results) ∧
        Entries cache entries ∧ cache.cached_files_count.toInt ≠ entries.length := by
  refine ⟨_, [], [], rfl, ⟨fun _ => [], ?_, ?_⟩, by decide⟩
  · exact (create_file_cache_owned _ 7).chain
  · exact (List.flatMap_eq_nil_iff.mpr fun _ _ => rfl).symm

end csystems.file_cache.cached_files
