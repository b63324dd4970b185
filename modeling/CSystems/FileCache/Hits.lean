import Mathlib.Data.List.Find
import CSystems.FileCache.Ownership

open clib.hash_table clib.heap clib.string clib.run

namespace csystems.file_cache.cached_files

/-- A read of the name returns the buffer and takes none from the pool. -/
def Hits (cache : file_cache_t) (filename : List UInt8) (buffer : Nat) : Prop :=
  ∀ out, ∃ cache', read_file_cached out cache filename = some (cache', some buffer) ∧
    cache'.buffer_pool = cache.buffer_pool

/-- When a read of the name returned a buffer, there is an entry with that buffer. For
as long as the entry is in the cache, every further read of the name is a hit. The
calls in between are those allowed. -/
def FoundAgain (allowed : call_t → Prop) (filename : List UInt8) : Prop :=
  ∀ memory count before cache results out cached buffer,
    exec call (create_file_cache memory count) before = some (cache, results) →
    read_file_cached out cache filename = some (cached, some buffer) →
    ∃ entry, cached.heap.field cached_file_t.buffer entry = some buffer ∧
      ∀ calls later results', (∀ c ∈ calls, allowed c) → exec call cached calls = some (later, results') →
        (∃ f, later.heap.get entry = some f) → Hits later filename buffer

/-- A read of a longer name that is stored under `filename` in the same bucket. -/
def Shadows (filename : List UInt8) : call_t → Prop
  | .read_file_cached other _ =>
    c_str other ≠ c_str filename ∧ copied FILENAME_SIZE other = c_str filename ∧ hash other = hash filename
  | _ => False

/-- The walk for the name stops at the entry, and the entry has the buffer. -/
structure Found (filename : List UInt8) (entry buffer : Nat) (cache : file_cache_t) (chains : Nat → List Nat) :
    Prop where
  first : first_named cache chains filename = some entry
  buffer : cache.heap.field cached_file_t.buffer entry = some buffer

/-- The entry was removed. Its address is not handed out again. -/
def Gone (entry : Nat) (cache : file_cache_t) : Prop :=
  entry < cache.heap.next ∧ ¬∃ f, cache.heap.get entry = some f

theorem find?_erase_of_ne {xs : List Nat} {p : Nat → Bool} {a x : Nat} (hfind : xs.find? p = some x) (hne : a ≠ x) :
    (xs.erase a).find? p = some x := by
  induction xs with
  | nil => cases hfind
  | cons b xs ih =>
    rw [List.find?_cons] at hfind
    by_cases hba : b = a
    · subst hba
      rw [List.erase_cons_head]
      split at hfind
      · exact absurd (Option.some.inj hfind) hne
      · exact hfind
    · rw [List.erase_cons_tail (by simpa using hba), List.find?_cons]
      split at hfind
      · exact hfind
      · exact ih hfind

section Step

variable {filename : List UInt8} {entry buffer : Nat} {cache cache' : file_cache_t} {chains chains' : Nat → List Nat}
  {held free : List Nat}

theorem named_eq (a : Nat) : cache.named filename a =
    (cache.heap.field cached_file_t.filename a).map fun name => decide (strcmp name filename = 0) := by
  cases hget : cache.heap.get a <;> simp [file_cache_t.named, Heap.field, hget]

theorem first_named_congr (hchain : chains' (hash filename) = chains (hash filename))
    (hsame : ∀ a ∈ chains (hash filename),
      cache'.heap.field cached_file_t.filename a = cache.heap.field cached_file_t.filename a) :
    first_named cache' chains' filename = first_named cache chains filename := by
  rw [first_named, first_named, hchain]
  exact List.find?_congr fun a ha => by rw [named_eq, named_eq, hsame a ha]

/-- Only the string in a name counts. -/
theorem first_named_eq_of_c_str {other : List UInt8} (hstr : c_str other = c_str filename) :
    first_named cache chains other = first_named cache chains filename := by
  have hnamed : cache.named other = cache.named filename := by simp [file_cache_t.named, strcmp_eq_zero_iff, hstr]
  have hhash : hash other = hash filename := by simp [hash, hstr]
  rw [first_named, first_named, hhash, hnamed]

theorem c_str_copied (other : List UInt8) : c_str (copied FILENAME_SIZE other) = copied FILENAME_SIZE other :=
  c_str_eq_self fun hmem => ne_zero_of_mem_c_str (List.mem_of_mem_take hmem) rfl

theorem copied_of_length_lt {other : List UInt8} (h : (c_str other).length < FILENAME_SIZE) :
    copied FILENAME_SIZE other = c_str other := by
  rw [copied, List.take_of_length_le]
  omega

/-- A new entry does not come in front of the one that is found for the name. -/
theorem Found.read {other : List UInt8} {out : outcome_t} {result : Option Nat}
    (h : Found filename entry buffer cache chains) (howned : Owned cache chains held free)
    (hshadows : ¬Shadows filename (.read_file_cached other out))
    (hread : Read cache chains free other out cache' chains' result) :
    Found filename entry buffer cache' chains' := by
  cases hread with
  | @hit cached _ hfirst hf =>
    have hsame {β : Type} (g : cached_file_t → β) (hg : ∀ f, g (f.set_last_accessed out.now) = g f) (a : Nat) :
        (cache.heap.update cached (.set_last_accessed out.now)).field g a = cache.heap.field g a :=
      congrFun (cache.heap.field_update_of_eq cached hg) a
    exact ⟨(first_named_congr rfl fun a _ => hsame _ (fun _ => rfl) a).trans h.first,
      (hsame _ (fun _ => rfl) entry).trans h.buffer⟩
  | failed pool hfirst hfailed => exact ⟨h.first, h.buffer⟩
  | @loaded f pool hfirst hloads hname =>
    have hmem : entry ∈ chains (hash filename) := List.mem_of_find?_eq_some h.first
    have hsame {β : Type} (g : cached_file_t → β) {a : Nat} (ha : a ∈ chains (hash filename)) :
        (cache.heap.alloc f).2.field g a = cache.heap.field g a :=
      Heap.field_alloc_of_ne _ _ _ (howned.ne_next (mem_cells (hash_lt filename) ha))
    refine ⟨?_, (hsame _ hmem).trans h.buffer⟩
    by_cases hbucket : hash filename = hash other
    · have hdiffers : c_str f.filename ≠ c_str filename := by
        intro hcopied
        rw [hname, c_str_copied] at hcopied
        by_cases hstr : c_str other = c_str filename
        · rw [first_named_eq_of_c_str hstr, h.first] at hfirst
          cases hfirst
        · exact hshadows ⟨hstr, hcopied, hbucket.symm⟩
      have hnew : (cache.heap.alloc f).2.field cached_file_t.filename cache.heap.next = some f.filename :=
        Heap.field_alloc_self _ _ _
      have hne : ¬strcmp f.filename filename = 0 := mt (strcmp_eq_zero_iff _ _).mp hdiffers
      rw [first_named, hbucket, Function.update_self, ← hbucket,
        List.find?_cons_of_neg (by simp [named_eq, hnew, hne])]
      exact (List.find?_congr fun a ha => by rw [named_eq, named_eq, hsame _ ha]).trans h.first
    · exact (first_named_congr (Function.update_of_ne hbucket _ _) fun a ha => hsame _ ha).trans h.first

/-- Taking out an entry leaves those behind it and before it. -/
theorem Found.removal (h : Found filename entry buffer cache chains) (howned : Owned cache chains held free)
    (hremoval : Removal cache chains cache' chains') :
    Found filename entry buffer cache' chains' ∨ Gone entry cache' := by
  cases hremoval with
  | unchanged => exact Or.inl h
  | @entry b a pool hb ha =>
    have hmem : entry ∈ chains (hash filename) := List.mem_of_find?_eq_some h.first
    by_cases hentry : entry = a
    · subst hentry
      obtain ⟨f, hf, -⟩ := howned.live (mem_cells hb ha)
      exact Or.inr ⟨by simpa [removed, unlinked] using Heap.lt_next_of_get hf,
        by simp [removed, unlinked, Heap.get_erase]⟩
    · left
      have hsame {β : Type} (g : cached_file_t → β) (hg : ∀ p f, g (cached_file_t.set_next p f) = g f) {c : Nat}
          (hne : c ≠ a) : (unlinked cache.heap .set_next (chains b) a).field g c = cache.heap.field g c :=
        field_unlinked cache.heap hg _ hne
      refine ⟨?_, (hsame _ (fun _ _ => rfl) hentry).trans h.buffer⟩
      by_cases hbucket : hash filename = b
      · subst hbucket
        have hnodup : (chains (hash filename)).Nodup :=
          (List.nodup_flatMap.mp howned.nodup).1 _ (List.mem_range.mpr hb)
        have hfind := find?_erase_of_ne h.first (Ne.symm hentry)
        rw [first_named, Function.update_self]
        refine (List.find?_congr fun c hc => ?_).trans hfind
        rw [named_eq, named_eq, removed, hsame _ (fun _ _ => rfl) (hnodup.mem_erase_iff.mp hc).1]
      · refine (first_named_congr (Function.update_of_ne hbucket _ _) fun c hc => ?_).trans h.first
        refine hsame _ (fun _ _ => rfl) ?_
        rintro rfl
        exact hbucket (bucket_eq howned.nodup (hash_lt filename) hb hc ha)

/-- No call brings an entry back. -/
theorem Gone.effect {c : call_t} {result : Option Nat} (h : Gone entry cache)
    (heffect : Effect cache chains free c cache' chains' result) : Gone entry cache' := by
  obtain ⟨hlt, hgone⟩ := h
  cases heffect with
  | read hread =>
    cases hread with
    | hit hfirst hf => exact ⟨hlt, mt (Heap.live_update _ _ _).mp hgone⟩
    | failed pool hfirst hfailed => exact ⟨hlt, hgone⟩
    | loaded pool hfirst hloads hname =>
      refine ⟨Nat.lt_succ_of_lt hlt, ?_⟩
      rwa [Heap.get_alloc_of_ne _ _ (Nat.ne_of_lt hlt)]
  | removal hc hremoval =>
    cases hremoval with
    | unchanged => exact ⟨hlt, hgone⟩
    | @entry b a pool hb ha =>
      refine ⟨by simpa [removed, unlinked] using hlt, ?_⟩
      rw [removed, unlinked, Heap.get_erase]
      split
      · simp
      · exact mt (Heap.live_update_if _ _ _).mp hgone

theorem Found.effect {c : call_t} {result : Option Nat}
    (h : Found filename entry buffer cache chains ∨ Gone entry cache) (howned : Owned cache chains held free)
    (hshadows : ¬Shadows filename c)
    (heffect : Effect cache chains free c cache' chains' result) :
    Found filename entry buffer cache' chains' ∨ Gone entry cache' := by
  rcases h with h | h
  · cases heffect with
    | read hread => exact Or.inl (h.read howned hshadows hread)
    | removal hc hremoval => exact h.removal howned hremoval
  · exact Or.inr (h.effect heffect)

/-- The heap has an entry more, for the file of that name. -/
def Loaded (cache cached : file_cache_t) (filename : List UInt8) (buffer : Nat) : Prop :=
  ∃ f, cached.heap = (cache.heap.alloc f).2 ∧ f.filename = copied FILENAME_SIZE filename ∧ f.buffer = buffer

theorem Found.of_loaded {other : List UInt8} (h : Loaded cache cache' other buffer)
    (hhash : hash other = hash filename) (hname : copied FILENAME_SIZE other = c_str filename) :
    Found filename cache.heap.next buffer cache'
      (Function.update chains (hash other) (cache.heap.next :: chains (hash other))) := by
  obtain ⟨f, hheap, hcopied, rfl⟩ := h
  have hnew : cache'.heap.field cached_file_t.filename cache.heap.next = some f.filename := by
    rw [hheap, Heap.field_alloc_self]
  have hself : strcmp f.filename filename = 0 := by
    rw [strcmp_eq_zero_iff, hcopied, c_str_copied, hname]
  refine ⟨?_, by rw [hheap, Heap.field_alloc_self]⟩
  rw [first_named, ← hhash, Function.update_self, List.find?_cons_of_pos (by simp [named_eq, hnew, hself])]

/-- A name that fits is found under the entry that its read found or made. -/
theorem Found.of_read {out : outcome_t} (howned : Owned cache chains held free)
    (hlength : (c_str filename).length < FILENAME_SIZE)
    (hread : Read cache chains free filename out cache' chains' (some buffer)) :
    ∃ entry, Found filename entry buffer cache' chains' := by
  cases hread with
  | @hit cached f hfirst hf =>
    have hself : ¬Shadows filename (.read_file_cached filename out) := fun hshadows => hshadows.1 rfl
    exact ⟨cached, Found.read ⟨hfirst, by simp [Heap.field, hf]⟩ howned hself (.hit hfirst hf)⟩
  | @loaded f pool hfirst hloads hname =>
    exact ⟨_, Found.of_loaded ⟨f, rfl, hname, rfl⟩ rfl (copied_of_length_lt hlength)⟩

theorem Found.hits (h : Found filename entry buffer cache chains) (howned : Owned cache chains held free) :
    Hits cache filename buffer := by
  obtain ⟨f, hf, rfl⟩ := Heap.field_eq_some h.buffer
  intro out
  exact ⟨{ cache with heap := cache.heap.update entry (.set_last_accessed out.now) },
    read_file_cached_hit howned out h.first hf, rfl⟩

end Step

/-- A name that fits is found again while no longer name is stored under it. -/
theorem found_again_of_length_lt {allowed : call_t → Prop} {filename : List UInt8}
    (hlength : (c_str filename).length < FILENAME_SIZE) (hallowed : ∀ c, allowed c → ¬Shadows filename c) :
    FoundAgain allowed filename := by
  intro memory count before cache results out cached buffer hbefore hread
  obtain ⟨_, _, chains, held, free, hexec, howned, -⟩ :=
    exec_owned (D := fun _ => True) (P := fun _ _ => True) (fun _ _ _ _ => trivial)
      (create_file_cache_owned memory count) trivial before fun _ _ => trivial
  obtain ⟨rfl, rfl⟩ := Prod.mk.inj (Option.some.inj (hexec.symm.trans hbefore))
  obtain ⟨_, _, chains₁, held₁, free₁, hread', howned₁, heffect⟩ := read_file_cached_owned howned out filename
  obtain ⟨rfl, rfl⟩ := Prod.mk.inj (Option.some.inj (hread'.symm.trans hread))
  obtain ⟨entry, hfound⟩ := Found.of_read howned hlength heffect
  refine ⟨entry, hfound.buffer, ?_⟩
  intro calls later results' hcalls hlater hlive
  obtain ⟨_, _, chains₂, held₂, free₂, hexec₂, howned₂, hfound₂⟩ :=
    exec_owned (P := fun cache chains => Found filename entry buffer cache chains ∨ Gone entry cache)
      (fun hc howned heffect h => Found.effect h howned (hallowed _ hc) heffect) howned₁ (Or.inl hfound) calls hcalls
  obtain ⟨rfl, rfl⟩ := Prod.mk.inj (Option.some.inj (hexec₂.symm.trans hlater))
  rcases hfound₂ with hfound₂ | hgone
  · exact hfound₂.hits howned₂
  · exact absurd hlive hgone.2

section Misses

variable {filename : List UInt8} {cache : file_cache_t} {chains : Nat → List Nat} {held free : List Nat}

theorem Owned.length_eq (h : Owned cache chains held free) : (cells chains).length + free.length = POOL_SIZE := by
  have hbuffers := h.buffers.length_eq
  have hperm := h.perm.length_eq
  rw [List.length_map, List.length_map] at hbuffers
  rw [List.length_append, List.length_range] at hperm
  omega

/-- No two entries have one buffer. -/
theorem Owned.buffer_inj (h : Owned cache chains held free) {a a' buffer : Nat} (ha : a ∈ cells chains)
    (ha' : a' ∈ cells chains) (hbuffer : cache.heap.field cached_file_t.buffer a = some buffer)
    (hbuffer' : cache.heap.field cached_file_t.buffer a' = some buffer) : a = a' := by
  have hheld : held.Nodup := (List.nodup_append.mp (h.perm.nodup_iff.mpr List.nodup_range)).1
  have hnodup := h.buffers.nodup_iff.mpr (hheld.map fun _ _ => Option.some.inj)
  exact List.inj_on_of_nodup_map hnodup ha ha' (hbuffer.trans hbuffer'.symm)

/-- A miss with a free buffer loads the file. -/
theorem Owned.loads (h : Owned cache chains held free) {out : outcome_t} (hloads : out.Loads)
    (hfirst : first_named cache chains filename = none) (hroom : (cells chains).length < POOL_SIZE) :
    ∃ cached buffer held' free', read_file_cached out cache filename = some (cached, some buffer) ∧
      Loaded cache cached filename buffer ∧
      Owned cached (Function.update chains (hash filename) (cache.heap.next :: chains (hash filename))) held'
        free' := by
  have hfree : free ≠ [] := by
    rintro rfl
    have hlength := h.length_eq
    rw [List.length_nil] at hlength
    omega
  obtain ⟨cached, result, chains', held', free', hread, howned, heffect⟩ := read_file_cached_owned h out filename
  cases heffect with
  | hit hfirst' hf =>
    rw [hfirst] at hfirst'
    cases hfirst'
  | failed pool hfirst hfailed => exact absurd ⟨hloads, hfree⟩ hfailed
  | @loaded f pool hfirst hloads hname => exact ⟨_, _, held', free', hread, ⟨f, rfl, hname, rfl⟩, howned⟩

/-- The chains after the first read. -/
def first_chains (filename : List UInt8) : Nat → List Nat :=
  Function.update (fun _ => []) (hash filename) [0]

theorem length_first_chains (filename : List UInt8) : (cells (first_chains filename)).length = 1 := by
  have hempty : cells (fun _ => []) = [] := List.flatMap_eq_nil_iff.mpr fun _ _ => rfl
  have hpush : (cells (first_chains filename)).Perm (0 :: cells fun _ => []) := cells_push (hash_lt filename)
  rw [hpush.length_eq, hempty]
  rfl

/-- A file that can be read, of no bytes. -/
def empty_file : outcome_t := ⟨0, .bytes [] (by decide), true⟩

theorem empty_file_loads : empty_file.Loads := ⟨rfl, [], by decide, rfl⟩

/-- What is in the memory of the pool. -/
def blank (_ : Nat) : Vector UInt8 BUFFER_SIZE := Vector.replicate BUFFER_SIZE 0

/-- The first read loads the file. -/
theorem first_read (filename : List UInt8) : ∃ cached buffer held free,
    read_file_cached empty_file (create_file_cache blank 0) filename = some (cached, some buffer) ∧
      Loaded (create_file_cache blank 0) cached filename buffer ∧ Owned cached (first_chains filename) held free :=
  (create_file_cache_owned blank 0).loads empty_file_loads rfl (by
    rw [cells, List.flatMap_eq_nil_iff.mpr fun _ _ => rfl]
    decide)

/-- The only entry does not have the name. -/
theorem first_named_none {cached : file_cache_t} {other : List UInt8} {buffer : Nat}
    (h : Loaded (create_file_cache blank 0) cached filename buffer)
    (hname : copied FILENAME_SIZE filename ≠ c_str other) :
    first_named cached (first_chains filename) other = none := by
  obtain ⟨f, hheap, hcopied, -⟩ := h
  have hnew : cached.heap.field cached_file_t.filename 0 = some f.filename := by
    rw [hheap]
    exact Heap.field_alloc_self _ _ _
  have hother : strcmp f.filename other ≠ 0 := by
    rwa [ne_eq, strcmp_eq_zero_iff, hcopied, c_str_copied]
  refine List.find?_eq_none.mpr fun a ha => ?_
  rw [first_chains] at ha
  by_cases hbucket : hash other = hash filename
  · rw [hbucket, Function.update_self, List.mem_singleton] at ha
    subst ha
    simp [named_eq, hnew, hother]
  · rw [Function.update_of_ne hbucket] at ha
    cases ha

/-- A name that does not fit misses the entry it made. -/
theorem not_found_again_of_le {allowed : call_t → Prop} (hlength : FILENAME_SIZE ≤ (c_str filename).length) :
    ¬FoundAgain allowed filename := by
  intro hagain
  obtain ⟨cached, buffer, held, free, hread, hloaded, howned⟩ := first_read filename
  obtain ⟨entry, hbuffer, hrest⟩ := hagain blank 0 [] _ [] empty_file cached buffer rfl hread
  obtain ⟨f, hf, -⟩ := Heap.field_eq_some hbuffer
  obtain ⟨cache', hhit, -⟩ := hrest [] cached [] nofun rfl ⟨f, hf⟩ ⟨0, .open_failed, true⟩
  have hfirst : first_named cached (first_chains filename) filename = none := by
    refine first_named_none hloaded fun heq => ?_
    have hcut := congrArg List.length heq
    rw [copied, List.length_take, FILENAME_SIZE] at hcut
    rw [FILENAME_SIZE] at hlength
    omega
  obtain ⟨_, _, _, _, _, hmiss, -, heffect⟩ := read_file_cached_owned howned ⟨0, .open_failed, true⟩ filename
  obtain ⟨rfl, rfl⟩ := Prod.mk.inj (Option.some.inj (hmiss.symm.trans hhit))
  cases heffect with
  | hit hfirst' hf =>
    rw [hfirst] at hfirst'
    cases hfirst'
  | loaded pool hfirst hloads hname =>
    obtain ⟨-, data, hlt, hbytes⟩ := hloads
    cases hbytes

/-- One more character leads to any bucket. -/
private theorem exists_char (x : UInt32) {r : Nat} (hr : r < CACHE_SIZE) :
    ∃ c : UInt8, c ≠ 0 ∧ (x + char_to_unsigned c).toNat % CACHE_SIZE = r := by
  rw [CACHE_SIZE] at hr ⊢
  have hlt : x.toNat < 4294967296 := x.toNat_lt
  have hsmall : ∀ k : Fin 6, (char_to_unsigned (UInt8.ofNat k)).toNat = k := by decide
  have hlarge : ∀ k : Fin 6, 0 < k.val → (char_to_unsigned (UInt8.ofNat (256 - k))).toNat = 4294967296 - k := by
    decide
  have hsmall_ne : ∀ k : Fin 6, 0 < k.val → UInt8.ofNat k ≠ 0 ∧ UInt8.ofNat (256 - k) ≠ 0 := by decide
  by_cases hroom : x.toNat + 5 < 4294967296
  · obtain ⟨k, hpos, hk⟩ : ∃ k : Fin 6, 0 < k.val ∧ (x.toNat + k) % 5 = r := by
      refine ⟨⟨(r + 4 - x.toNat % 5) % 5 + 1, by omega⟩, Nat.succ_pos _, ?_⟩
      dsimp only
      omega
    refine ⟨UInt8.ofNat k, (hsmall_ne k hpos).1, ?_⟩
    have hnowrap : x.toNat + k < 2 ^ 32 := by omega
    rw [UInt32.toNat_add, hsmall k, Nat.mod_eq_of_lt hnowrap, hk]
  · obtain ⟨k, hpos, hk⟩ : ∃ k : Fin 6, 0 < k.val ∧ (x.toNat - k) % 5 = r := by
      refine ⟨⟨(x.toNat % 5 + 4 - r) % 5 + 1, by omega⟩, Nat.succ_pos _, ?_⟩
      dsimp only
      omega
    refine ⟨UInt8.ofNat (256 - k), (hsmall_ne k hpos).2, ?_⟩
    rw [UInt32.toNat_add, hlarge k hpos]
    omega

/-- A name that just fits is also what a longer one of its bucket is cut to. -/
theorem exists_shadow (hlength : (c_str filename).length + 1 = FILENAME_SIZE) :
    ∃ other, ∀ out, Shadows filename (.read_file_cached other out) := by
  obtain ⟨c, hc, hbucket⟩ := exists_char
    ((c_str filename).foldl (fun (hash_value : UInt32) c => hash_value * 31 + char_to_unsigned c) 0 * 31)
    (hash_lt filename)
  have hstr : c_str (c_str filename ++ [c]) = c_str filename ++ [c] := by
    refine c_str_eq_self fun hmem => ?_
    rcases List.mem_append.mp hmem with hmem | hmem
    · exact ne_zero_of_mem_c_str hmem rfl
    · exact hc (List.mem_singleton.mp hmem).symm
  refine ⟨c_str filename ++ [c], fun _ => ⟨?_, ?_, ?_⟩⟩
  · rw [hstr]
    simp
  · rw [copied, hstr, List.take_left' (by omega)]
  · rw [hash, hstr, List.foldl_append]
    exact hbucket

/-- The read of a longer name between two of one that just fits. -/
theorem not_found_again_of_eq (hlength : (c_str filename).length + 1 = FILENAME_SIZE) :
    ¬FoundAgain (fun _ => True) filename := by
  intro hagain
  obtain ⟨other, hshadow⟩ := exists_shadow hlength
  obtain ⟨hdiffers, hcut, hbucket⟩ := hshadow empty_file
  have hfits : copied FILENAME_SIZE filename = c_str filename := copied_of_length_lt (by omega)
  obtain ⟨cached, buffer, held, free, hread, hloaded, howned⟩ := first_read filename
  obtain ⟨entry, hbuffer, hrest⟩ := hagain blank 0 [] _ [] empty_file cached buffer rfl hread
  obtain ⟨f, hf, -⟩ := Heap.field_eq_some hbuffer
  have hfirst : first_named cached (first_chains filename) other = none :=
    first_named_none hloaded (hfits ▸ hdiffers.symm)
  have hroom : (cells (first_chains filename)).length < POOL_SIZE := by
    rw [length_first_chains]
    decide
  obtain ⟨later, buffer', held', free', hread', hloaded', howned'⟩ := howned.loads empty_file_loads hfirst hroom
  have hcall : exec call cached [.read_file_cached other empty_file] = some (later, [some buffer']) := by
    rw [exec_cons (show call cached (.read_file_cached other empty_file) = _ from hread')]
    rfl
  have hfound : Found filename 0 buffer cached (first_chains filename) := Found.of_loaded hloaded rfl hfits
  have hfound' : Found filename cached.heap.next buffer' later
      (Function.update (first_chains filename) (hash other)
        (cached.heap.next :: first_chains filename (hash other))) :=
    Found.of_loaded hloaded' hbucket hcut
  obtain ⟨f', hheap, -⟩ := hloaded'
  have hlive : ∃ f, later.heap.get entry = some f := by
    refine ⟨f, ?_⟩
    rw [hheap, Heap.get_alloc_of_ne _ _ (Nat.ne_of_lt (Heap.lt_next_of_get hf)), hf]
  -- Both entries have the name. A read stops at the one in front, which is not the first.
  obtain ⟨_, hhit, -⟩ := hrest _ later _ (fun _ _ => trivial) hcall hlive empty_file
  obtain ⟨_, hhit', -⟩ := hfound'.hits howned' empty_file
  obtain ⟨-, hsame⟩ := Prod.mk.inj (Option.some.inj (hhit'.symm.trans hhit))
  obtain rfl : buffer' = buffer := Option.some.inj hsame
  obtain ⟨v, hv, -⟩ := Heap.field_eq_some hfound.buffer
  have hlt := Heap.lt_next_of_get hv
  have hmem := List.mem_of_find?_eq_some hfound'.first
  have hmem₀ : 0 ∈ Function.update (first_chains filename) (hash other)
      (cached.heap.next :: first_chains filename (hash other)) (hash filename) := by
    rw [hbucket, Function.update_self]
    exact List.mem_cons_of_mem _ (List.mem_of_find?_eq_some hfound.first)
  have hbuffer₀ : later.heap.field cached_file_t.buffer 0 = some buffer' := by
    rw [hheap, Heap.field_alloc_of_ne _ _ _ (Nat.ne_of_lt hlt), hfound.buffer]
  have heq := howned'.buffer_inj (mem_cells (hash_lt filename) hmem₀) (mem_cells (hash_lt filename) hmem) hbuffer₀
    hfound'.buffer
  omega

end Misses

/-- What is read is found again exactly under names that fit. Under a name that just
fits, this is so until the file of a longer name takes its place. -/
theorem found_again_iff (filename : List UInt8) :
    (FoundAgain (fun c => ¬Shadows filename c) filename ↔ (c_str filename).length < FILENAME_SIZE) ∧
      (FoundAgain (fun _ => True) filename ↔ (c_str filename).length + 1 < FILENAME_SIZE) := by
  refine ⟨⟨fun hagain => ?_, fun hlt => found_again_of_length_lt hlt fun _ hc => hc⟩, fun hagain => ?_, fun hlt => ?_⟩
  · by_contra hle
    exact not_found_again_of_le (by omega) hagain
  · by_contra hle
    by_cases heq : (c_str filename).length + 1 = FILENAME_SIZE
    · exact not_found_again_of_eq heq hagain
    · exact not_found_again_of_le (by omega) hagain
  · refine found_again_of_length_lt (by omega) fun c _ hshadows => ?_
    cases c with
    | read_file_cached other out =>
      obtain ⟨hdiffers, hcut, -⟩ := hshadows
      have hlength := congrArg List.length hcut
      rw [copied, List.length_take] at hlength
      exact hdiffers ((copied_of_length_lt (by omega)).symm.trans hcut)
    | _ => exact hshadows

/-- A path of 256 characters. -/
def long_path : List UInt8 := (List.replicate 127 [46, 47]).flatten ++ [97, 98]

/-- Two reads of one file, the second of which is another miss. -/
theorem long_path_misses :
    (exec call (create_file_cache blank 0)
      [.read_file_cached long_path empty_file, .read_file_cached long_path empty_file]).map Prod.snd =
        some [some 0, some 1] := by
  decide +kernel

end csystems.file_cache.cached_files
