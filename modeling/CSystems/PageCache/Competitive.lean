import CSystems.Lib.Paging
import CSystems.PageCache.Clock

open clib.cint clib.last_use clib.paging clib.scan

namespace csystems.page_cache

section Lru

/-- `simulateLRU` counts the faults of the policy that gives up the least recent page. -/
theorem lru_misses_eq {requested : List Int32} (hpages : ∀ page ∈ requested, page ≠ -1)
    (hlength : requested.length < 2 ^ 31) :
    (simulateLRU requested).misses.toInt = faults (lru_miss FRAMES) [] requested := by
  induction requested using List.reverseRecOn with
  | nil => rfl
  | append_singleton requested page ih =>
    rw [List.length_append, List.length_singleton] at hlength
    have hbefore : ∀ p ∈ requested, p ≠ -1 := fun p hp => hpages p (by simp [hp])
    have hsimulated := simulateLRU_simulated hbefore (by omega)
    obtain ⟨order, hrecorded⟩ := hsimulated.recorded
    have hresident := hrecorded.resident_iff (hpages page (by simp))
    have hstep : simulateLRU (requested ++ [page]) = lru_request (simulateLRU requested) page := by simp [simulateLRU]
    have hmisses := ih hbefore (by omega)
    rw [hstep, faults_concat, List.nil_append]
    obtain ⟨hhit, -, heq⟩ | ⟨hmiss, -, heq⟩ := lru_request_counts (simulateLRU requested) page
    · have hnot : lru_miss FRAMES requested page = false := by simpa [lru_miss] using hresident.mp hhit
      rw [heq, hnot, hmisses]
      simp
    · have hfault : lru_miss FRAMES requested page = true := by simpa [lru_miss] using hresident.not.mp hmiss
      have hhits := hsimulated.hits_nonneg
      have htotal := hsimulated.total
      rw [heq, hfault, toInt_succ (by omega), hmisses]
      simp

/-- Least-recently-used replacement needs at most `FRAMES` times the faults of any
other way to serve the requests with as many frames, also one that knows them in
advance, and `FRAMES` more. -/
theorem simulateLRU_competitive (references : List Int32) (hpages : ∀ page ∈ references, page ≠ -1)
    (hlength : references.length < 2 ^ 31) (frames last : Finset Int32) (n : Nat)
    (hserves : Serves FRAMES frames references last n) : (simulateLRU references).misses.toInt ≤ FRAMES * (n + 1) := by
  have hle := (lru_conservative FRAMES).competitive hserves []
  rw [lru_misses_eq hpages hlength]
  exact_mod_cast hle

/-- The fourth page replaces one of the first three, two of which come again. -/
def four_pages : List Int32 := [1, 2, 3, 4, 1, 2]

/-- The page replaced is the third one, which does not come again. -/
theorem serves_four_pages : Serves FRAMES ∅ four_pages {1, 2, 4} 4 := by
  have hsixth : Serves FRAMES {1, 2, 4} [(2 : Int32)] {1, 2, 4} 0 := .cons (by decide) (by decide) (by decide) (.nil _)
  have hfifth : Serves FRAMES {1, 2, 4} [(1 : Int32), 2] {1, 2, 4} 0 :=
    .cons (by decide) (by decide) (by decide) hsixth
  have hfourth : Serves FRAMES {1, 2, 3} [(4 : Int32), 1, 2] {1, 2, 4} 1 :=
    .cons (by decide) (by decide) (by decide) hfifth
  have hthird : Serves FRAMES {1, 2} [(3 : Int32), 4, 1, 2] {1, 2, 4} 2 :=
    .cons (by decide) (by decide) (by decide) hfourth
  have hsecond : Serves FRAMES {1} [(2 : Int32), 3, 4, 1, 2] {1, 2, 4} 3 :=
    .cons (by decide) (by decide) (by decide) hthird
  exact .cons (by decide) (by decide) (by decide) hsecond

theorem simulateLRU_competitive_four :
    (simulateLRU four_pages).misses = 6 ∧ (simulateLRU four_pages).misses.toInt ≤ FRAMES * (4 + 1) :=
  ⟨by decide +kernel, simulateLRU_competitive four_pages (by simp [four_pages]) (by decide) ∅ {1, 2, 4} 4 serves_four_pages⟩

end Lru

section Clock

theorem ahead_succ (pointer j : Nat) : ahead ((pointer + 1) % FRAMES) j = ahead pointer (j + 1) :=
  Fin.ext (by simp only [ahead, Nat.mod_add_mod]; congr 1; omega)

theorem ahead_frames (pointer : Nat) : ahead pointer FRAMES = ahead pointer 0 := Fin.ext (by simp [ahead])

/-- The page in the frame `j` ahead of the pointer. -/
def page_ahead (s : clock_t) (j : Nat) : Int32 := s.buffer.get (ahead s.pointer j)

/-- The bit of the frame `j` ahead of the pointer. -/
def bit_ahead (s : clock_t) (j : Nat) : Int32 := s.refBit.get (ahead s.pointer j)

/-- The frame `j` ahead is not kept for a page requested before the window. -/
def Fresh (window : List Int32) (s : clock_t) (j : Nat) : Prop := bit_ahead s j = 0 ∨ page_ahead s j ∈ window

/-- What a frame can tell of the others since the window began with a fault that loaded
it: `i` is how far ahead it is. The pointer has passed the frames behind it after the
last request of its page; where its bit is gone, it has passed all of them once. -/
structure Held (window : List Int32) (s : clock_t) (i : Nat) : Prop where
  lt : i < FRAMES
  set : bit_ahead s i ≠ 0 → ∀ j, i < j → j < FRAMES → Fresh window s j
  clear : bit_ahead s i = 0 → (∀ j, i < j → j < FRAMES → page_ahead s j ∈ window) ∧ ∀ j < i, Fresh window s j

/-- The pointer has gone one frame on, and changed that one only. -/
structure Advances (window : List Int32) (s s' : clock_t) : Prop where
  pointer : s'.pointer = (s.pointer + 1) % FRAMES
  page_eq : ∀ j, j + 1 < FRAMES → page_ahead s' j = page_ahead s (j + 1)
  bit_eq : ∀ j, j + 1 < FRAMES → bit_ahead s' j = bit_ahead s (j + 1)
  fresh : Fresh window s' (FRAMES - 1)
  loaded : Fresh window s 0 → page_ahead s' (FRAMES - 1) ∈ window

section Held

variable {window : List Int32} {s s' : clock_t} {i : Nat}

theorem Fresh.mono (h : Fresh window s i) {window' : List Int32} (hsubset : window ⊆ window') : Fresh window' s i :=
  h.imp id fun hmem => hsubset hmem

theorem Held.mono (h : Held window s i) {window' : List Int32} (hsubset : window ⊆ window') : Held window' s i where
  lt := h.lt
  set hbit j hij hj := (h.set hbit j hij hj).mono hsubset
  clear hbit := ⟨fun j hij hj => hsubset ((h.clear hbit).1 j hij hj), fun j hj => ((h.clear hbit).2 j hj).mono hsubset⟩

/-- A frame that the pointer has not reached is one nearer. -/
theorem Held.advance (h : Held window s (i + 1)) (hadvances : Advances window s s') : Held window s' i := by
  have hlt := h.lt
  have hfresh (j : Nat) (hj : j + 1 < FRAMES) (hold : Fresh window s (j + 1)) : Fresh window s' j := by
    unfold Fresh
    rw [hadvances.bit_eq j hj, hadvances.page_eq j hj]
    exact hold
  refine ⟨by omega, fun hbit j hij hj => ?_, fun hbit => ?_⟩
  · rw [hadvances.bit_eq i hlt] at hbit
    by_cases hlast : j + 1 < FRAMES
    · exact hfresh j hlast (h.set hbit (j + 1) (by omega) hlast)
    · obtain rfl : j = FRAMES - 1 := by omega
      exact hadvances.fresh
  · rw [hadvances.bit_eq i hlt] at hbit
    obtain ⟨hbehind, hbefore⟩ := h.clear hbit
    refine ⟨fun j hij hj => ?_, fun j hj => hfresh j (by omega) (hbefore (j + 1) (by omega))⟩
    by_cases hlast : j + 1 < FRAMES
    · rw [hadvances.page_eq j hlast]
      exact hbehind (j + 1) (by omega) hlast
    · obtain rfl : j = FRAMES - 1 := by omega
      exact hadvances.loaded (hbefore 0 (Nat.succ_pos i))

/-- The frame at the pointer loses its bit and is last again. -/
theorem Held.pass (h : Held window s 0) (hbit : bit_ahead s 0 ≠ 0) (hadvances : Advances window s s') :
    Held window s' (FRAMES - 1) := by
  refine ⟨by decide, fun _ j hij hj => by omega, fun _ => ⟨fun j hij hj => by omega, fun j hj => ?_⟩⟩
  have hold := h.set hbit (j + 1) (Nat.succ_pos j) (by omega)
  unfold Fresh
  rw [hadvances.bit_eq j (by omega), hadvances.page_eq j (by omega)]
  exact hold

/-- A hit marks a frame of the window. -/
theorem Held.hit (h : Held window s i) {pos : Fin FRAMES} (hpos : s.buffer.get pos ∈ window) (hits : Int32) :
    Held window { s with refBit := s.refBit.set pos.val 1 pos.isLt, hits := hits } i := by
  have hbit (j : Nat) : bit_ahead { s with refBit := s.refBit.set pos.val 1 pos.isLt, hits := hits } j =
      if pos = ahead s.pointer j then 1 else bit_ahead s j := get_set_fin ..
  have hfresh (j : Nat) (hold : Fresh window s j) :
      Fresh window { s with refBit := s.refBit.set pos.val 1 pos.isLt, hits := hits } j := by
    unfold Fresh
    rw [hbit]
    split
    · next heq => exact Or.inr (heq ▸ hpos)
    · exact hold
  refine ⟨h.lt, fun hset j hij hj => ?_, fun hclear => ?_⟩
  · by_cases hzero : bit_ahead s i = 0
    · exact hfresh j (Or.inr ((h.clear hzero).1 j hij hj))
    · exact hfresh j (h.set hzero j hij hj)
  · rw [hbit] at hclear
    split at hclear
    · exact absurd hclear (by decide)
    · obtain ⟨hbehind, hbefore⟩ := h.clear hclear
      exact ⟨hbehind, fun j hj => hfresh j (hbefore j hj)⟩

end Held

/-- The page is in a frame since the window began with a fault on it. -/
def Keeps (window : List Int32) (s : clock_t) (page : Int32) : Prop :=
  page ∈ window ∧ ∃ i, Held window s i ∧ page_ahead s i = page

section Loop

variable {window : List Int32} {s s' : clock_t} {page : Int32}

theorem ahead_zero (hpointer : s.pointer < FRAMES) : ahead s.pointer 0 = ⟨s.pointer, hpointer⟩ :=
  Fin.ext (Nat.mod_eq_of_lt hpointer)

theorem ahead_succ_ne {pointer j : Nat} (hj : j + 1 < FRAMES) : ahead pointer 0 ≠ ahead pointer (j + 1) := fun heq => by
  have hzero := ahead_inj (by decide) hj heq
  omega

/-- What an iteration of the miss loop does. -/
theorem replace_step_advances (hpointer : s.pointer < FRAMES) (hpage : page ∈ window) {done : Bool}
    (h : replace_step page s = some (done, s')) :
    Advances window s s' ∧ s'.pointer < FRAMES ∧
      if done then bit_ahead s 0 = 0 ∧ page_ahead s' (FRAMES - 1) = page ∧ bit_ahead s' (FRAMES - 1) ≠ 0
      else bit_ahead s 0 ≠ 0 ∧ s'.buffer = s.buffer := by
  have hhand := ahead_zero hpointer
  have hload : load s.refBit s.pointer = some (bit_ahead s 0) := by
    rw [bit_ahead, hhand]
    exact load_fin s.refBit ⟨s.pointer, hpointer⟩
  have hstore (xs : Vector Int32 FRAMES) (x : Int32) :
      store xs s.pointer x = some (xs.set (ahead s.pointer 0).val x (ahead s.pointer 0).isLt) := by
    rw [hhand]
    exact store_fin xs ⟨s.pointer, hpointer⟩ x
  have hlast : ahead ((s.pointer + 1) % FRAMES) (FRAMES - 1) = ahead s.pointer 0 := by
    rw [ahead_succ]
    exact ahead_frames s.pointer
  have hnext (j : Nat) : ahead ((s.pointer + 1) % FRAMES) j = ahead s.pointer (j + 1) := ahead_succ s.pointer j
  unfold replace_step at h
  simp only [hload, hstore, Option.bind_eq_bind, Option.bind_some] at h
  split at h
  · next hbit =>
    obtain ⟨rfl, rfl⟩ := Prod.mk.inj (Option.some.inj h)
    refine ⟨⟨rfl, fun j hj => ?_, fun j hj => ?_, Or.inr ?_, fun _ => ?_⟩, Nat.mod_lt _ (by decide), hbit, ?_, ?_⟩
    · simp only [page_ahead, hnext, get_set_fin, if_neg (ahead_succ_ne hj)]
    · simp only [bit_ahead, hnext, get_set_fin, if_neg (ahead_succ_ne hj)]
    · simpa only [page_ahead, hlast, get_set_fin, if_true] using hpage
    · simpa only [page_ahead, hlast, get_set_fin, if_true] using hpage
    · simp only [page_ahead, hlast, get_set_fin, if_true]
    · simp only [bit_ahead, hlast, get_set_fin, if_true]
      decide
  · next hbit =>
    obtain ⟨rfl, rfl⟩ := Prod.mk.inj (Option.some.inj h)
    refine ⟨⟨rfl, fun j hj => ?_, fun j hj => ?_, Or.inl ?_, fun hfresh => ?_⟩, Nat.mod_lt _ (by decide), hbit, rfl⟩
    · simp only [page_ahead, hnext]
    · simp only [bit_ahead, hnext, get_set_fin, if_neg (ahead_succ_ne hj)]
    · simp only [bit_ahead, hlast, get_set_fin, if_true]
    · have hmem := hfresh.resolve_left hbit
      simpa only [page_ahead, hlast] using hmem

/-- The miss loop leaves the page just behind the pointer, with its bit set. -/
theorem replace_loop_loads {iterations : Nat} (hpointer : s.pointer < FRAMES)
    (h : replace_loop page iterations s = some s') : Keeps [page] s' page := by
  induction iterations generalizing s with
  | zero => cases h
  | succ iterations ih =>
    obtain ⟨⟨done, s₁⟩, hstep, hrest⟩ := Option.bind_eq_some_iff.mp h
    obtain ⟨-, hpointer₁, heffect⟩ := replace_step_advances hpointer (List.mem_singleton.mpr rfl) hstep
    cases done with
    | true =>
      obtain rfl := Option.some.inj hrest
      obtain ⟨-, hpage, hbit⟩ := heffect
      exact ⟨List.mem_singleton.mpr rfl, FRAMES - 1,
        ⟨by decide, fun _ j hij hj => by omega, fun hzero => absurd hzero hbit⟩,
        hpage⟩
    | false => exact ih hpointer₁ hrest

/-- The miss loop keeps a page that a fault has loaded, unless the window already has
all pages in the frames. -/
theorem Keeps.replace_loop {kept : Int32} {iterations : Nat} (h : Keeps window s kept) (hpointer : s.pointer < FRAMES)
    (hpage : page ∈ window) (hroom : ¬ ∀ i, s.buffer.get i ∈ window)
    (hloop : replace_loop page iterations s = some s') : Keeps window s' kept := by
  induction iterations generalizing s with
  | zero => cases hloop
  | succ iterations ih =>
    obtain ⟨⟨done, s₁⟩, hstep, hrest⟩ := Option.bind_eq_some_iff.mp hloop
    obtain ⟨hadvances, hpointer₁, heffect⟩ := replace_step_advances hpointer hpage hstep
    obtain ⟨hmem, i, hheld, hkept⟩ := h
    cases done with
    | true =>
      obtain rfl := Option.some.inj hrest
      obtain ⟨hbit, -, -⟩ := heffect
      cases i with
      | zero =>
        -- the page itself is replaced: the pointer has been around, and found every frame in use
        refine absurd (fun v => ?_) hroom
        obtain ⟨j, hj, rfl⟩ := exists_ahead hpointer v
        cases j with
        | zero =>
          have hzero : page_ahead s 0 ∈ window := by rwa [hkept]
          exact hzero
        | succ j => exact (hheld.clear hbit).1 (j + 1) (Nat.succ_pos j) hj
      | succ i => exact ⟨hmem, i, hheld.advance hadvances, (hadvances.page_eq i hheld.lt).trans hkept⟩
    | false =>
      obtain ⟨hbit, hbuffer⟩ := heffect
      refine ih ?_ hpointer₁ (by rwa [hbuffer]) hrest
      cases i with
      | zero =>
        refine ⟨hmem, FRAMES - 1, hheld.pass hbit hadvances, ?_⟩
        rw [← hkept, page_ahead, page_ahead, hbuffer, hadvances.pointer, ahead_succ]
        exact congrArg s.buffer.get (ahead_frames s.pointer)
      | succ i => exact ⟨hmem, i, hheld.advance hadvances, (hadvances.page_eq i hheld.lt).trans hkept⟩

end Loop

/-- Where a page of the window is missing, not all pages of the frames are of the
window. -/
theorem Sound.exists_not_mem {window : List Int32} {s : clock_t} {page : Int32} (h : Sound s)
    (hpages : ∀ p ∈ window, p ≠ -1) (hpage : page ∈ window) (habsent : ∀ i, s.buffer.get i ≠ page)
    (hcard : window.toFinset.card ≤ FRAMES) : ¬ ∀ i, s.buffer.get i ∈ window := by
  intro hall
  have hinjective : Function.Injective s.buffer.get := fun i j heq => h.once i j (hpages _ (hall i)) heq
  have hsubset : Finset.univ.image s.buffer.get ⊆ window.toFinset.erase page := by
    intro p hp
    obtain ⟨i, -, rfl⟩ := Finset.mem_image.mp hp
    exact Finset.mem_erase.mpr ⟨habsent i, List.mem_toFinset.mpr (hall i)⟩
  have hle := Finset.card_le_card hsubset
  rw [Finset.card_image_of_injective _ hinjective, Finset.card_univ, Fintype.card_fin,
    Finset.card_erase_of_mem (List.mem_toFinset.mpr hpage)] at hle
  have hpos : 0 < window.toFinset.card := Finset.card_pos.mpr ⟨page, List.mem_toFinset.mpr hpage⟩
  omega

/-- A page that a fault has loaded is kept until more pages than there are frames have
been requested. -/
theorem simulateClock_keeps {past window : List Int32} {page : Int32} {s₀ : clock_t}
    (hs₀ : simulateClock past = some s₀) (habsent : ∀ i, s₀.buffer.get i ≠ page)
    (hpages : ∀ p ∈ page :: window, p ≠ -1) (hcard : (page :: window).toFinset.card ≤ FRAMES) :
    ∃ s, simulateClock (past ++ page :: window) = some s ∧ Sound s ∧ Keeps (page :: window) s page := by
  induction window using List.reverseRecOn with
  | nil =>
    obtain ⟨s, hs, hsound⟩ := simulateClock_sound past
    obtain rfl := Option.some.inj (hs₀.symm.trans hs)
    obtain ⟨d, -, heq, hloop⟩ := hsound.request_miss habsent
    obtain ⟨s', hs', hsound', -⟩ := hsound.request page
    obtain rfl := Option.some.inj (heq.symm.trans hs')
    have hpointer : ({ s₀ with misses := s₀.misses + 1 } : clock_t).pointer < FRAMES := hsound.pointer_lt
    refine ⟨_, by rw [simulateClock_append, hs, Option.bind_some, heq], hsound', replace_loop_loads hpointer hloop⟩
  | append_singleton window other ih =>
    have hsubset : page :: window ⊆ page :: (window ++ [other]) :=
      List.cons_subset_cons page (List.subset_append_left window [other])
    have hother : other ∈ page :: (window ++ [other]) := by simp
    have hfew : (page :: window).toFinset.card ≤ FRAMES :=
      (Finset.card_le_card fun p hp => List.mem_toFinset.mpr (hsubset (List.mem_toFinset.mp hp))).trans hcard
    obtain ⟨s, hs, hsound, hmem, i, hheld, hkept⟩ := ih (fun p hp => hpages p (hsubset hp)) hfew
    have hnext : simulateClock (past ++ page :: (window ++ [other])) = clock_request FRAMES s other := by
      rw [← List.cons_append, ← List.append_assoc, simulateClock_append, hs, Option.bind_some]
    rw [hnext]
    have hwider := hheld.mono hsubset
    obtain ⟨s', hs', hsound', -⟩ := hsound.request other
    refine ⟨s', hs', hsound', ?_⟩
    cases hfind : findPage s.buffer other with
    | some pos =>
      rw [clock_request_hit hfind] at hs'
      obtain rfl := Option.some.inj hs'
      refine ⟨hsubset hmem, i, hwider.hit ?_ _, hkept⟩
      rwa [findPage_eq_some hfind]
    | none =>
      have hmiss := findPage_eq_none_iff.mp hfind
      obtain ⟨d, -, heq, hloop⟩ := hsound.request_miss hmiss
      obtain rfl := Option.some.inj (heq.symm.trans hs')
      have hcounted : Keeps (page :: (window ++ [other])) { s with misses := s.misses + 1 } page :=
        ⟨hsubset hmem, i, ⟨hwider.lt, hwider.set, hwider.clear⟩, hkept⟩
      exact hcounted.replace_loop hsound.pointer_lt hother (hsound.exists_not_mem hpages hother hmiss hcard) hloop

/-- `simulateClock` misses on this page after these requests, none of which was for the
number that marks a frame as free. -/
def clock_miss (past : List Int32) (page : Int32) : Bool :=
  match simulateClock past with
  | some s => (-1 ∉ past ++ [page]) ∧ findPage s.buffer page = none
  | none => false

theorem clock_miss_eq {past : List Int32} {s : clock_t} (hs : simulateClock past = some s) (page : Int32) :
    clock_miss past page = true ↔ -1 ∉ past ++ [page] ∧ ∀ i, s.buffer.get i ≠ page := by
  rw [clock_miss, hs]
  simp only [decide_eq_true_eq, findPage_eq_none_iff]

theorem clock_conservative : Conservative FRAMES clock_miss := by
  refine conservative_of_keeps fun past page window hmiss hcard => ?_
  obtain ⟨s₀, hs₀, -⟩ := simulateClock_sound past
  obtain ⟨hreal, habsent⟩ := (clock_miss_eq hs₀ page).mp hmiss
  obtain ⟨s, hs, -⟩ := simulateClock_sound (past ++ page :: window)
  rw [Bool.eq_false_iff]
  intro hagain
  obtain ⟨hreal', habsent'⟩ := (clock_miss_eq hs page).mp hagain
  have hpages : ∀ p ∈ page :: window, p ≠ -1 := by
    rintro p hp rfl
    exact hreal' (by simp only [List.mem_append, hp, or_true, true_or])
  obtain ⟨s', hs', -, -, i, -, hkept⟩ := simulateClock_keeps hs₀ habsent hpages hcard
  obtain rfl := Option.some.inj (hs.symm.trans hs')
  exact habsent' _ hkept

/-- `simulateClock` counts the faults of the clock rule. -/
theorem clock_misses_eq {requested : List Int32} (hpages : ∀ page ∈ requested, page ≠ -1)
    (hlength : requested.length < 2 ^ 31) :
    ∃ s, simulateClock requested = some s ∧ s.misses.toInt = faults clock_miss [] requested := by
  have hbound : ∀ window, faults clock_miss [] window ≤ window.length := by
    intro window
    induction window using List.reverseRecOn with
    | nil => exact Nat.le_refl 0
    | append_singleton window page ih =>
      rw [faults_concat, List.length_append, List.length_singleton]
      split <;> omega
  induction requested using List.reverseRecOn with
  | nil => exact ⟨clock_init, rfl, rfl⟩
  | append_singleton requested page ih =>
    rw [List.length_append, List.length_singleton] at hlength
    have hbefore : ∀ p ∈ requested, p ≠ -1 := fun p hp => hpages p (by simp [hp])
    obtain ⟨s, hs, hmisses⟩ := ih hbefore (by omega)
    obtain ⟨s₀, hs₀, hsound⟩ := simulateClock_sound requested
    obtain rfl := Option.some.inj (hs.symm.trans hs₀)
    have hreal : -1 ∉ requested ++ [page] := fun hmem => hpages (-1) hmem rfl
    rw [simulateClock_append, hs, Option.bind_some, faults_concat, List.nil_append]
    cases hfind : findPage s.buffer page with
    | some pos =>
      have hnot : clock_miss requested page = false := by
        rw [Bool.eq_false_iff]
        exact fun hmiss => ((clock_miss_eq hs page).mp hmiss).2 pos (findPage_eq_some hfind)
      refine ⟨_, clock_request_hit hfind, ?_⟩
      rw [hnot]
      simpa using hmisses
    | none =>
      have habsent := findPage_eq_none_iff.mp hfind
      have hmiss := (clock_miss_eq hs page).mpr ⟨hreal, habsent⟩
      obtain ⟨d, -, heq, -⟩ := hsound.request_miss habsent
      refine ⟨_, heq, ?_⟩
      have hle := hbound requested
      rw [hmiss, replaced, toInt_succ (by omega), hmisses]
      simp

/-- Clock replacement, with one bit for each frame, has the same bound. -/
theorem simulateClock_competitive (references : List Int32) (hpages : ∀ page ∈ references, page ≠ -1)
    (hlength : references.length < 2 ^ 31) (frames last : Finset Int32) (n : Nat)
    (hserves : Serves FRAMES frames references last n) :
    ∃ s, simulateClock references = some s ∧ s.misses.toInt ≤ FRAMES * (n + 1) := by
  obtain ⟨s, hs, hmisses⟩ := clock_misses_eq hpages hlength
  have hle := clock_conservative.competitive hserves []
  refine ⟨s, hs, ?_⟩
  rw [hmisses]
  exact_mod_cast hle

theorem simulateClock_competitive_four :
    ∃ s, simulateClock four_pages = some s ∧ s.misses = 6 ∧ s.misses.toInt ≤ FRAMES * (4 + 1) := by
  obtain ⟨s, hs, hle⟩ :=
    simulateClock_competitive four_pages (by simp [four_pages]) (by decide) ∅ {1, 2, 4} 4 serves_four_pages
  have hmisses : (simulateClock four_pages).map (·.misses) = some 6 := by decide +kernel
  rw [hs, Option.map_some] at hmisses
  exact ⟨s, hs, Option.some.inj hmisses, hle⟩

end Clock

end csystems.page_cache
