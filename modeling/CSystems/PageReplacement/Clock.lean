import CSystems.PageCache.Clock

open csystems.page_cache

namespace csystems.page_replacement

def MAX_PAGES : Nat := 12

/-- `simulateClock` of `clock.c`: its search for the page runs up to `MAX_PAGES`. -/
def simulateClock (pages : List Int32) : Option clock_t := pages.foldlM (clock_request MAX_PAGES) clock_init

/-- A search goes on behind the frames it has looked at if it found nothing. -/
theorem search_add {n : Nat} (buffer : Vector Int32 n) (page : Int32) (first more j : Nat) :
    search buffer page (first + more) j = (search buffer page first j).bind fun found =>
      if found.isSome then some found else search buffer page more (j + first) := by
  induction first generalizing j with
  | zero => simp [search]
  | succ first ih =>
    rw [show first + 1 + more = first + more + 1 by omega, search, search]
    cases load buffer j with
    | none => rfl
    | some frame =>
      simp only [Option.bind_eq_bind, Option.bind_some]
      split
      · rfl
      · rw [ih, show j + 1 + first = j + (first + 1) by omega]

/-- Behind the frames there is nothing to read: with the larger bound a request
goes through only if its page is resident. -/
theorem clock_request_beyond {bound : Nat} (hbound : FRAMES < bound) (s : clock_t) (page : Int32) :
    clock_request bound s page = if ∃ i, s.buffer.get i = page then clock_request FRAMES s page else none := by
  obtain ⟨more, rfl⟩ : ∃ more, bound = FRAMES + (more + 1) := ⟨bound - FRAMES - 1, by omega⟩
  have hsearch := search_eq s.buffer page (Nat.zero_add FRAMES) (by simp)
  unfold clock_request
  rw [search_add, hsearch]
  cases hfind : findPage s.buffer page with
  | some pos =>
    rw [if_pos ⟨pos, findPage_eq_some hfind⟩]
    rfl
  | none =>
    have hmiss := findPage_eq_none_iff.mp hfind
    rw [if_neg fun ⟨i, hi⟩ => hmiss i hi]
    simp only [Option.map_none, Option.bind_some, Option.isSome_none, Bool.false_eq_true, if_false, search,
      load_eq_none s.buffer (Nat.le_add_left FRAMES 0), Option.bind_eq_bind, Option.bind_none]

/-- Both simulators get through every request without leaving an array, and report the
same hits, misses, resident pages and pointer. -/
def Agree (references : List Int32) : Prop :=
  ∀ requested, requested <+: references → ∃ s s', page_cache.simulateClock requested = some s ∧
    simulateClock requested = some s' ∧ s.hits = s'.hits ∧ s.misses = s'.misses ∧ s.buffer = s'.buffer ∧
    s.pointer = s'.pointer

/-- The first request of a string is a miss, and its search leaves the array. -/
theorem simulateClock_singleton {page : Int32} (hpage : page ≠ -1) : simulateClock [page] = none := by
  have hmiss : ¬ ∃ i, clock_init.buffer.get i = page := by
    rintro ⟨i, hi⟩
    have hempty : ∀ i, clock_init.buffer.get i = -1 := by decide
    exact hpage (hi.symm.trans (hempty i))
  have hbound : FRAMES < MAX_PAGES := by decide
  have hrequest := clock_request_beyond hbound clock_init page
  rw [if_neg hmiss] at hrequest
  simp [simulateClock, hrequest]

/-- The two simulators agree on the empty string only. -/
theorem simulateClock_agree_iff (references : List Int32) (hpages : ∀ page ∈ references, page ≠ -1) :
    Agree references ↔ references = [] := by
  constructor
  · intro hagree
    cases references with
    | nil => rfl
    | cons page rest =>
      obtain ⟨s, s', -, hs', -⟩ := hagree [page] ⟨rest, rfl⟩
      rw [simulateClock_singleton (hpages page (by simp))] at hs'
      cases hs'
  · rintro rfl requested hprefix
    rw [List.prefix_nil.mp hprefix]
    exact ⟨clock_init, clock_init, rfl, rfl, rfl, rfl, rfl, rfl⟩

theorem simulateClock_agree_pages : ¬ Agree [1, 2, 3, 4, 1, 2, 5, 1, 2, 3, 4, 5] := by
  rw [simulateClock_agree_iff _ (by simp)]
  decide

/-- The one request of page 1 makes `clock.c` read `buffer[3]`. -/
theorem simulateClock_disagree :
    ¬ ∀ references : List Int32, (∀ page ∈ references, page ≠ -1) → Agree references := by
  intro hall
  obtain ⟨s, s', -, hs', -⟩ := hall [1] (by simp) [1] (List.prefix_refl _)
  rw [simulateClock_singleton (by decide)] at hs'
  cases hs'

end csystems.page_replacement
