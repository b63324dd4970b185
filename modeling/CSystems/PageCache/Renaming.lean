import Mathlib.Data.Set.Function
import Mathlib.Logic.Equiv.Basic
import CSystems.PageCache.Occurrences

open clib.run

namespace csystems.page_cache

/-- The lists with every page renamed. -/
def rename (f : Int32 → Int32) (s : arc_t) : arc_t :=
  { s with T1 := s.T1.map f, T2 := s.T2.map f, B1 := s.B1.map f, B2 := s.B2.map f }

/-- `f` tells the page apart from all pages of the list. -/
def Separates (f : Int32 → Int32) (list : List Int32) (page : Int32) : Prop :=
  ∀ x ∈ list, f x = f page → x = page

section Lists

variable {f : Int32 → Int32} {list : List Int32} {page : Int32}

theorem Separates.mem_map_iff (h : Separates f list page) : f page ∈ list.map f ↔ page ∈ list := by
  constructor
  · intro hmem
    obtain ⟨x, hx, heq⟩ := List.mem_map.mp hmem
    rwa [← h x hx heq]
  · exact List.mem_map_of_mem

theorem Separates.contains_map (h : Separates f list page) : contains (list.map f) (f page) = contains list page := by
  rw [Bool.eq_iff_iff, contains_iff, contains_iff]
  exact h.mem_map_iff

theorem Separates.removeNode_map (h : Separates f list page) :
    removeNode (list.map f) (f page) = (removeNode list page).map f := by
  induction list with
  | nil => rfl
  | cons cur next ih =>
    rw [List.map_cons, removeNode, removeNode]
    by_cases hcur : cur = page
    · rw [if_pos hcur, if_pos (congrArg f hcur)]
    · have hne : f cur ≠ f page := fun heq => hcur (h cur (by simp) heq)
      rw [if_neg hcur, if_neg hne, List.map_cons, ih fun x hx => h x (by simp [hx])]

@[simp] theorem length_map (f : Int32 → Int32) (list : List Int32) : length (list.map f) = length list := by
  simp [length]

end Lists

section Replace

variable {f : Int32 → Int32} {s : arc_t}

/-- Whether page zero is a ghost of `T2` is the same after the renaming. -/
def SameZero (f : Int32 → Int32) (s : arc_t) : Prop := 0 ∈ s.B2 ↔ 0 ∈ s.B2.map f

/-- The eviction picks the same list after the renaming if its test of page zero
comes out the same whenever it decides. -/
theorem evicts_T1_rename (hzero : 1 ≤ length s.T1 → length s.T1 = s.p → SameZero f s) :
    evicts_T1 (rename f s) = evicts_T1 s := by
  unfold evicts_T1 rename
  simp only [length_map]
  by_cases hdecides : 1 ≤ length s.T1 ∧ length s.T1 = s.p
  · have hcontains : contains (s.B2.map f) 0 = contains s.B2 0 := by
      rw [Bool.eq_iff_iff, contains_iff, contains_iff]
      exact (hzero hdecides.1 hdecides.2).symm
    rw [hcontains]
  · by_cases hpos : 1 ≤ length s.T1
    · have hne : ¬ length s.T1 = s.p := fun heq => hdecides ⟨hpos, heq⟩
      simp [hne]
    · simp [hpos]

theorem replaceARC_rename (hghost : f (-1) = -1) (hzero : 1 ≤ length s.T1 → length s.T1 = s.p → SameZero f s) :
    replaceARC (rename f s) = rename f (replaceARC s) := by
  have hevicts := evicts_T1_rename hzero
  obtain ⟨T1, old, htrue, hT1, heq⟩ | ⟨T2, old, hfalse, hT2, heq⟩ | ⟨hfalse, hT2, heq⟩ := replaceARC_cases s
  · rw [heq, replaceARC, hevicts, if_pos htrue]
    simp [rename, hT1, addToFront]
  · rw [heq, replaceARC, hevicts, hfalse]
    simp [rename, hT2, addToFront]
  · rw [heq, replaceARC, hevicts, hfalse]
    simp [rename, hT2, addToFront, removeLRU, hghost]

end Replace

/-- The target at the eviction of a miss. -/
def target (s : arc_t) (page : Int32) : Int :=
  if contains s.B1 page then p_after_b1 s else if contains s.B2 page then p_after_b2 s else s.p

/-- The request misses and evicts. -/
def Evicts (s : arc_t) (page : Int32) : Prop :=
  page ∉ s.T1 ∧ page ∉ s.T2 ∧ (page ∈ s.B1 ∨ page ∈ s.B2 ∨ MAX_FRAMES ≤ length s.T1 + length s.T2)

instance decidableEvicts (s : arc_t) (page : Int32) : Decidable (Evicts s page) :=
  inferInstanceAs (Decidable (_ ∧ _ ∧ (_ ∨ _ ∨ _)))

/-- If the request evicts with `T1` exactly at its target, then page zero is a
ghost of `T2` exactly if the page renamed to zero is. -/
def ZeroBlind (f : Int32 → Int32) (s : arc_t) (page : Int32) : Prop :=
  Evicts s page → 1 ≤ length s.T1 → length s.T1 = target s page → (0 ∈ s.B2 ↔ ∃ x ∈ s.B2, x ≠ -1 ∧ f x = 0)

theorem mem_pages_replaceARC {s : arc_t} {x : Int32} (hmem : x ∈ pages (replaceARC s)) : x = -1 ∨ x ∈ pages s := by
  by_cases hx : x = -1
  · exact Or.inl hx
  · refine Or.inr ?_
    rwa [← List.count_pos_iff, replaceARC_count s fun h => absurd h hx, List.count_pos_iff] at hmem

theorem mem_pages_step {s : arc_t} {page x : Int32} (hmem : x ∈ pages (step s page)) :
    x = -1 ∨ x = page ∨ x ∈ pages s := by
  by_cases hx : x = -1
  · exact Or.inl hx
  by_cases hpage : x = page
  · exact Or.inr (Or.inl hpage)
  · refine Or.inr (Or.inr ?_)
    rwa [← List.count_pos_iff, step_count hx, if_neg fun h => hpage h.1, Nat.add_zero, List.count_pos_iff] at hmem

section Request

variable {f : Int32 → Int32} {names : Set Int32} {s : arc_t} {page : Int32}

/-- The lists hold names that `f` keeps apart, `-1` being one of them. -/
structure Named (f : Int32 → Int32) (names : Set Int32) (s : arc_t) : Prop where
  inj : Set.InjOn f names
  ghost_mem : -1 ∈ names
  ghost_eq : f (-1) = -1
  pages_mem : ∀ x ∈ pages s, x ∈ names

section Separates

variable (h : Named f names s) (hpage : page ∈ names)

include h hpage

theorem Named.separates_T1 : Separates f s.T1 page :=
  fun x hx heq => h.inj (h.pages_mem x (mem_pages.mpr (by simp [hx]))) hpage heq

theorem Named.separates_T2 : Separates f s.T2 page :=
  fun x hx heq => h.inj (h.pages_mem x (mem_pages.mpr (by simp [hx]))) hpage heq

theorem Named.separates_B1 : Separates f s.B1 page :=
  fun x hx heq => h.inj (h.pages_mem x (mem_pages.mpr (by simp [hx]))) hpage heq

theorem Named.separates_B2 : Separates f s.B2 page :=
  fun x hx heq => h.inj (h.pages_mem x (mem_pages.mpr (by simp [hx]))) hpage heq

end Separates

theorem Named.replaced (h : Named f names s) : Named f names (replaceARC s) := by
  refine ⟨h.inj, h.ghost_mem, h.ghost_eq, ?_⟩
  intro x hx
  obtain rfl | hx := mem_pages_replaceARC hx
  · exact h.ghost_mem
  · exact h.pages_mem x hx

theorem Named.next (h : Named f names s) (hpage : page ∈ names) : Named f names (step s page) := by
  refine ⟨h.inj, h.ghost_mem, h.ghost_eq, ?_⟩
  intro x hx
  obtain rfl | rfl | hx := mem_pages_step hx
  · exact h.ghost_mem
  · exact hpage
  · exact h.pages_mem x hx

theorem p_after_b1_rename (f : Int32 → Int32) (s : arc_t) : p_after_b1 (rename f s) = p_after_b1 s := by
  simp [p_after_b1, rename]

theorem p_after_b2_rename (f : Int32 → Int32) (s : arc_t) : p_after_b2 (rename f s) = p_after_b2 s := by
  simp [p_after_b2, rename]

theorem Named.hit_T1_rename (h : Named f names s) (hpage : page ∈ names) :
    hit_T1 (rename f s) (f page) = rename f (hit_T1 s page) := by
  simp only [hit_T1, rename, (h.separates_T1 hpage).removeNode_map, addToFront, List.map_cons]

theorem Named.hit_T2_rename (h : Named f names s) (hpage : page ∈ names) :
    hit_T2 (rename f s) (f page) = rename f (hit_T2 s page) := by
  simp only [hit_T2, rename, (h.separates_T2 hpage).removeNode_map, addToFront, List.map_cons]

theorem Named.miss_B1_rename (h : Named f names s) (hpage : page ∈ names)
    (hzero : 1 ≤ length s.T1 → length s.T1 = p_after_b1 s → SameZero f s) :
    miss_B1 (rename f s) (f page) = rename f (miss_B1 s page) := by
  have hnamed : Named f names { s with p := p_after_b1 s, missesARC := s.missesARC + 1 } :=
    ⟨h.inj, h.ghost_mem, h.ghost_eq, h.pages_mem⟩
  have hreplace := replaceARC_rename (s := { s with p := p_after_b1 s, missesARC := s.missesARC + 1 })
    hnamed.ghost_eq hzero
  have hsep := hnamed.replaced.separates_B1 hpage
  have hstart : { rename f s with p := p_after_b1 (rename f s), missesARC := s.missesARC + 1 } =
      rename f { s with p := p_after_b1 s, missesARC := s.missesARC + 1 } := by
    rw [p_after_b1_rename]
    rfl
  have hmisses : (rename f s).missesARC = s.missesARC := rfl
  rw [miss_B1, miss_B1, hmisses, hstart, hreplace]
  simp only [rename, hsep.removeNode_map, addToFront, List.map_cons]

theorem Named.miss_B2_rename (h : Named f names s) (hpage : page ∈ names)
    (hzero : 1 ≤ length s.T1 → length s.T1 = p_after_b2 s → SameZero f s) :
    miss_B2 (rename f s) (f page) = rename f (miss_B2 s page) := by
  have hnamed : Named f names { s with p := p_after_b2 s, missesARC := s.missesARC + 1 } :=
    ⟨h.inj, h.ghost_mem, h.ghost_eq, h.pages_mem⟩
  have hreplace := replaceARC_rename (s := { s with p := p_after_b2 s, missesARC := s.missesARC + 1 })
    hnamed.ghost_eq hzero
  have hsep := hnamed.replaced.separates_B2 hpage
  have hstart : { rename f s with p := p_after_b2 (rename f s), missesARC := s.missesARC + 1 } =
      rename f { s with p := p_after_b2 s, missesARC := s.missesARC + 1 } := by
    rw [p_after_b2_rename]
    rfl
  have hmisses : (rename f s).missesARC = s.missesARC := rfl
  rw [miss_B2, miss_B2, hmisses, hstart, hreplace]
  simp only [rename, hsep.removeNode_map, addToFront, List.map_cons]

theorem Named.miss_new_rename (h : Named f names s)
    (hzero : MAX_FRAMES ≤ length s.T1 + length s.T2 → 1 ≤ length s.T1 → length s.T1 = s.p → SameZero f s) :
    miss_new (rename f s) (f page) = rename f (miss_new s page) := by
  have hcached : length (rename f s).T1 + length (rename f s).T2 = length s.T1 + length s.T2 := by
    simp [rename]
  by_cases hfull : MAX_FRAMES ≤ length s.T1 + length s.T2
  · have hreplace := replaceARC_rename (s := { s with missesARC := s.missesARC + 1 }) h.ghost_eq (hzero hfull)
    have hstart : { rename f s with missesARC := (rename f s).missesARC + 1 } =
        rename f { s with missesARC := s.missesARC + 1 } := rfl
    have hfull' : MAX_FRAMES ≤ length (rename f s).T1 + length (rename f s).T2 := hcached ▸ hfull
    rw [miss_new, miss_new, if_pos hfull, if_pos hfull', hstart, hreplace]
    simp only [rename, addToFront, List.map_cons]
  · have hfull' : ¬ MAX_FRAMES ≤ length (rename f s).T1 + length (rename f s).T2 := hcached ▸ hfull
    rw [miss_new, miss_new, if_neg hfull, if_neg hfull']
    simp only [rename, addToFront, List.map_cons]

/-- A request of the renamed page on the renamed lists does what the request of
the page does. -/
theorem Named.request_rename (h : Named f names s) (hpage : page ∈ names)
    (hzero : Evicts s page → 1 ≤ length s.T1 → length s.T1 = target s page → SameZero f s) :
    request (rename f s) (f page) = ((request s page).1, rename f (request s page).2) := by
  have hT1 : contains (rename f s).T1 (f page) = contains s.T1 page := (h.separates_T1 hpage).contains_map
  have hT2 : contains (rename f s).T2 (f page) = contains s.T2 page := (h.separates_T2 hpage).contains_map
  have hB1 : contains (rename f s).B1 (f page) = contains s.B1 page := (h.separates_B1 hpage).contains_map
  have hB2 : contains (rename f s).B2 (f page) = contains s.B2 page := (h.separates_B2 hpage).contains_map
  rw [request, hT1, hT2, hB1, hB2]
  obtain ⟨hT1, heq⟩ | ⟨hT1, hT2, heq⟩ | ⟨hT1, hT2, hB1, heq⟩ | ⟨hT1, hT2, hB1, hB2, heq⟩ |
    ⟨hT1, hT2, hB1, hB2, heq⟩ := request_cases s page
  · simp [heq, hT1, h.hit_T1_rename hpage]
  · simp [heq, hT1, hT2, h.hit_T2_rename hpage]
  · have hmiss := h.miss_B1_rename hpage fun hpos htarget =>
      hzero ⟨hT1, hT2, Or.inl hB1⟩ hpos (by simpa [target, hB1] using htarget)
    simp [heq, hT1, hT2, hB1, hmiss]
  · have hmiss := h.miss_B2_rename hpage fun hpos htarget =>
      hzero ⟨hT1, hT2, Or.inr (Or.inl hB2)⟩ hpos (by simpa [target, hB1, hB2] using htarget)
    simp [heq, hT1, hT2, hB1, hB2, hmiss]
  · have hmiss : miss_new (rename f s) (f page) = rename f (miss_new s page) :=
      h.miss_new_rename fun hfull hpos htarget =>
        hzero ⟨hT1, hT2, Or.inr (Or.inr hfull)⟩ hpos (by simpa [target, hB1, hB2] using htarget)
    simp [heq, hT1, hT2, hB1, hB2, hmiss]

end Request

section Run

variable {f : Int32 → Int32}

/-- `f` renames the pages of the string apart, and none of them is or becomes `-1`. -/
structure Renames (f : Int32 → Int32) (references : List Int32) : Prop where
  inj : Set.InjOn f { x | x ∈ references }
  real : ∀ x ∈ references, x ≠ -1 ∧ f x ≠ -1

/-- The original and the renamed string give the same hit or miss at every request
and the same totals. -/
def SameOutcomes (f : Int32 → Int32) (references : List Int32) : Prop :=
  (simulateARC (references.map f)).1.map outcome_t.is_hit = (simulateARC references).1.map outcome_t.is_hit ∧
    (simulateARC (references.map f)).2.hitsARC = (simulateARC references).2.hitsARC ∧
    (simulateARC (references.map f)).2.missesARC = (simulateARC references).2.missesARC

/-- The renaming, leaving `-1` alone. -/
def fixing (f : Int32 → Int32) (x : Int32) : Int32 := if x = -1 then -1 else f x

theorem map_fixing {references : List Int32} (h : Renames f references) :
    references.map (fixing f) = references.map f := by
  refine List.map_congr_left ?_
  intro x hx
  rw [fixing, if_neg (h.real x hx).1]

theorem Renames.named {references : List Int32} (h : Renames f references) :
    Named (fixing f) { x | x = -1 ∨ x ∈ references } arc_init := by
  refine ⟨?_, Or.inl rfl, if_pos rfl, by simp [pages, arc_init]⟩
  intro x hx y hy heq
  obtain rfl | hx := hx
  · obtain rfl | hy := hy
    · rfl
    · rw [fixing, fixing, if_pos rfl, if_neg (h.real y hy).1] at heq
      exact absurd heq.symm (h.real y hy).2
  · rw [fixing, if_neg (h.real x hx).1] at heq
    obtain rfl | hy := hy
    · rw [fixing, if_pos rfl] at heq
      exact absurd heq (h.real x hx).2
    · rw [fixing, if_neg (h.real y hy).1] at heq
      exact h.inj hx hy heq

theorem ZeroBlind.sameZero {s : arc_t} {page : Int32} (h : ZeroBlind f s page) (hevicts : Evicts s page)
    (hpos : 1 ≤ length s.T1) (htarget : length s.T1 = target s page) : SameZero (fixing f) s := by
  rw [SameZero, h hevicts hpos htarget, List.mem_map]
  refine exists_congr fun x => and_congr_right fun _ => ?_
  by_cases hx : x = -1
  · subst hx
    simp [fixing]
  · simp [fixing, hx]

/-- The renamed run goes through the renamed states. -/
theorem Named.simulate_rename {names : Set Int32} {s : arc_t} (h : Named (fixing f) names s)
    {references : List Int32} (hreferences : ∀ x ∈ references, x ∈ names)
    (hblind : AllSteps step (ZeroBlind f) s references) :
    simulate (rename (fixing f) s) (references.map (fixing f)) =
      ((simulate s references).1, rename (fixing f) (simulate s references).2) := by
  induction references generalizing s with
  | nil => rfl
  | cons page references ih =>
    obtain ⟨hfirst, hrest⟩ := hblind
    have hpage : page ∈ names := hreferences page (by simp)
    have hrequest := h.request_rename hpage fun hevicts hpos htarget => hfirst.sameZero hevicts hpos htarget
    have htail := ih (h.next hpage) (fun x hx => hreferences x (by simp [hx])) hrest
    rw [List.map_cons, simulate, hrequest]
    rw [step] at htail
    simp only [simulate, htail]

/-- Outcomes do not depend on the names of the pages as long as the test of page
zero comes out the same. -/
theorem Renames.sameOutcomes {references : List Int32} (h : Renames f references)
    (hblind : AllSteps step (ZeroBlind f) arc_init references) : SameOutcomes f references := by
  have hrun := h.named.simulate_rename (fun x hx => Or.inr hx) hblind
  have hinit : rename (fixing f) arc_init = arc_init := rfl
  rw [hinit, map_fixing h] at hrun
  simp only [SameOutcomes, simulateARC, hrun]
  exact ⟨trivial, rfl, rfl⟩

/-- The lists hold pages of the string, and `-1`. -/
def Within (references : List Int32) (s : arc_t) : Prop := ∀ x ∈ pages s, x ≠ -1 → x ∈ references

/-- The test of page zero comes out the same along a run if it does on the string. -/
theorem zeroBlind_of_within {references : List Int32}
    (hzero : ∀ x ∈ references, x ≠ -1 → (f x = 0 ↔ x = 0)) :
    AllSteps step (ZeroBlind f) arc_init references := by
  refine AllSteps.of_invariant (D := fun page => page ∈ references) ?_ ?_
    (show Within references arc_init by simp [Within, pages, arc_init]) fun _ h => h
  · intro s page hpage h x hx hne
    obtain hghost | rfl | hx := mem_pages_step hx
    · exact absurd hghost hne
    · exact hpage
    · exact h x hx hne
  · intro s page hpage h _ _ _
    constructor
    · intro hmem
      have hne : (0 : Int32) ≠ -1 := by decide
      have hin : 0 ∈ references := h 0 (mem_pages.mpr (by simp [hmem])) hne
      exact ⟨0, hmem, hne, (hzero 0 hin hne).mpr rfl⟩
    · rintro ⟨x, hmem, hne, heq⟩
      have hin : x ∈ references := h x (mem_pages.mpr (by simp [hmem])) hne
      rwa [(hzero x hin hne).mp heq] at hmem

/-- `f` renames all pages apart, and none of them becomes `-1`. -/
structure RenamesAll (f : Int32 → Int32) : Prop where
  inj : Set.InjOn f { x | x ≠ -1 }
  real : ∀ x, x ≠ -1 → f x ≠ -1

theorem RenamesAll.renames (h : RenamesAll f) {references : List Int32} (hreal : ∀ x ∈ references, x ≠ -1) :
    Renames f references :=
  ⟨fun x hx y hy heq => h.inj (hreal x hx) (hreal y hy) heq, fun x hx => ⟨hreal x hx, h.real x (hreal x hx)⟩⟩

/-- Page zero replaced by another one. -/
def without_zero (w x : Int32) : Int32 := if x = 0 then w else x

/-- Where no page is renamed to zero, the renamed run is that of the string with
page zero replaced. -/
theorem RenamesAll.outcomes_without_zero (h : RenamesAll f) {references : List Int32} {w : Int32}
    (hreal : ∀ x ∈ references, x ≠ -1) (hw : w ≠ -1 ∧ w ≠ 0 ∧ w ∉ references) (hnot : 0 ∉ references.map f) :
    (simulateARC (references.map f)).1.map outcome_t.is_hit =
      (simulateARC (references.map (without_zero w))).1.map outcome_t.is_hit := by
  obtain ⟨hghost, hwzero, hfresh⟩ := hw
  let back : Int32 → Int32 := fun y => if y = w then f 0 else f y
  have hback : ∀ x ∈ references, back (without_zero w x) = f x := by
    intro x hx
    by_cases hzero : x = 0
    · simp [back, without_zero, hzero]
    · have hne : x ≠ w := fun heq => hfresh (heq ▸ hx)
      simp [back, without_zero, hzero, hne]
  have hmap : (references.map (without_zero w)).map back = references.map f := by
    rw [List.map_map]
    exact List.map_congr_left hback
  have hrenames : Renames back (references.map (without_zero w)) := by
    refine ⟨?_, ?_⟩
    · intro y hy z hz heq
      obtain ⟨x, hx, rfl⟩ := List.mem_map.mp hy
      obtain ⟨x', hx', rfl⟩ := List.mem_map.mp hz
      rw [hback x hx, hback x' hx'] at heq
      rw [h.inj (hreal x hx) (hreal x' hx') heq]
    · intro y hy
      obtain ⟨x, hx, rfl⟩ := List.mem_map.mp hy
      rw [hback x hx]
      refine ⟨?_, h.real x (hreal x hx)⟩
      unfold without_zero
      split_ifs
      · exact hghost
      · exact hreal x hx
  have hzero : ∀ y ∈ references.map (without_zero w), y ≠ -1 → (back y = 0 ↔ y = 0) := by
    intro y hy _
    obtain ⟨x, hx, rfl⟩ := List.mem_map.mp hy
    rw [hback x hx]
    refine iff_of_false ?_ ?_
    · intro heq
      exact hnot (List.mem_map.mpr ⟨x, hx, heq⟩)
    · unfold without_zero
      split_ifs with hx0
      · exact hwzero
      · exact hx0
  have hsame := (hrenames.sameOutcomes (zeroBlind_of_within hzero)).1
  rwa [hmap] at hsame

/-- A renaming that moves page zero changes a hit to a miss on one of two strings. -/
theorem RenamesAll.distinguishes (h : RenamesAll f) (hzero : f 0 ≠ 0) :
    ∃ references : List Int32, (∀ x ∈ references, x ≠ -1) ∧ ¬ SameOutcomes f references := by
  by_cases hfirst : 0 ∈ [0, 1, 2, 3, 0, 1, 4, 1].map f
  · refine ⟨[0, 5, 6, 7, 0, 5, 8, 5], by simp, ?_⟩
    intro hsame
    have hnot : 0 ∉ [0, 5, 6, 7, 0, 5, 8, 5].map f := by
      intro hsecond
      obtain ⟨x, hx, hfx⟩ := List.mem_map.mp hfirst
      obtain ⟨y, hy, hfy⟩ := List.mem_map.mp hsecond
      have hx0 : x ≠ 0 := fun heq => hzero (heq ▸ hfx)
      have hxreal : x ≠ -1 := by
        rintro rfl
        simp at hx
      have hyreal : y ≠ -1 := by
        rintro rfl
        simp at hy
      have hxy := h.inj hxreal hyreal (hfx.trans hfy.symm)
      subst hxy
      simp only [List.mem_cons, List.not_mem_nil, or_false] at hx hy
      obtain rfl | rfl | rfl | rfl | rfl | rfl | rfl | rfl := hx <;> simp at hy hx0
    have hrenamed := (h.outcomes_without_zero (w := 9) (by simp) (by simp) hnot).symm.trans hsame.1
    revert hrenamed
    decide
  · refine ⟨[0, 1, 2, 3, 0, 1, 4, 1], by simp, ?_⟩
    intro hsame
    have hrenamed := (h.outcomes_without_zero (w := 9) (by simp) (by simp) hfirst).symm.trans hsame.1
    revert hrenamed
    decide

end Run

/-- A renaming leaves the outcomes of a run alone if, at every eviction with `T1`
exactly at its target, page zero is a ghost of `T2` exactly if the page renamed
to zero is; it does so for every string exactly if it leaves page zero alone. -/
theorem arc_renaming (f : Int32 → Int32) :
    (∀ references, Renames f references → AllSteps step (ZeroBlind f) arc_init references →
      SameOutcomes f references) ∧
    (RenamesAll f → ((∀ references : List Int32, (∀ x ∈ references, x ≠ -1) → SameOutcomes f references) ↔ f 0 = 0)) := by
  refine ⟨fun references h hblind => h.sameOutcomes hblind, fun h => ⟨?_, ?_⟩⟩
  · intro hall
    by_contra hzero
    obtain ⟨references, hreal, hnot⟩ := h.distinguishes hzero
    exact hnot (hall references hreal)
  · intro hzero references hreal
    refine (h.renames hreal).sameOutcomes (zeroBlind_of_within ?_)
    intro x hx hne
    constructor
    · intro heq
      exact h.inj hne (show (0 : Int32) ≠ -1 by decide) (heq.trans hzero.symm)
    · rintro rfl
      exact hzero

/-- Exchanging pages zero and one goes unnoticed until something is evicted, and
exchanging one and two always does. -/
theorem arc_renaming_swap :
    SameOutcomes (Equiv.swap 0 1) [0, 1, 2] ∧
      ∀ references : List Int32, (∀ x ∈ references, x ≠ -1) → SameOutcomes (Equiv.swap 1 2) references := by
  have hreal (x a b : Int32) (hx : x ≠ -1) (ha : a ≠ -1) (hb : b ≠ -1) : Equiv.swap a b x ≠ -1 := by
    rw [Equiv.swap_apply_def]
    split_ifs
    · exact hb
    · exact ha
    · exact hx
  constructor
  · refine (arc_renaming (Equiv.swap 0 1)).1 [0, 1, 2] ⟨(Equiv.injective _).injOn, ?_⟩ ?_
    · intro x hx
      have hne : x ≠ -1 := by
        rintro rfl
        simp at hx
      exact ⟨hne, hreal x 0 1 hne (by decide) (by decide)⟩
    · exact ⟨fun h => absurd h (by decide), fun h => absurd h (by decide), fun h => absurd h (by decide), trivial⟩
  · refine ((arc_renaming (Equiv.swap 1 2)).2 ⟨(Equiv.injective _).injOn, ?_⟩).mpr (by decide)
    exact fun x hx => hreal x 1 2 hx (by decide) (by decide)

/-- With page zero renamed to nine the last request misses. -/
theorem arc_renaming_noticed :
    ¬ ∀ (f : Int32 → Int32) (references : List Int32), Renames f references → SameOutcomes f references := by
  intro hall
  have hrenames : Renames (without_zero 9) [0, 1, 2, 3, 0, 1, 4, 1] := by
    refine ⟨?_, by simp [without_zero]⟩
    intro x hx y hy heq
    have hnine (z : Int32) (hz : z ∈ [0, 1, 2, 3, 0, 1, 4, 1]) : z ≠ 9 := by
      rintro rfl
      simp at hz
    unfold without_zero at heq
    split_ifs at heq with hx0 hy0 hy0
    · exact hx0.trans hy0.symm
    · exact absurd heq.symm (hnine y hy)
    · exact absurd heq (hnine x hx)
    · exact heq
  have hsame := (hall _ _ hrenames).1
  revert hsame
  decide

end csystems.page_cache
