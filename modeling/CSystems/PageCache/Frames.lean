import CSystems.PageCache.Occurrences

open clib.run

namespace csystems.page_cache

/-- The cached pages fit in the frames, and every list holds requested pages only. -/
def WithinFrames (requested : List Int32) (s : arc_t) : Prop :=
  length s.T1 + length s.T2 ≤ MAX_FRAMES ∧ ∀ page ∈ s.T1 ++ s.T2 ++ s.B1 ++ s.B2, page ∈ requested

/-- The request misses with all frames holding pages of `T1` and none of `T2`,
page zero being no ghost of `T2` and the target the whole cache, or about to be
raised to it by a hit in `B1`. -/
def EvictsNothing (s : arc_t) (page : Int32) : Prop :=
  page ∉ s.T1 ∧ length s.T1 = MAX_FRAMES ∧ s.T2 = [] ∧ 0 ∉ s.B2 ∧
    (page ∈ s.B1 ∧ MAX_FRAMES ≤ s.p + 1 ∨ page ∉ s.B1 ∧ page ∉ s.B2 ∧ MAX_FRAMES ≤ s.p)

instance decidableEvictsNothing (s : arc_t) (page : Int32) : Decidable (EvictsNothing s page) :=
  inferInstanceAs (Decidable (_ ∧ _ ∧ _ ∧ _ ∧ (_ ∨ _)))

/-- All frames are in use once a page has become a ghost. -/
structure Full (s : arc_t) : Prop where
  cached_le : length s.T1 + length s.T2 ≤ MAX_FRAMES
  cached_eq : s.B1 ≠ [] ∨ s.B2 ≠ [] → length s.T1 + length s.T2 = MAX_FRAMES

theorem p_after_b1_eq_iff {s : arc_t} (h : s.p ≤ MAX_FRAMES) :
    MAX_FRAMES ≤ p_after_b1 s ↔ MAX_FRAMES ≤ s.p + 1 := by
  unfold p_after_b1 MAX_FRAMES at *
  split_ifs <;> omega

theorem p_after_b2_lt {s : arc_t} (h : s.p ≤ MAX_FRAMES) : p_after_b2 s < MAX_FRAMES := by
  unfold p_after_b2 MAX_FRAMES at *
  split_ifs <;> omega

/-- With all frames in use, an eviction finds nothing exactly if they all hold
pages of `T1`, which the target allows. -/
theorem evictsEmpty_iff {s : arc_t} (hfull : length s.T1 + length s.T2 = MAX_FRAMES) (hp : s.p ≤ MAX_FRAMES) :
    EvictsEmpty s ↔ length s.T1 = MAX_FRAMES ∧ s.T2 = [] ∧ 0 ∉ s.B2 ∧ MAX_FRAMES ≤ s.p := by
  have hmax : MAX_FRAMES = 3 := rfl
  rw [EvictsEmpty, ← Bool.not_eq_true, evicts_T1_iff]
  unfold length at *
  constructor
  · rintro ⟨hevicts, hT2⟩
    rw [hT2, List.length_nil] at hfull
    refine ⟨by omega, hT2, ?_, ?_⟩
    · intro hzero
      refine hevicts ⟨by omega, ?_⟩
      by_cases hlt : s.p < s.T1.length
      · exact Or.inl hlt
      · exact Or.inr ⟨hzero, by omega⟩
    · by_contra hlt
      exact hevicts ⟨by omega, Or.inl (by omega)⟩
  · rintro ⟨hT1, hT2, hzero, htarget⟩
    refine ⟨?_, hT2⟩
    rintro ⟨-, hlt | ⟨hmem, -⟩⟩
    · omega
    · exact hzero hmem

theorem length_erase_add_length_cons {list : List Int32} {page : Int32} (hmem : page ∈ list) (target : List Int32) :
    length (list.erase page) + length (page :: target) = length list + length target := by
  have hpos := List.length_pos_of_mem hmem
  have hlength := List.length_erase_of_mem hmem
  simp only [length, List.length_cons]
  omega

/-- An eviction that finds something frees a frame. -/
theorem replaceARC_length {s : arc_t} (hsome : ¬ EvictsEmpty s) :
    length (replaceARC s).T1 + length (replaceARC s).T2 + 1 = length s.T1 + length s.T2 := by
  obtain ⟨T1, old, -, hT1, heq⟩ | ⟨T2, old, -, hT2, heq⟩ | ⟨hevicts, hT2, heq⟩ := replaceARC_cases s
  · simp only [heq, hT1, length, List.length_append, List.length_singleton]
    omega
  · simp only [heq, hT2, length, List.length_append, List.length_singleton]
    omega
  · exact absurd ⟨hevicts, hT2⟩ hsome

section Full

variable {s : arc_t} {page : Int32} (h : Full s)

include h

/-- The eviction after a hit in `B2` always finds something. -/
theorem Full.not_evictsEmpty_b2 (hp : s.p ≤ MAX_FRAMES) (hB2 : page ∈ s.B2) :
    ¬ EvictsEmpty { s with p := p_after_b2 s } := by
  have hfull := h.cached_eq (Or.inr (List.ne_nil_of_mem hB2))
  have htarget := p_after_b2_lt hp
  rw [evictsEmpty_iff (s := { s with p := p_after_b2 s }) hfull htarget.le]
  rintro ⟨-, -, -, hle⟩
  exact htarget.not_ge hle

theorem Full.hit_T1 (hT1 : page ∈ s.T1) : Full (hit_T1 s page) := by
  have hlength := length_erase_add_length_cons hT1 s.T2
  rw [← removeNode_eq] at hlength
  exact ⟨hlength.trans_le h.cached_le, fun hghost => hlength.trans (h.cached_eq hghost)⟩

theorem Full.hit_T2 (hT2 : page ∈ s.T2) : Full (hit_T2 s page) := by
  have hlength := length_erase_add_length_cons hT2 []
  have hsum : length (page_cache.hit_T2 s page).T1 + length (page_cache.hit_T2 s page).T2 =
      length s.T1 + length s.T2 := by
    simp only [page_cache.hit_T2, addToFront, removeNode_eq, length, List.length_cons, List.length_nil] at hlength ⊢
    omega
  exact ⟨hsum.trans_le h.cached_le, fun hghost => hsum.trans (h.cached_eq hghost)⟩

theorem Full.miss_B1 (hB1 : page ∈ s.B1) (hsome : ¬ EvictsEmpty { s with p := p_after_b1 s }) :
    Full (miss_B1 s page) := by
  have hfull := h.cached_eq (Or.inl (List.ne_nil_of_mem hB1))
  have hlength := replaceARC_length (s := { s with p := p_after_b1 s, missesARC := s.missesARC + 1 }) hsome
  have hsum : length (page_cache.miss_B1 s page).T1 + length (page_cache.miss_B1 s page).T2 = MAX_FRAMES := by
    simp only [page_cache.miss_B1, addToFront, length, List.length_cons] at hlength hfull ⊢
    omega
  exact ⟨hsum.le, fun _ => hsum⟩

theorem Full.miss_B2 (hB2 : page ∈ s.B2) (hsome : ¬ EvictsEmpty { s with p := p_after_b2 s }) :
    Full (miss_B2 s page) := by
  have hfull := h.cached_eq (Or.inr (List.ne_nil_of_mem hB2))
  have hlength := replaceARC_length (s := { s with p := p_after_b2 s, missesARC := s.missesARC + 1 }) hsome
  have hsum : length (page_cache.miss_B2 s page).T1 + length (page_cache.miss_B2 s page).T2 = MAX_FRAMES := by
    simp only [page_cache.miss_B2, addToFront, length, List.length_cons] at hlength hfull ⊢
    omega
  exact ⟨hsum.le, fun _ => hsum⟩

theorem Full.miss_new (hsome : MAX_FRAMES ≤ length s.T1 + length s.T2 → ¬ EvictsEmpty s) (page : Int32) :
    Full (miss_new s page) := by
  have hle := h.cached_le
  by_cases hfull : MAX_FRAMES ≤ length s.T1 + length s.T2
  · have hlength := replaceARC_length (s := { s with missesARC := s.missesARC + 1 }) (hsome hfull)
    have hsum : length (page_cache.miss_new s page).T1 + length (page_cache.miss_new s page).T2 = MAX_FRAMES := by
      rw [page_cache.miss_new, if_pos hfull]
      simp only [addToFront, length, List.length_cons] at hlength hfull hle ⊢
      omega
    exact ⟨hsum.le, fun _ => hsum⟩
  · have hnew : page_cache.miss_new s page =
        { s with missesARC := s.missesARC + 1, T1 := addToFront s.T1 page } := by
      rw [page_cache.miss_new, if_neg hfull]
    rw [hnew]
    refine ⟨?_, fun hghost => absurd (h.cached_eq hghost).ge hfull⟩
    simp only [addToFront, length, List.length_cons] at hfull ⊢
    omega

end Full

/-- What every request keeps as long as no eviction came up empty. -/
structure InFrames (requested : List Int32) (s : arc_t) : Prop where
  ledger : Ledger requested s
  full : Full s
  clean : -1 ∉ pages s
  real : -1 ∉ requested

section Step

variable {requested : List Int32} {s : arc_t} {page : Int32}

theorem InFrames.withinFrames (h : InFrames requested s) : WithinFrames requested s := by
  refine ⟨h.full.cached_le, ?_⟩
  intro page hmem
  have hne : page ≠ -1 := by
    rintro rfl
    exact h.clean hmem
  exact (h.ledger.mem_pages_iff hne).mp hmem

/-- The eviction after a hit in `B1` finds nothing exactly if the request is bad. -/
theorem InFrames.evictsEmpty_b1_iff (h : InFrames requested s) (hT1 : page ∉ s.T1) (hB1 : page ∈ s.B1) :
    EvictsEmpty { s with p := p_after_b1 s } ↔ EvictsNothing s page := by
  have hfull := h.full.cached_eq (Or.inl (List.ne_nil_of_mem hB1))
  have htarget := p_after_b1_eq_iff h.ledger.p_le
  have hp : p_after_b1 s ≤ MAX_FRAMES := by
    unfold p_after_b1 MAX_FRAMES
    split_ifs <;> omega
  rw [evictsEmpty_iff (s := { s with p := p_after_b1 s }) hfull hp, EvictsNothing, htarget]
  simp only [hT1, hB1, not_true_eq_false, not_false_eq_true, true_and, false_and, or_false]

/-- The eviction for a new page finds nothing exactly if the request is bad. -/
theorem InFrames.evictsEmpty_new_iff (h : InFrames requested s) (hT1 : page ∉ s.T1) (hB1 : page ∉ s.B1)
    (hB2 : page ∉ s.B2) (hfull : MAX_FRAMES ≤ length s.T1 + length s.T2) :
    EvictsEmpty s ↔ EvictsNothing s page := by
  have hle := h.full.cached_le
  rw [evictsEmpty_iff (by omega) h.ledger.p_le, EvictsNothing]
  simp only [hT1, hB1, hB2, not_false_eq_true, true_and, false_and, false_or]

private theorem not_mem_of_count {s s' : arc_t} (hclean : -1 ∉ pages s)
    (hcount : (pages s').count (-1) = (pages s).count (-1)) : -1 ∉ pages s' := by
  rwa [← List.count_eq_zero, hcount, List.count_eq_zero]

/-- A request whose eviction finds something leaves the cached pages within the
frames. -/
theorem InFrames.step (h : InFrames requested s) (hpage : page ≠ -1) (hgood : ¬ EvictsNothing s page) :
    InFrames (requested ++ [page]) (step s page) := by
  have hreal : -1 ∉ requested ++ [page] := by
    simpa using ⟨h.real, Ne.symm hpage⟩
  suffices hstep : Full (page_cache.step s page) ∧ -1 ∉ pages (page_cache.step s page) from
    ⟨h.ledger.step page, hstep.1, hstep.2, hreal⟩
  unfold page_cache.step
  obtain ⟨hT1, heq⟩ | ⟨hT1, hT2, heq⟩ | ⟨hT1, hT2, hB1, heq⟩ | ⟨hT1, hT2, hB1, hB2, heq⟩ |
    ⟨hT1, hT2, hB1, hB2, heq⟩ := request_cases s page
  · rw [heq]
    exact ⟨h.full.hit_T1 hT1, not_mem_of_count h.clean (hit_T1_count hT1 (-1))⟩
  · rw [heq]
    exact ⟨h.full.hit_T2 hT2, not_mem_of_count h.clean (hit_T2_count hT2 (-1))⟩
  · have hsome := (h.evictsEmpty_b1_iff hT1 hB1).not.mpr hgood
    rw [heq]
    exact ⟨h.full.miss_B1 hB1 hsome, not_mem_of_count h.clean (miss_B1_count hB1 fun _ => hsome)⟩
  · have hsome := h.full.not_evictsEmpty_b2 h.ledger.p_le hB2
    rw [heq]
    exact ⟨h.full.miss_B2 hB2 hsome, not_mem_of_count h.clean (miss_B2_count hB2 fun _ => hsome)⟩
  · have hsome (hfull : MAX_FRAMES ≤ length s.T1 + length s.T2) : ¬ EvictsEmpty s :=
      (h.evictsEmpty_new_iff hT1 hB1 hB2 hfull).not.mpr hgood
    have hcount : (pages (miss_new s page)).count (-1) = (pages s).count (-1) := by
      rw [miss_new_count fun _ => hsome, if_neg hpage, Nat.add_zero]
    rw [heq]
    exact ⟨h.full.miss_new hsome page, not_mem_of_count h.clean hcount⟩

theorem neg_one_mem_replaceARC {s : arc_t} (h : EvictsEmpty s) : -1 ∈ (replaceARC s).B2 := by
  obtain ⟨hevicts, hT2⟩ := h
  obtain ⟨T1, old, htrue, -, -⟩ | ⟨T2, old, -, hlast, -⟩ | ⟨-, -, heq⟩ := replaceARC_cases s
  · rw [hevicts] at htrue
    cases htrue
  · rw [hT2] at hlast
    simp at hlast
  · rw [heq]
    exact List.mem_cons_self

/-- A bad request makes `-1` a ghost. -/
theorem InFrames.neg_one_mem_step (h : InFrames requested s) (hbad : EvictsNothing s page) :
    -1 ∈ (page_cache.step s page).B2 := by
  obtain ⟨hnotT1, hlength, hnotT2, hzero, hwhere⟩ := id hbad
  unfold page_cache.step
  obtain ⟨hT1, -⟩ | ⟨-, hT2, -⟩ | ⟨-, -, hB1, heq⟩ | ⟨-, -, hB1, hB2, -⟩ | ⟨hT1, -, hB1, hB2, heq⟩ :=
    request_cases s page
  · exact absurd hT1 hnotT1
  · rw [hnotT2] at hT2
    cases hT2
  · rw [heq]
    exact neg_one_mem_replaceARC (s := { s with p := p_after_b1 s, missesARC := s.missesARC + 1 })
      ((h.evictsEmpty_b1_iff hnotT1 hB1).mpr hbad)
  · simp [hB1, hB2] at hwhere
  · have hfull : MAX_FRAMES ≤ length s.T1 + length s.T2 := by
      rw [hlength, hnotT2]
      decide
    rw [heq, miss_new, if_pos hfull]
    exact neg_one_mem_replaceARC (s := { s with missesARC := s.missesARC + 1 })
      ((h.evictsEmpty_new_iff hT1 hB1 hB2 hfull).mpr hbad)

end Step

theorem arc_init_inFrames : InFrames [] arc_init := by
  refine ⟨arc_init_ledger, ⟨by decide, by simp [arc_init]⟩, by simp [pages, arc_init], by simp⟩

/-- The lists stay within the frames and free of pages never requested exactly if
no request evicts from an empty list. -/
theorem arc_within_frames_iff (references : List Int32) (hreferences : ∀ page ∈ references, page ≠ -1) :
    (∀ requested, requested <+: references → WithinFrames requested (simulateARC requested).2) ↔
      AllSteps step (fun s page => ¬ EvictsNothing s page) arc_init references := by
  have hshows : ∀ requested s page, page ≠ -1 → InFrames requested s → ¬ ¬ EvictsNothing s page →
      ¬ WithinFrames (requested ++ [page]) (step s page) := by
    intro requested s page hpage h hbad hgood
    have hghost := h.neg_one_mem_step (not_not.mp hbad)
    have hmem : -1 ∈ requested ++ [page] := hgood.2 (-1) (by simp [hghost])
    obtain hmem | hmem := List.mem_append.mp hmem
    · exact h.real hmem
    · exact hpage (List.mem_singleton.mp hmem).symm
  have hiff := forall_prefix_iff (fun _ _ h => h.withinFrames) (fun _ _ _ hpage h => h.step hpage) hshows
    arc_init_inFrames hreferences
  simpa only [List.nil_append, simulateARC, simulate_state] using hiff

/-- The string the program simulates stays within the frames. -/
theorem arc_within_frames_pages :
    AllSteps step (fun s page => ¬ EvictsNothing s page) arc_init [1, 2, 3, 1, 2, 3, 1, 4, 2, 5, 1, 2] ∧
      ∀ requested, requested <+: [1, 2, 3, 1, 2, 3, 1, 4, 2, 5, 1, 2] →
        WithinFrames requested (simulateARC requested).2 := by
  have hsteps : AllSteps step (fun s page => ¬ EvictsNothing s page) arc_init
      [1, 2, 3, 1, 2, 3, 1, 4, 2, 5, 1, 2] := by
    decide
  exact ⟨hsteps, (arc_within_frames_iff [1, 2, 3, 1, 2, 3, 1, 4, 2, 5, 1, 2] (by simp)).mpr hsteps⟩

/-- Three hits in `B1` raise the target to the whole cache; the third comes when
`T1` fills it, and evicts from an empty `T2`. -/
theorem arc_exceeds_frames :
    ¬ ∀ references : List Int32, (∀ page ∈ references, page ≠ -1) →
      ∀ requested, requested <+: references → WithinFrames requested (simulateARC requested).2 := by
  intro hall
  have hframes := (hall [1, 2, 3, 4, 1, 2, 5, 6, 3] (by simp) _ (List.prefix_refl _)).1
  exact absurd hframes (by decide)

end csystems.page_cache
