import Mathlib.Data.Finset.Card
import CSystems.PageCache.Frames

open clib.run

namespace csystems.page_cache

/-- The bounds that ARC puts on its directory of cached and ghost pages. -/
def GhostBounded (s : arc_t) : Prop :=
  length s.T1 + length s.B1 ≤ MAX_FRAMES ∧
    length s.T1 + length s.T2 + length s.B1 + length s.B2 ≤ 2 * MAX_FRAMES

instance (s : arc_t) : Decidable (GhostBounded s) := inferInstanceAs (Decidable (_ ∧ _))

/-- The pages requested exactly once. -/
def pages_once (requested : List Int32) : Finset Int32 :=
  requested.toFinset.filter fun page => requested.count page = 1

/-- At most `MAX_FRAMES` pages were requested exactly once, and at most twice as
many pages at all. -/
def FewPages (requested : List Int32) : Prop :=
  ((pages_once requested).card : Int) ≤ MAX_FRAMES ∧ (requested.toFinset.card : Int) ≤ 2 * MAX_FRAMES

instance (requested : List Int32) : Decidable (FewPages requested) := inferInstanceAs (Decidable (_ ∧ _))

/-- A new page finds room in the directory. -/
def DirectoryHasRoom (s : arc_t) (page : Int32) : Prop :=
  page ∉ pages s → length s.T1 + length s.B1 < MAX_FRAMES ∧
    length s.T1 + length s.T2 + length s.B1 + length s.B2 < 2 * MAX_FRAMES

theorem mem_pages_once {requested : List Int32} {page : Int32} :
    page ∈ pages_once requested ↔ requested.count page = 1 := by
  rw [pages_once, Finset.mem_filter, List.mem_toFinset, and_iff_right_iff_imp]
  intro hcount
  exact List.count_pos_iff.mp (by omega)

/-- A list that has every member of a set once has its size. -/
theorem length_eq_card {list : List Int32} {members : Finset Int32}
    (hcount : ∀ page, list.count page = if page ∈ members then 1 else 0) : list.length = members.card := by
  have hnodup : list.Nodup := by
    rw [List.nodup_iff_count_le_one]
    intro page
    rw [hcount page]
    split <;> omega
  have hset : list.toFinset = members := by
    ext page
    rw [List.mem_toFinset, ← List.count_pos_iff, hcount page]
    split <;> simp_all
  rw [← hset, List.toFinset_card_of_nodup hnodup]

/-- Where the pages are while no eviction comes up empty: those requested once
are in `T1` and `B1`, those requested more often in `T2` and `B2`. -/
structure Directory (requested : List Int32) (s : arc_t) : Prop where
  once : ∀ page, (s.T1 ++ s.B1).count page = if requested.count page = 1 then 1 else 0
  often : ∀ page, (s.T2 ++ s.B2).count page = if 2 ≤ requested.count page then 1 else 0
  full : Full s
  p_nonneg : 0 ≤ s.p
  p_le : s.p ≤ MAX_FRAMES

section Directory

variable {requested : List Int32} {s : arc_t} (h : Directory requested s)

include h

theorem Directory.length_once : length s.T1 + length s.B1 = (pages_once requested).card := by
  have hcount (page : Int32) : (s.T1 ++ s.B1).count page = if page ∈ pages_once requested then 1 else 0 := by
    simp only [h.once page, mem_pages_once]
  have hlength := length_eq_card hcount
  rw [List.length_append] at hlength
  unfold length
  omega

theorem Directory.count_pages (page : Int32) : (pages s).count page = if page ∈ requested then 1 else 0 := by
  have honce := h.once page
  have hoften := h.often page
  rw [List.count_append] at honce hoften
  rw [page_cache.count_pages]
  by_cases hmem : page ∈ requested
  · have hpos := List.count_pos_iff.mpr hmem
    rw [if_pos hmem]
    split_ifs at honce hoften <;> omega
  · have hzero := List.count_eq_zero.mpr hmem
    rw [if_neg hmem]
    split_ifs at honce hoften <;> omega

theorem Directory.mem_pages_iff {page : Int32} : page ∈ pages s ↔ page ∈ requested := by
  rw [← List.count_pos_iff, h.count_pages]
  split <;> simp_all

theorem Directory.length_all :
    length s.T1 + length s.T2 + length s.B1 + length s.B2 = requested.toFinset.card := by
  have hcount (page : Int32) : (pages s).count page = if page ∈ requested.toFinset then 1 else 0 := by
    simp only [h.count_pages page, List.mem_toFinset]
  have hlength := length_eq_card hcount
  simp only [pages, List.length_append] at hlength
  unfold length
  omega

/-- The directory is within its bounds exactly if few pages were requested. -/
theorem Directory.ghostBounded_iff : GhostBounded s ↔ FewPages requested := by
  rw [GhostBounded, FewPages, h.length_once, h.length_all]

end Directory

theorem replaceARC_once (s : arc_t) (page : Int32) :
    ((replaceARC s).T1 ++ (replaceARC s).B1).count page = (s.T1 ++ s.B1).count page := by
  obtain ⟨T1, old, -, hT1, heq⟩ | ⟨T2, old, -, -, heq⟩ | ⟨-, -, heq⟩ := replaceARC_cases s
  · simp only [heq, hT1, List.count_append, List.count_cons, List.count_nil]
    omega
  · rw [heq]
  · rw [heq]

theorem replaceARC_often {s : arc_t} (hsome : ¬ EvictsEmpty s) (page : Int32) :
    ((replaceARC s).T2 ++ (replaceARC s).B2).count page = (s.T2 ++ s.B2).count page := by
  obtain ⟨T1, old, -, -, heq⟩ | ⟨T2, old, -, hT2, heq⟩ | ⟨hevicts, hT2, heq⟩ := replaceARC_cases s
  · rw [heq]
  · simp only [heq, hT2, List.count_append, List.count_cons, List.count_nil]
    omega
  · exact absurd ⟨hevicts, hT2⟩ hsome

/-- How a request moves its page: from `T1` or `B1` to `T2`, within `T2` and `B2`,
or into `T1`. Evictions stay within the two halves. -/
def Moves (s s' : arc_t) (page : Int32) : Prop :=
  (page ∈ s.T1 ++ s.B1 ∧ ∀ other, (s'.T1 ++ s'.B1).count other + (if page = other then 1 else 0) =
      (s.T1 ++ s.B1).count other ∧
    (s'.T2 ++ s'.B2).count other = (s.T2 ++ s.B2).count other + if page = other then 1 else 0) ∨
  (page ∈ s.T2 ++ s.B2 ∧ ∀ other, (s'.T1 ++ s'.B1).count other = (s.T1 ++ s.B1).count other ∧
    (s'.T2 ++ s'.B2).count other = (s.T2 ++ s.B2).count other) ∨
  (page ∉ pages s ∧ ∀ other, (s'.T1 ++ s'.B1).count other =
      (s.T1 ++ s.B1).count other + (if page = other then 1 else 0) ∧
    (s'.T2 ++ s'.B2).count other = (s.T2 ++ s.B2).count other)

theorem count_erase_page {list : List Int32} {page : Int32} (hmem : page ∈ list) (other : Int32) :
    (list.erase page).count other + (if page = other then 1 else 0) = list.count other := by
  have hcount := (List.perm_cons_erase hmem).count_eq other
  rw [List.count_cons] at hcount
  simp only [beq_iff_eq] at hcount
  exact hcount.symm

section Moves

variable {s : arc_t} {page : Int32}

theorem hit_T1_moves (hT1 : page ∈ s.T1) : Moves s (hit_T1 s page) page := by
  refine Or.inl ⟨List.mem_append_left _ hT1, fun other => ?_⟩
  have herase := count_erase_page hT1 other
  simp only [hit_T1, removeNode_eq, addToFront, List.count_append, List.count_cons, beq_iff_eq]
  omega

theorem hit_T2_moves (hT2 : page ∈ s.T2) : Moves s (hit_T2 s page) page := by
  refine Or.inr (Or.inl ⟨List.mem_append_left _ hT2, fun other => ?_⟩)
  have herase := count_erase_page hT2 other
  simp only [hit_T2, removeNode_eq, addToFront, List.count_append, List.count_cons, beq_iff_eq, true_and]
  omega

theorem miss_B1_moves (hB1 : page ∈ s.B1) (hsome : ¬ EvictsEmpty { s with p := p_after_b1 s }) :
    Moves s (miss_B1 s page) page := by
  refine Or.inl ⟨List.mem_append_right _ hB1, fun other => ?_⟩
  have hkeep := mem_replaceARC_B1 { s with p := p_after_b1 s, missesARC := s.missesARC + 1 } hB1
  have honce := replaceARC_once { s with p := p_after_b1 s, missesARC := s.missesARC + 1 } other
  have hoften := replaceARC_often (s := { s with p := p_after_b1 s, missesARC := s.missesARC + 1 }) hsome other
  rw [miss_B1]
  generalize replaceARC { s with p := p_after_b1 s, missesARC := s.missesARC + 1 } = s' at hkeep honce hoften
  have herase := count_erase_page hkeep other
  simp only [removeNode_eq, addToFront, List.count_append, List.count_cons, beq_iff_eq] at honce hoften ⊢
  omega

theorem miss_B2_moves (hB2 : page ∈ s.B2) (hsome : ¬ EvictsEmpty { s with p := p_after_b2 s }) :
    Moves s (miss_B2 s page) page := by
  refine Or.inr (Or.inl ⟨List.mem_append_right _ hB2, fun other => ?_⟩)
  have hkeep := mem_replaceARC_B2 { s with p := p_after_b2 s, missesARC := s.missesARC + 1 } hB2
  have honce := replaceARC_once { s with p := p_after_b2 s, missesARC := s.missesARC + 1 } other
  have hoften := replaceARC_often (s := { s with p := p_after_b2 s, missesARC := s.missesARC + 1 }) hsome other
  rw [miss_B2]
  generalize replaceARC { s with p := p_after_b2 s, missesARC := s.missesARC + 1 } = s' at hkeep honce hoften
  have herase := count_erase_page hkeep other
  simp only [removeNode_eq, addToFront, List.count_append, List.count_cons, beq_iff_eq] at honce hoften ⊢
  omega

theorem miss_new_moves (hnew : page ∉ pages s) (hsome : MAX_FRAMES ≤ length s.T1 + length s.T2 → ¬ EvictsEmpty s) :
    Moves s (miss_new s page) page := by
  refine Or.inr (Or.inr ⟨hnew, fun other => ?_⟩)
  rw [miss_new]
  dsimp only
  split
  · next hfull =>
    have honce := replaceARC_once { s with missesARC := s.missesARC + 1 } other
    have hoften := replaceARC_often (s := { s with missesARC := s.missesARC + 1 }) (hsome hfull) other
    simp only [addToFront, List.count_append, List.count_cons, beq_iff_eq] at honce hoften ⊢
    omega
  · simp only [addToFront, List.count_append, List.count_cons, beq_iff_eq, and_true]
    omega

end Moves

/-- An eviction never shrinks the directory. -/
theorem replaceARC_lengths (s : arc_t) :
    length (replaceARC s).T1 + length (replaceARC s).B1 = length s.T1 + length s.B1 ∧
      length s.T2 + length s.B2 ≤ length (replaceARC s).T2 + length (replaceARC s).B2 := by
  obtain ⟨T1, old, -, hT1, heq⟩ | ⟨T2, old, -, hT2, heq⟩ | ⟨-, hT2, heq⟩ := replaceARC_cases s
  · rw [heq, hT1]
    refine ⟨?_, le_refl _⟩
    simp only [length, List.length_append, List.length_cons, List.length_nil]
    omega
  · rw [heq, hT2]
    refine ⟨rfl, ?_⟩
    simp only [length, List.length_append, List.length_cons, List.length_nil]
    omega
  · rw [heq, hT2]
    refine ⟨rfl, ?_⟩
    simp only [length, List.length_cons, List.length_nil]
    omega

/-- A new page without room in the directory takes it out of its bounds. -/
theorem not_ghostBounded_step {s : arc_t} {page : Int32} (hroom : ¬ DirectoryHasRoom s page) :
    ¬ GhostBounded (step s page) := by
  simp only [DirectoryHasRoom, Classical.not_imp] at hroom
  obtain ⟨hnew, hfull⟩ := hroom
  simp only [mem_pages, not_or] at hnew
  obtain ⟨hT1, hT2, hB1, hB2⟩ := hnew
  have hstep : step s page = miss_new s page := by simp [step, request, hT1, hT2, hB1, hB2]
  have hlengths : length (miss_new s page).T1 + length (miss_new s page).B1 = length s.T1 + length s.B1 + 1 ∧
      length s.T2 + length s.B2 ≤ length (miss_new s page).T2 + length (miss_new s page).B2 := by
    rw [miss_new]
    have hcons (list : List Int32) : length (addToFront list page) = length list + 1 := by simp [length, addToFront]
    split
    · have hreplace := replaceARC_lengths { s with missesARC := s.missesARC + 1 }
      dsimp only at hreplace ⊢
      rw [hcons]
      omega
    · dsimp only
      rw [hcons]
      omega
  rw [hstep]
  unfold GhostBounded
  omega

section Step

variable {requested : List Int32} {s : arc_t} (h : Directory requested s)

include h

/-- A moved page is where its number of requests puts it. -/
theorem Directory.moved {s' : arc_t} {page : Int32} (hmoves : Moves s s' page) (hfull : Full s') (hp : 0 ≤ s'.p)
    (hp' : s'.p ≤ MAX_FRAMES) : Directory (requested ++ [page]) s' := by
  have hpage : (pages s).count page = (s.T1 ++ s.B1).count page + (s.T2 ++ s.B2).count page := by
    rw [page_cache.count_pages, List.count_append, List.count_append]
    omega
  have honce := h.once page
  have hoften := h.often page
  have hcount (other : Int32) : (requested ++ [page]).count other =
      requested.count other + if page = other then 1 else 0 := by
    rw [List.count_append, List.count_singleton]
    simp only [beq_iff_eq]
  suffices hnext : ∀ other, ((s'.T1 ++ s'.B1).count other = if (requested ++ [page]).count other = 1 then 1 else 0) ∧
      (s'.T2 ++ s'.B2).count other = if 2 ≤ (requested ++ [page]).count other then 1 else 0 from
    ⟨fun other => (hnext other).1, fun other => (hnext other).2, hfull, hp, hp'⟩
  intro other
  have honce' := h.once other
  have hoften' := h.often other
  rw [hcount]
  obtain ⟨hmem, hcounts⟩ | ⟨hmem, hcounts⟩ | ⟨hmem, hcounts⟩ := hmoves
  · have hpos := List.count_pos_iff.mpr hmem
    obtain ⟨h1, h2⟩ := hcounts other
    by_cases hother : page = other
    · subst hother
      split_ifs at honce hoften h1 h2 ⊢ <;> omega
    · split_ifs at honce' hoften' h1 h2 ⊢ <;> omega
  · have hpos := List.count_pos_iff.mpr hmem
    obtain ⟨h1, h2⟩ := hcounts other
    by_cases hother : page = other
    · subst hother
      split_ifs at honce hoften ⊢ <;> omega
    · split_ifs at honce' hoften' ⊢ <;> omega
  · have hzero := List.count_eq_zero.mpr hmem
    obtain ⟨h1, h2⟩ := hcounts other
    by_cases hother : page = other
    · subst hother
      split_ifs at honce hoften h1 ⊢ <;> omega
    · split_ifs at honce' hoften' h1 ⊢ <;> omega

/-- A request that finds room for its page keeps the directory in order. -/
theorem Directory.step (hbounded : GhostBounded s) {page : Int32} (hroom : DirectoryHasRoom s page) :
    Directory (requested ++ [page]) (step s page) := by
  obtain ⟨hlow, hhigh⟩ : 0 ≤ (page_cache.step s page).p ∧ (page_cache.step s page).p ≤ MAX_FRAMES :=
    step_p h.p_nonneg h.p_le
  suffices hmoves : Moves s (page_cache.step s page) page ∧ Full (page_cache.step s page) from
    h.moved hmoves.1 hmoves.2 hlow hhigh
  unfold page_cache.step
  obtain ⟨hT1, heq⟩ | ⟨hT1, hT2, heq⟩ | ⟨hT1, hT2, hB1, heq⟩ | ⟨hT1, hT2, hB1, hB2, heq⟩ |
    ⟨hT1, hT2, hB1, hB2, heq⟩ := request_cases s page
  · rw [heq]
    exact ⟨hit_T1_moves hT1, h.full.hit_T1 hT1⟩
  · rw [heq]
    exact ⟨hit_T2_moves hT2, h.full.hit_T2 hT2⟩
  · have hsome : ¬ EvictsEmpty { s with p := p_after_b1 s } := by
      have hfull := h.full.cached_eq (Or.inl (List.ne_nil_of_mem hB1))
      have hpos : 0 < length s.B1 := by
        unfold length
        exact_mod_cast List.length_pos_of_mem hB1
      have hbound := hbounded.1
      have hp : p_after_b1 s ≤ MAX_FRAMES := by
        unfold p_after_b1 MAX_FRAMES
        split_ifs <;> omega
      rw [evictsEmpty_iff (s := { s with p := p_after_b1 s }) hfull hp]
      rintro ⟨hfilled, -⟩
      dsimp only at hfilled
      omega
    rw [heq]
    exact ⟨miss_B1_moves hB1 hsome, h.full.miss_B1 hB1 hsome⟩
  · have hsome := h.full.not_evictsEmpty_b2 h.p_le hB2
    rw [heq]
    exact ⟨miss_B2_moves hB2 hsome, h.full.miss_B2 hB2 hsome⟩
  · have hnew : page ∉ pages s := by simp [mem_pages, hT1, hT2, hB1, hB2]
    have hsome (hfull : MAX_FRAMES ≤ length s.T1 + length s.T2) : ¬ EvictsEmpty s := by
      have hle := h.full.cached_le
      have hlt := (hroom hnew).1
      have hghosts : 0 ≤ length s.B1 := Int.natCast_nonneg _
      rw [evictsEmpty_iff (by omega) h.p_le]
      rintro ⟨hfilled, -⟩
      omega
    rw [heq]
    exact ⟨miss_new_moves hnew hsome, h.full.miss_new hsome page⟩

/-- The pages stay few exactly if the directory has room for the requested one. -/
theorem Directory.fewPages_append (hfew : FewPages requested) (page : Int32) :
    FewPages (requested ++ [page]) ↔ DirectoryHasRoom s page := by
  have hset : (requested ++ [page]).toFinset = insert page requested.toFinset := by
    ext other
    simp
  have hcount (other : Int32) : (requested ++ [page]).count other =
      requested.count other + if page = other then 1 else 0 := by
    rw [List.count_append, List.count_singleton]
    simp only [beq_iff_eq]
  unfold DirectoryHasRoom
  rw [h.mem_pages_iff, h.length_once, h.length_all]
  unfold FewPages at hfew ⊢
  by_cases hmem : page ∈ requested
  · have hsub : pages_once (requested ++ [page]) ⊆ pages_once requested := by
      intro other hother
      rw [mem_pages_once, hcount] at *
      have hpos := List.count_pos_iff.mpr hmem
      by_cases hsame : page = other
      · subst hsame
        rw [if_pos rfl] at hother
        omega
      · rwa [if_neg hsame, Nat.add_zero] at hother
    have hcard := Finset.card_le_card hsub
    rw [hset, Finset.insert_eq_of_mem (List.mem_toFinset.mpr hmem)]
    refine iff_of_true ⟨?_, hfew.2⟩ fun hnot => absurd hmem hnot
    omega
  · have honce : pages_once (requested ++ [page]) = insert page (pages_once requested) := by
      ext other
      rw [Finset.mem_insert, mem_pages_once, mem_pages_once, hcount]
      have hzero := List.count_eq_zero.mpr hmem
      by_cases hsame : page = other
      · subst hsame
        simp [hzero]
      · simp [hsame, Ne.symm hsame]
    have hfresh : page ∉ pages_once requested := by
      rw [mem_pages_once, List.count_eq_zero.mpr hmem]
      decide
    rw [hset, Finset.card_insert_of_notMem (by rwa [List.mem_toFinset]), honce, Finset.card_insert_of_notMem hfresh]
    simp only [hmem, not_false_eq_true, forall_const, Nat.cast_add, Nat.cast_one]
    omega

end Step

theorem arc_init_directory : Directory [] arc_init :=
  ⟨by simp [arc_init], by simp [arc_init], ⟨by decide, by simp [arc_init]⟩, by decide, by decide⟩

/-- The ghost directory stays bounded exactly if at most `MAX_FRAMES` pages at a
time were requested only once, and at most twice as many pages at all: nothing is
ever dropped from it. -/
theorem arc_ghosts_bounded_iff (references : List Int32) :
    (∀ requested, requested <+: references → GhostBounded (simulateARC requested).2) ↔
      ∀ requested, requested <+: references → FewPages requested := by
  have hgood : ∀ past s, Directory past s ∧ FewPages past → GhostBounded s := fun _ _ h =>
    h.1.ghostBounded_iff.mpr h.2
  have hstep : ∀ past s page, True → Directory past s ∧ FewPages past → DirectoryHasRoom s page →
      Directory (past ++ [page]) (step s page) ∧ FewPages (past ++ [page]) := fun past s page _ h hroom =>
    ⟨h.1.step (hgood past s h) hroom, (h.1.fewPages_append h.2 page).mpr hroom⟩
  have hinit : Directory [] arc_init ∧ FewPages [] := ⟨arc_init_directory, by decide⟩
  have hbounded := forall_prefix_iff hgood hstep (fun _ _ _ _ _ => not_ghostBounded_step) hinit
    fun _ (_ : _ ∈ references) => trivial
  have hfew := forall_prefix_iff (fun _ _ h => h.2) hstep
    (fun _ _ page _ h hroom hnext => hroom ((h.1.fewPages_append h.2 page).mp hnext)) hinit
    fun _ (_ : _ ∈ references) => trivial
  simp only [List.nil_append] at hbounded hfew
  simp only [simulateARC, simulate_state]
  exact hbounded.trans hfew.symm

/-- Four pages requested once each leave one of them a ghost of a full `T1`. -/
theorem arc_ghosts_unbounded :
    ¬ ∀ references : List Int32, ∀ requested, requested <+: references → GhostBounded (simulateARC requested).2 := by
  intro hall
  exact absurd (hall [1, 2, 3, 4] _ (List.prefix_refl _)) (by decide)

end csystems.page_cache
