import Mathlib.Algebra.Order.Ring.Int
import CSystems.Lib.Run
import CSystems.PageCache.Arc

open clib.run

namespace csystems.page_cache

/-- The pages of the four lists. -/
def pages (s : arc_t) : List Int32 := s.T1 ++ s.T2 ++ s.B1 ++ s.B2

theorem count_pages (s : arc_t) (page : Int32) :
    (pages s).count page = s.T1.count page + s.T2.count page + s.B1.count page + s.B2.count page := by
  simp only [pages, List.count_append]

theorem mem_pages {s : arc_t} {page : Int32} :
    page ∈ pages s ↔ page ∈ s.T1 ∨ page ∈ s.T2 ∨ page ∈ s.B1 ∨ page ∈ s.B2 := by
  simp only [pages, List.mem_append, or_assoc]

/-- Moving a page within a list, or to another one, keeps the number of its
occurrences and those of every other page. -/
theorem count_erase_add_count_cons {list : List Int32} {page : Int32} (hmem : page ∈ list) (other : Int32)
    (target : List Int32) :
    (list.erase page).count other + (page :: target).count other = list.count other + target.count other := by
  have hcount := (List.perm_cons_erase hmem).count_eq other
  rw [List.count_cons] at hcount ⊢
  omega

/-- An eviction in this state finds nothing to evict. -/
def EvictsEmpty (s : arc_t) : Prop := evicts_T1 s = false ∧ s.T2 = []

section Replace

variable (s : arc_t)

@[simp] theorem replaceARC_p : (replaceARC s).p = s.p := by
  obtain ⟨T1, old, -, -, heq⟩ | ⟨T2, old, -, -, heq⟩ | ⟨-, -, heq⟩ := replaceARC_cases s <;> rw [heq]

theorem mem_replaceARC_B1 {page : Int32} (hmem : page ∈ s.B1) : page ∈ (replaceARC s).B1 := by
  obtain ⟨T1, old, -, -, heq⟩ | ⟨T2, old, -, -, heq⟩ | ⟨-, -, heq⟩ := replaceARC_cases s
  · rw [heq]
    exact List.mem_cons_of_mem old hmem
  · rwa [heq]
  · rwa [heq]

theorem mem_replaceARC_B2 {page : Int32} (hmem : page ∈ s.B2) : page ∈ (replaceARC s).B2 := by
  obtain ⟨T1, old, -, -, heq⟩ | ⟨T2, old, -, -, heq⟩ | ⟨-, -, heq⟩ := replaceARC_cases s
  · rwa [heq]
  · rw [heq]
    exact List.mem_cons_of_mem old hmem
  · rw [heq]
    exact List.mem_cons_of_mem (-1) hmem

/-- An eviction moves a page to a ghost list and loses none; one that finds nothing
to evict adds a `-1`. -/
theorem replaceARC_count {page : Int32} (hpage : page = -1 → ¬ EvictsEmpty s) :
    (pages (replaceARC s)).count page = (pages s).count page := by
  obtain ⟨T1, old, -, hT1, heq⟩ | ⟨T2, old, -, hT2, heq⟩ | ⟨hevicts, hT2, heq⟩ := replaceARC_cases s
  · simp only [heq, count_pages, hT1, List.count_append, List.count_cons, List.count_nil]
    omega
  · simp only [heq, count_pages, hT2, List.count_append, List.count_cons, List.count_nil]
    omega
  · have hne : page ≠ -1 := fun h => hpage h ⟨hevicts, hT2⟩
    rw [heq, count_pages, count_pages, hT2, List.count_cons_of_ne (Ne.symm hne)]

end Replace

section Request

variable {s : arc_t} {page : Int32}

theorem hit_T1_count (hmem : page ∈ s.T1) (other : Int32) :
    (pages (hit_T1 s page)).count other = (pages s).count other := by
  have hmove := count_erase_add_count_cons hmem other s.T2
  simp only [count_pages, hit_T1, removeNode_eq, addToFront]
  omega

theorem hit_T2_count (hmem : page ∈ s.T2) (other : Int32) :
    (pages (hit_T2 s page)).count other = (pages s).count other := by
  have hmove := (List.perm_cons_erase hmem).count_eq other
  simp only [count_pages, hit_T2, removeNode_eq, addToFront]
  omega

theorem miss_B1_count (hmem : page ∈ s.B1) {other : Int32}
    (hother : other = -1 → ¬ EvictsEmpty { s with p := p_after_b1 s }) :
    (pages (miss_B1 s page)).count other = (pages s).count other := by
  have hreplace := replaceARC_count { s with p := p_after_b1 s, missesARC := s.missesARC + 1 } hother
  have hkeep := mem_replaceARC_B1 { s with p := p_after_b1 s, missesARC := s.missesARC + 1 } hmem
  rw [miss_B1]
  generalize replaceARC { s with p := p_after_b1 s, missesARC := s.missesARC + 1 } = s' at hreplace hkeep
  have hmove := count_erase_add_count_cons hkeep other s'.T2
  have hsame : (pages { s with p := p_after_b1 s, missesARC := s.missesARC + 1 }).count other =
    (pages s).count other := rfl
  rw [← hsame, ← hreplace]
  simp only [count_pages, removeNode_eq, addToFront]
  omega

theorem miss_B2_count (hmem : page ∈ s.B2) {other : Int32}
    (hother : other = -1 → ¬ EvictsEmpty { s with p := p_after_b2 s }) :
    (pages (miss_B2 s page)).count other = (pages s).count other := by
  have hreplace := replaceARC_count { s with p := p_after_b2 s, missesARC := s.missesARC + 1 } hother
  have hkeep := mem_replaceARC_B2 { s with p := p_after_b2 s, missesARC := s.missesARC + 1 } hmem
  rw [miss_B2]
  generalize replaceARC { s with p := p_after_b2 s, missesARC := s.missesARC + 1 } = s' at hreplace hkeep
  have hmove := count_erase_add_count_cons hkeep other s'.T2
  have hsame : (pages { s with p := p_after_b2 s, missesARC := s.missesARC + 1 }).count other =
    (pages s).count other := rfl
  rw [← hsame, ← hreplace]
  simp only [count_pages, removeNode_eq, addToFront]
  omega

theorem miss_new_count {other : Int32}
    (hother : other = -1 → MAX_FRAMES ≤ length s.T1 + length s.T2 → ¬ EvictsEmpty s) :
    (pages (miss_new s page)).count other = (pages s).count other + if page = other then 1 else 0 := by
  have hadd (s' : arc_t) : (pages { s' with T1 := addToFront s'.T1 page }).count other =
      (pages s').count other + if page = other then 1 else 0 := by
    simp only [count_pages, addToFront, List.count_cons, beq_iff_eq]
    omega
  rw [miss_new, hadd]
  split
  · rename_i hfull
    have hreplace := replaceARC_count { s with missesARC := s.missesARC + 1 } fun h => hother h hfull
    rw [hreplace]
    rfl
  · rfl

/-- A request adds its page to the lists if none has it, and changes how often a
page occurs in no other way. -/
theorem step_count {other : Int32} (hother : other ≠ -1) :
    (pages (step s page)).count other =
      (pages s).count other + if other = page ∧ other ∉ pages s then 1 else 0 := by
  have hold : page ∈ pages s → ¬ (other = page ∧ other ∉ pages s) := by
    rintro hmem ⟨rfl, hnot⟩
    exact hnot hmem
  unfold step
  obtain ⟨hT1, heq⟩ | ⟨-, hT2, heq⟩ | ⟨-, -, hB1, heq⟩ | ⟨-, -, -, hB2, heq⟩ | ⟨hT1, hT2, hB1, hB2, heq⟩ :=
    request_cases s page
  · rw [heq, if_neg (hold (mem_pages.mpr (by simp [hT1])))]
    exact hit_T1_count hT1 other
  · rw [heq, if_neg (hold (mem_pages.mpr (by simp [hT2])))]
    exact hit_T2_count hT2 other
  · rw [heq, if_neg (hold (mem_pages.mpr (by simp [hB1])))]
    exact miss_B1_count hB1 fun h => absurd h hother
  · rw [heq, if_neg (hold (mem_pages.mpr (by simp [hB2])))]
    exact miss_B2_count hB2 fun h => absurd h hother
  · have hnew : page ∉ pages s := by simp [mem_pages, hT1, hT2, hB1, hB2]
    rw [heq, miss_new_count fun h => absurd h hother]
    by_cases hsame : page = other
    · subst hsame
      simp [hnew]
    · rw [if_neg hsame, if_neg fun h => hsame h.1.symm]

/-- The requested page is cached. -/
theorem mem_step (s : arc_t) (page : Int32) : page ∈ (step s page).T1 ∨ page ∈ (step s page).T2 := by
  unfold step
  obtain ⟨-, heq⟩ | ⟨-, -, heq⟩ | ⟨-, -, -, heq⟩ | ⟨-, -, -, -, heq⟩ | ⟨-, -, -, -, heq⟩ := request_cases s page
  · simp [heq, hit_T1, addToFront]
  · simp [heq, hit_T2, addToFront]
  · simp [heq, miss_B1, addToFront]
  · simp [heq, miss_B2, addToFront]
  · simp [heq, miss_new, addToFront]

/-- The target stays between nothing and the whole cache. -/
theorem step_p (hlow : 0 ≤ s.p) (hhigh : s.p ≤ MAX_FRAMES) :
    0 ≤ (step s page).p ∧ (step s page).p ≤ MAX_FRAMES := by
  unfold step
  obtain ⟨-, heq⟩ | ⟨-, -, heq⟩ | ⟨-, -, -, heq⟩ | ⟨-, -, -, -, heq⟩ | ⟨-, -, -, -, heq⟩ := request_cases s page
  · rw [heq]
    exact ⟨hlow, hhigh⟩
  · rw [heq]
    exact ⟨hlow, hhigh⟩
  · simp only [heq, miss_B1, replaceARC_p]
    unfold p_after_b1 MAX_FRAMES at *
    split_ifs <;> omega
  · simp only [heq, miss_B2, replaceARC_p]
    unfold p_after_b2 MAX_FRAMES at *
    split_ifs <;> omega
  · simp only [heq, miss_new]
    split
    · rw [replaceARC_p]
      exact ⟨hlow, hhigh⟩
    · exact ⟨hlow, hhigh⟩

end Request

/-- Each requested page is in the lists once, and no other page is; the target is
in range. -/
structure Ledger (requested : List Int32) (s : arc_t) : Prop where
  count_eq : ∀ page, page ≠ -1 → (pages s).count page = if page ∈ requested then 1 else 0
  p_nonneg : 0 ≤ s.p
  p_le : s.p ≤ MAX_FRAMES

theorem arc_init_ledger : Ledger [] arc_init := by
  refine ⟨fun page _ => ?_, le_refl _, by decide⟩
  simp [pages, arc_init]

theorem Ledger.mem_pages_iff {requested : List Int32} {s : arc_t} (h : Ledger requested s) {page : Int32}
    (hpage : page ≠ -1) : page ∈ pages s ↔ page ∈ requested := by
  have hcount := h.count_eq page hpage
  rw [← List.count_pos_iff, hcount]
  split_ifs with hmem <;> simp [hmem]

theorem Ledger.step {requested : List Int32} {s : arc_t} (h : Ledger requested s) (page : Int32) :
    Ledger (requested ++ [page]) (step s page) := by
  obtain ⟨hlow, hhigh⟩ := step_p h.p_nonneg h.p_le
  refine ⟨fun other hother => ?_, hlow, hhigh⟩
  have hiff := h.mem_pages_iff hother
  rw [step_count hother, h.count_eq other hother]
  by_cases hmem : other ∈ requested
  · simp [hiff, hmem]
  · simp [hiff, hmem]

/-- Each page requested so far occurs exactly once in the four lists, the page just
requested is cached, and the target is in range. -/
structure Partitioned (requested : List Int32) (page : Int32) (s : arc_t) : Prop where
  once : ∀ x ∈ requested, (s.T1 ++ s.T2 ++ s.B1 ++ s.B2).count x = 1
  cached : page ∈ s.T1 ∨ page ∈ s.T2
  p_nonneg : 0 ≤ s.p
  p_le : s.p ≤ MAX_FRAMES

/-- After every request the four lists are as they should be. -/
theorem arc_lists_partition (references : List Int32) (hreferences : ∀ page ∈ references, page ≠ -1)
    (requested : List Int32) (page : Int32) (hnow : requested ++ [page] <+: references) :
    Partitioned (requested ++ [page]) page (simulateARC (requested ++ [page])).2 := by
  have hs : (simulateARC (requested ++ [page])).2 = (requested ++ [page]).foldl step arc_init :=
    simulate_state arc_init _
  have hledger : Ledger (requested ++ [page]) ((requested ++ [page]).foldl step arc_init) :=
    foldl_history (D := fun _ => True) (fun _ _ page _ h => h.step page) arc_init_ledger fun _ _ => trivial
  rw [hs]
  refine ⟨?_, ?_, hledger.p_nonneg, hledger.p_le⟩
  · intro x hx
    rw [← pages, hledger.count_eq x (hreferences x (hnow.subset hx)), if_pos hx]
  · rw [List.foldl_append, List.foldl_cons, List.foldl_nil]
    exact mem_step _ page

theorem arc_lists_partition_pages :
    Partitioned ([1, 2, 3, 1, 2, 3, 1, 4, 2, 5, 1] ++ [2]) 2
      (simulateARC ([1, 2, 3, 1, 2, 3, 1, 4, 2, 5, 1] ++ [2])).2 :=
  arc_lists_partition [1, 2, 3, 1, 2, 3, 1, 4, 2, 5, 1, 2] (by simp) [1, 2, 3, 1, 2, 3, 1, 4, 2, 5, 1] 2
    (List.prefix_refl _)

end csystems.page_cache
