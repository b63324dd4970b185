import CSystems.SkipList.Insert

open clib.heap

namespace csystems.skip_list

/-- The unlinking loop: where the node is on a level (`P`), the link out of
`u i` is redirected to the node's successor `r i`. The loop stops at the first
level without the node, and the node is on no level above it. -/
theorem unlink_spec {current : Nat} {update : List Nat} {u : Nat → Nat} {r : Nat → Option Nat} {P : Nat → Prop}
    (hdown : ∀ j, P (j + 1) → P j) {count i : Nat} {heap : Heap skiplevelNode}
    (hupdate : ∀ j, i ≤ j → j < i + count → update[j]? = some (u j))
    (hlink : ∀ j, i ≤ j → j < i + count → ∃ p, forward heap j (u j) = some p ∧ (p = some current ↔ P j))
    (hcurrent : ∀ j, P j → forward heap j current = some (r j)) (hne : ∀ j, P j → u j ≠ current) :
    ∃ heap', unlink current update count i heap = some heap' ∧
      (∀ j c, (i ≤ j ∧ j < i + count ∧ P j ∧ c = u j) → forward heap' j c = some (r j)) ∧
      (∀ j c, ¬ (i ≤ j ∧ j < i + count ∧ P j ∧ c = u j) → forward heap' j c = forward heap j c) ∧
      heap'.field skiplevelNode.data = heap.field skiplevelNode.data ∧ heap'.next = heap.next := by
  induction count generalizing i heap with
  | zero =>
    refine ⟨heap, rfl, ?_, fun _ _ _ => rfl, rfl, rfl⟩
    intro j c hj
    omega
  | succ count ih =>
    obtain ⟨p, hp, hpP⟩ := hlink i (Nat.le_refl i) (by omega)
    have hu := hupdate i (Nat.le_refl i) (by omega)
    by_cases hPi : P i
    · obtain ⟨heap₁, hstore, hforward₁, hdata₁, hnext₁⟩ := store_forward_spec hp (r i)
      have hother {j c : Nat} (hj : j ≠ i) : forward heap₁ j c = forward heap j c := by
        rw [hforward₁, if_neg (fun hand => hj hand.1)]
      obtain ⟨heap', hrun, hnew, hold, hdata, hnext⟩ := @ih (i + 1) heap₁
        (fun j hj hlt => hupdate j (by omega) (by omega))
        (fun j hj hlt => by
          rw [hother (by omega)]
          exact hlink j (by omega) (by omega))
        (fun j hPj => by
          rw [hforward₁, if_neg, hcurrent j hPj]
          rintro ⟨rfl, heq⟩
          exact hne j hPj heq.symm)
      refine ⟨heap', ?_, ?_, ?_, hdata.trans hdata₁, hnext.trans hnext₁⟩
      · simp only [unlink, hu, Option.bind_eq_bind, Option.bind_some, hp, ne_eq, hpP.mpr hPi, not_true_eq_false,
          if_false, hcurrent i hPi, hstore, hrun]
      · rintro j c ⟨hij, hlt, hPj, hcu⟩
        by_cases hji : j = i
        · subst j
          rw [hold i c (by omega), hforward₁, if_pos ⟨rfl, hcu⟩]
        · exact hnew j c ⟨by omega, by omega, hPj, hcu⟩
      · intro j c hnot
        rw [hold j c (fun hand => hnot ⟨by omega, by omega, hand.2.2.1, hand.2.2.2⟩), hforward₁, if_neg]
        rintro ⟨rfl, hcu⟩
        exact hnot ⟨by omega, by omega, hPi, hcu⟩
    · have hnone : ∀ j, i ≤ j → ¬ P j := by
        intro j hij
        induction hij with
        | refl => exact hPi
        | step _ ihj => exact fun hP => ihj (hdown _ hP)
      have hstop : p ≠ some current := fun heq => hPi (hpP.mp heq)
      refine ⟨heap, ?_, ?_, fun _ _ _ => rfl, rfl, rfl⟩
      · simp only [unlink, hu, Option.bind_eq_bind, Option.bind_some, hp, ne_eq, hstop, not_false_eq_true, if_true]
      · rintro j c ⟨hij, -, hPj, -⟩
        exact absurd hPj (hnone j hij)

/-- The shrinking loop stops at the highest level in use. -/
theorem shrink_spec {heap : Heap skiplevelNode} {header : Nat} {levels : Nat → List Nat} {level : Nat}
    (hheader : ∀ i ≤ level, forward heap i header = some (levels i).head?) :
    ∃ level', shrink heap header level = some level' ∧ level' ≤ level ∧
      (∀ i, level' < i → i ≤ level → levels i = []) ∧ (0 < level' → levels level' ≠ []) := by
  induction level with
  | zero => exact ⟨0, rfl, Nat.le_refl 0, by omega, by omega⟩
  | succ level ih =>
    have htop := hheader (level + 1) (Nat.le_refl _)
    cases hnodes : levels (level + 1) with
    | nil =>
      obtain ⟨level', hrun, hle, habove, hused⟩ := ih fun i hi => hheader i (by omega)
      refine ⟨level', ?_, by omega, ?_, hused⟩
      · simp only [shrink, htop, hnodes, List.head?_nil, Option.bind_eq_bind, Option.bind_some, hrun]
      · intro i hlt hle'
        by_cases hi : i = level + 1
        · rw [hi, hnodes]
        · exact habove i hlt (by omega)
    | cons a nodes =>
      refine ⟨level + 1, ?_, Nat.le_refl _, by omega, ?_⟩
      · simp only [shrink, htop, hnodes, List.head?_cons, Option.bind_eq_bind, Option.bind_some]
      · simp [hnodes]

section Delete

variable {list : skiplevel} {levels : Nat → List Nat}

/-- Deleting data that is absent changes nothing. -/
theorem Represents.delete_absent (h : Represents list levels) {data : Int32}
    (habsent : ¬ ∃ a ∈ levels 0, key list.heap a = data.toInt) : deleteElement list data = some list := by
  have hholds := h.holds_eq data
  simp only [deleteElement, h.descend_header data, Option.bind_eq_bind, Option.bind_some,
    h.forward_update data (Nat.zero_le MAX_LEVEL)]
  cases hnodes : (rest list.heap data (levels 0)).head? with
  | none => rfl
  | some a =>
    rw [hnodes] at hholds
    simp only [holds, habsent, decide_false, Option.bind_eq_bind] at hholds
    obtain ⟨d, hd, hne⟩ := Option.bind_eq_some_iff.mp hholds
    have hne : ¬ d = data := by simpa using hne
    simp only [hd, Option.bind_some, if_neg hne]

section Unlinked

variable (h : Represents list levels) {data : Int32} {a i : Nat}

include h

theorem Represents.nodup (hi : i ≤ MAX_LEVEL) : (list.header :: levels i).Nodup := (h.chain i hi).nodup

theorem Represents.le_level (ha : a ∈ levels i) : i ≤ list.level := by
  by_contra hlt
  rw [h.above i (by omega)] at ha
  cases ha

theorem Represents.ne_header (ha : a ∈ levels 0) : a ≠ list.header := by
  rintro rfl
  exact (List.nodup_cons.mp (h.nodup (Nat.zero_le _))).1 ha

theorem Represents.not_mem_erase : a ∉ (levels i).erase a := by
  intro hmem
  have hle := h.le_level (List.mem_of_mem_erase hmem)
  have hlevel := h.level_le
  exact (List.nodup_cons.mp (h.nodup (by omega))).2.not_mem_erase hmem

theorem Represents.update_of_ne (ha : a ∈ levels 0) (hkey : key list.heap a = data.toInt) (i : Nat) :
    update_of list data (levels i) ≠ a := by
  intro heq
  have hmem : update_of list data (levels i) ∈ list.header :: below list.heap data (levels i) :=
    Represents.update_of_mem_front data i
  rw [heq] at hmem
  rcases List.mem_cons.mp hmem with heq | hmem
  · exact h.ne_header ha heq
  · have hlt := ((mem_below _ _).mp hmem).2
    omega

theorem Represents.succ_update_of (hi : i ≤ MAX_LEVEL) (hmem : a ∈ levels i) (hkey : key list.heap a = data.toInt) :
    succ (list.header :: levels i) (update_of list data (levels i)) = some a := by
  have hnodup := h.nodup hi
  rw [← h.split data i] at hnodup ⊢
  rw [succ_append_of_getLast hnodup (Represents.getLast_front data i)]
  exact (h.head_rest_iff data hkey).mpr hmem

/-- A level stays a chain when the link out of `update[i]` passes over a node on it. -/
theorem Represents.unlinked_chain (hi : i ≤ MAX_LEVEL) (ha : a ∈ levels 0) (hkey : key list.heap a = data.toInt)
    {heap' : Heap skiplevelNode}
    (hnew : a ∈ levels i → forward heap' i (update_of list data (levels i)) = some (succ (list.header :: levels i) a))
    (hold : ∀ c, c ≠ a → ¬ (a ∈ levels i ∧ c = update_of list data (levels i)) →
      forward heap' i c = forward list.heap i c) :
    Chain (forward heap' i) (some list.header) (list.header :: (levels i).erase a) := by
  have hheader := h.ne_header ha
  have hunlinked : Chain (forward heap' i)
      (if some list.header = some a then succ (list.header :: levels i) a else some list.header)
      ((list.header :: levels i).erase a) := by
    apply (h.chain i hi).unlink
    intro b hb hne
    by_cases hbu : a ∈ levels i ∧ b = update_of list data (levels i)
    · obtain ⟨hmem, rfl⟩ := hbu
      rw [hnew hmem, if_pos (h.succ_update_of hi hmem hkey)]
    · have hnot : ¬ succ (list.header :: levels i) b = some a := by
        intro hsucc
        rcases List.mem_cons.mp (mem_of_succ_eq_some hsucc) with heq | hmem
        · exact hheader heq
        · have hpred := (succ_eq_some_iff (h.nodup hi)).mp hsucc
          rw [(succ_eq_some_iff (h.nodup hi)).mp (h.succ_update_of hi hmem hkey)] at hpred
          exact hbu ⟨hmem, (Option.some.inj hpred).symm⟩
      rw [hold b hne hbu, if_neg hnot, (h.chain i hi).next_eq b hb]
  rw [if_neg (by simpa using hheader.symm), List.erase_cons_tail (by simpa using hheader.symm)] at hunlinked
  exact hunlinked

end Unlinked

/-- Deleting present data unlinks its node from every level. -/
theorem Represents.delete_present (h : Represents list levels) {data : Int32} {a : Nat} (ha : a ∈ levels 0)
    (hkey : key list.heap a = data.toInt) :
    ∃ list', deleteElement list data = some list' ∧ Represents list' (fun i => (levels i).erase a) ∧
      ∀ b ∈ (levels 0).erase a, key list'.heap b = key list.heap b := by
  let u : Nat → Nat := fun i => update_of list data (levels i)
  have hlevel := h.level_le
  have hu_ne : ∀ i, u i ≠ a := h.update_of_ne ha hkey
  obtain ⟨heap₁, hunlink, hnew, hold, hdata, -⟩ :=
    @unlink_spec a ((List.range (list.level + 1)).map u) u (fun i => succ (list.header :: levels i) a)
      (fun i => a ∈ levels i) (fun j hj => (h.sub j).subset hj) (list.level + 1) 0 list.heap
      (fun j _ hlt => by rw [List.getElem?_map, List.getElem?_range (by omega)]; rfl)
      (fun j _ hlt => ⟨_, h.forward_update data (by omega), h.head_rest_iff data hkey⟩)
      (fun j hj => (h.chain j (by have := h.le_level hj; omega)).next_eq a (List.mem_cons_of_mem _ hj))
      (fun j _ => hu_ne j)
  have hlink := (h.chain 0 (Nat.zero_le _)).next_eq a (List.mem_cons_of_mem _ ha)
  obtain ⟨node, hget⟩ := live_of_forward ((hold 0 a fun hand => hu_ne 0 hand.2.2.2.symm).trans hlink)
  let heap₂ := heap₁.erase a
  have hforward₂ {j c : Nat} (hne : c ≠ a) : forward heap₂ j c = forward heap₁ j c := by
    unfold forward
    rw [Heap.get_erase_of_ne _ hne]
  have hchain : ∀ i ≤ MAX_LEVEL,
      Chain (forward heap₂ i) (some list.header) (list.header :: (levels i).erase a) := by
    intro i hi
    refine h.unlinked_chain hi ha hkey ?_ ?_
    · intro hmem
      have hle := h.le_level hmem
      exact (hforward₂ (hu_ne i)).trans (hnew i (u i) ⟨Nat.zero_le _, by omega, hmem, rfl⟩)
    · intro c hne hnot
      exact (hforward₂ hne).trans (hold i c fun hand => hnot hand.2.2)
  have hkey₂ {i b : Nat} (hb : b ∈ (levels i).erase a) : key heap₂ b = key list.heap b := by
    apply key_congr
    have hne : b ≠ a := by
      rintro rfl
      exact h.not_mem_erase hb
    rw [Heap.field_erase_of_ne _ _ hne, hdata]
  obtain ⟨level', hshrink, hle, habove, hused⟩ :=
    @shrink_spec heap₂ list.header (fun i => (levels i).erase a) list.level fun i hi => by
      have hfirst := (hchain i (by omega)).next_eq list.header (by simp)
      rw [hfirst, succ, if_pos rfl]
  refine ⟨{ list with heap := heap₂, level := level' }, ?_, ?_, fun b hb => hkey₂ hb⟩
  · obtain ⟨d, hd, hdkey⟩ := data_of_forward hlink
    have hdata : d = data := Int32.toInt_inj.mp (hdkey.trans hkey)
    subst d
    simp only [deleteElement, h.descend_header data, Option.bind_eq_bind, Option.bind_some,
      h.forward_update data (Nat.zero_le MAX_LEVEL), (h.head_rest_iff data hkey).mpr ha, hd, if_true]
    rw [show unlink a _ _ _ _ = some heap₁ from hunlink]
    simp only [Option.bind_some, Heap.free_of_get hget]
    rw [show shrink (heap₁.erase a) _ _ = some level' from hshrink]
    rfl
  · refine ⟨hchain, ?_, fun i => (h.sub i).erase a, by dsimp only; omega, ?_, hused⟩
    · intro i
      have hsorted := (h.sorted i).sublist (List.erase_sublist (a := a))
      exact sorted_congr (fun b hb => hkey₂ hb) hsorted
    · intro i hi
      dsimp only at hi ⊢
      by_cases hlt : i ≤ list.level
      · exact habove i hi hlt
      · rw [h.above i (by omega)]
        rfl

end Delete

end csystems.skip_list
