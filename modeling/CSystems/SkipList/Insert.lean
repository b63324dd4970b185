import CSystems.SkipList.Levels

open clib.heap

namespace csystems.skip_list

theorem sorted_congr {heap heap' : Heap skiplevelNode} {nodes : List Nat}
    (hsame : ∀ a ∈ nodes, key heap' a = key heap a) (h : nodes.Pairwise fun a b => key heap a < key heap b) :
    nodes.Pairwise fun a b => key heap' a < key heap' b := by
  apply List.Pairwise.imp_of_mem _ h
  intro a b ha hb hab
  rw [hsame a ha, hsame b hb]
  exact hab

section Splice

variable {heap : Heap skiplevelNode} {newNode : Nat} {update : List Nat} {u : Nat → Nat} {r : Nat → Option Nat}

/-- The splicing loop links the new node in behind `u i` at each of its levels. -/
theorem splice_spec {count : Nat} (hupdate : ∀ i < count, update[i]? = some (u i))
    (hnew : ∀ i < count, ∃ p, forward heap i newNode = some p)
    (hlink : ∀ i < count, forward heap i (u i) = some (r i)) (hne : ∀ i < count, u i ≠ newNode) :
    ∃ heap', splice newNode update heap count = some heap' ∧
      (∀ j c, forward heap' j c =
        if j < count then
          if c = newNode then some (r j) else if c = u j then some (some newNode) else forward heap j c
        else forward heap j c) ∧
      heap'.field skiplevelNode.data = heap.field skiplevelNode.data ∧ heap'.next = heap.next := by
  induction count with
  | zero => exact ⟨heap, rfl, by simp, rfl, rfl⟩
  | succ i ih =>
    obtain ⟨heap₁, hrun₁, hforward₁, hdata₁, hnext₁⟩ := ih (fun j hj => hupdate j (by omega))
      (fun j hj => hnew j (by omega)) (fun j hj => hlink j (by omega)) (fun j hj => hne j (by omega))
    have hsame (c : Nat) : forward heap₁ i c = forward heap i c := by rw [hforward₁, if_neg (by omega)]
    obtain ⟨p, hp⟩ := hnew i (by omega)
    obtain ⟨heap₂, hrun₂, hforward₂, hdata₂, hnext₂⟩ := store_forward_spec ((hsame newNode).trans hp) (r i)
    have hu : forward heap₂ i (u i) = some (r i) := by
      rw [hforward₂, if_neg (fun hand => hne i (by omega) hand.2), hsame, hlink i (by omega)]
    obtain ⟨heap₃, hrun₃, hforward₃, hdata₃, hnext₃⟩ := store_forward_spec hu (some newNode)
    refine ⟨heap₃, ?_, ?_, ?_, ?_⟩
    · simp only [splice, hrun₁, Option.bind_eq_bind, Option.bind_some, hupdate i (by omega), hsame,
        hlink i (by omega), hrun₂, hrun₃]
    · intro j c
      rw [hforward₃, hforward₂, hforward₁]
      have hui := hne i (by omega)
      by_cases hj : j = i
      · subst j
        by_cases hcn : c = newNode
        · subst c
          simp [Ne.symm hui]
        · simp [hcn]
      · have hiff : j < i + 1 ↔ j < i := by omega
        simp [hj, hiff]
    · rw [hdata₃, hdata₂, hdata₁]
    · rw [hnext₃, hnext₂, hnext₁]

end Splice

section Alloc

variable (heap : Heap skiplevelNode) (level : Nat) (data : Int32)

theorem forward_alloc_of_ne {i c : Nat} (hne : c ≠ heap.next) :
    forward (heap.alloc (createNode level data)).2 i c = forward heap i c := by
  unfold forward
  rw [Heap.get_alloc_of_ne _ _ hne]

theorem forward_alloc_self {i : Nat} (hi : i ≤ level) :
    forward (heap.alloc (createNode level data)).2 i heap.next = some none := by
  have hget := Heap.get_alloc_self heap (createNode level data)
  rw [Heap.fst_alloc] at hget
  rw [forward, hget]
  simp only [Option.bind_eq_bind, Option.bind_some, createNode]
  rw [List.getElem?_replicate, if_pos (by omega)]

end Alloc

/-- The levels after `a` is linked in at the levels up to `newLevel`. -/
def linked_levels (heap : Heap skiplevelNode) (data : Int32) (levels : Nat → List Nat) (newLevel a : Nat) :
    Nat → List Nat :=
  fun i => if i ≤ newLevel then below heap data (levels i) ++ a :: rest heap data (levels i) else levels i

section Insert

variable {list : skiplevel} {levels : Nat → List Nat}

theorem mem_linked_levels {heap : Heap skiplevelNode} {data : Int32} {newLevel a b : Nat} {i : Nat}
    (hsplit : below heap data (levels i) ++ rest heap data (levels i) = levels i) :
    b ∈ linked_levels heap data levels newLevel a i ↔ (i ≤ newLevel ∧ b = a) ∨ b ∈ levels i := by
  unfold linked_levels
  split
  · next hi =>
    have hmem : b ∈ levels i ↔ b ∈ below heap data (levels i) ∨ b ∈ rest heap data (levels i) := by
      rw [← List.mem_append, hsplit]
    rw [List.mem_append, List.mem_cons, hmem]
    tauto
  · next hi => simp [hi]

private theorem getElem_update {u : Nat → Nat} {level newLevel header i : Nat} (hi : i ≤ newLevel)
    (habove : ∀ j, level < j → u j = header) :
    ((List.range (level + 1)).map u ++ List.replicate (newLevel - level) header)[i]? = some (u i) := by
  by_cases hlt : i < level + 1
  · rw [List.getElem?_append_left (by simpa using hlt)]
    simp [hlt]
  · rw [List.getElem?_append_right (by simp; omega), List.getElem?_replicate, if_pos (by simp; omega),
      habove i (by omega)]

/-- Inserting data that is present changes nothing. -/
theorem Represents.insert_present (h : Represents list levels) {data : Int32}
    (hpresent : ∃ a ∈ levels 0, key list.heap a = data.toInt) (newLevel : Nat) :
    insertElement list data newLevel = some list := by
  simp only [insertElement, h.descend_header data, Option.bind_eq_bind, Option.bind_some,
    h.forward_update data (Nat.zero_le MAX_LEVEL), h.holds_eq data, hpresent, decide_true, if_true]

section Linked

variable (h : Represents list levels) {data : Int32} {newLevel a i : Nat} {heap' : Heap skiplevelNode}

include h

theorem Represents.linked_chain (hi : i ≤ MAX_LEVEL) (hne : ∀ c ∈ list.header :: levels i, c ≠ a)
    (hself : i ≤ newLevel → forward heap' i a = some (rest list.heap data (levels i)).head?)
    (hupdate : i ≤ newLevel → forward heap' i (update_of list data (levels i)) = some (some a))
    (hold : ∀ c ∈ list.header :: levels i, ¬ (i ≤ newLevel ∧ c = update_of list data (levels i)) →
      forward heap' i c = forward list.heap i c) :
    Chain (forward heap' i) (some list.header)
      (list.header :: linked_levels list.heap data levels newLevel a i) := by
  have hchain := h.chain i hi
  unfold linked_levels
  by_cases hin : i ≤ newLevel
  · rw [if_pos hin]
    have hsplit := h.split data i
    rw [← hsplit] at hchain
    apply Chain.insert hchain (Represents.getLast_front data i)
    · rw [hsplit]
      exact fun hmem => hne a hmem rfl
    · exact hself hin
    · exact hupdate hin
    · intro c hc hcu
      rw [hsplit] at hc
      exact hold c hc fun hand => hcu hand.2
  · rw [if_neg hin]
    apply hchain.congr
    intro c hc
    exact hold c hc fun hand => hin hand.1

theorem Represents.linked_sorted (habsent : ¬ ∃ a ∈ levels 0, key list.heap a = data.toInt)
    (hnew : key heap' a = data.toInt) (hold : ∀ b ∈ levels 0, key heap' b = key list.heap b) :
    (linked_levels list.heap data levels newLevel a i).Pairwise fun a b => key heap' a < key heap' b := by
  have hsub := h.sub_of_le (Nat.zero_le i)
  have hlevel : ∀ b ∈ levels i, key heap' b = key list.heap b := fun b hb => hold b (hsub.subset hb)
  have hsorted := sorted_congr hlevel (h.sorted i)
  unfold linked_levels
  split
  · rw [← below_append_rest list.heap data (h.sorted i)] at hsorted
    obtain ⟨hbelow, hrest, hcross⟩ := List.pairwise_append.mp hsorted
    refine List.pairwise_append.mpr ⟨hbelow, List.pairwise_cons.mpr ⟨?_, hrest⟩, ?_⟩
    · intro b hb
      obtain ⟨hmem, hnot⟩ := (mem_rest _ _).mp hb
      have hne : key list.heap b ≠ data.toInt := fun heq => habsent ⟨b, hsub.subset hmem, heq⟩
      rw [hnew, hlevel b hmem]
      omega
    · intro c hc b hb
      rcases List.mem_cons.mp hb with rfl | hb
      · obtain ⟨hmem, hlt⟩ := (mem_below _ _).mp hc
        rw [hnew, hlevel c hmem]
        exact hlt
      · exact hcross c hc b hb
  · exact hsorted

theorem Represents.linked_sub (data : Int32) (newLevel a i : Nat) :
    (linked_levels list.heap data levels newLevel a (i + 1)).Sublist
      (linked_levels list.heap data levels newLevel a i) := by
  have hbelow : (below list.heap data (levels (i + 1))).Sublist (below list.heap data (levels i)) :=
    (h.sub i).filter _
  have hrest : (rest list.heap data (levels (i + 1))).Sublist (rest list.heap data (levels i)) :=
    (h.sub i).filter _
  unfold linked_levels
  by_cases hin : i + 1 ≤ newLevel
  · rw [if_pos hin, if_pos (by omega)]
    exact hbelow.append (hrest.cons_cons _)
  · rw [if_neg hin]
    split
    · rw [← below_append_rest list.heap data (h.sorted (i + 1))]
      exact hbelow.append (hrest.cons _)
    · exact h.sub i

end Linked

/-- Inserting new data links a new node in at the levels up to `newLevel`. -/
theorem Represents.insert_absent (h : Represents list levels) {data : Int32}
    (habsent : ¬ ∃ a ∈ levels 0, key list.heap a = data.toInt) {newLevel : Nat} (hnew : newLevel ≤ MAX_LEVEL) :
    ∃ list', insertElement list data newLevel = some list' ∧
      Represents list' (linked_levels list.heap data levels newLevel list.heap.next) ∧
      key list'.heap list.heap.next = data.toInt ∧
      ∀ a ∈ levels 0, key list'.heap a = key list.heap a := by
  let u : Nat → Nat := fun i => update_of list data (levels i)
  let r : Nat → Option Nat := fun i => (rest list.heap data (levels i)).head?
  have hlevel := h.level_le
  have hu_ne {i : Nat} (hi : i ≤ MAX_LEVEL) : u i ≠ list.heap.next := h.ne_next hi (h.update_of_mem data i)
  have hu_above (j : Nat) (hj : list.level < j) : u j = list.header := by
    simp [u, update_of, h.above j hj, below]
  have hupdate : ∀ i < newLevel + 1,
      ((List.range (list.level + 1)).map u ++ List.replicate (newLevel - list.level) list.header)[i]? = some (u i) :=
    fun i hi => getElem_update (by omega) hu_above
  obtain ⟨heap', hsplice, hforward, hdata, -⟩ :=
    @splice_spec (list.heap.alloc (createNode newLevel data)).2 list.heap.next _ u r (newLevel + 1) hupdate
      (fun i hi => ⟨none, forward_alloc_self _ _ _ (by omega)⟩)
      (fun i hi => by
        rw [forward_alloc_of_ne _ _ _ (hu_ne (by omega))]
        exact h.forward_update data (by omega))
      (fun i hi => hu_ne (by omega))
  have hkey_new : key heap' list.heap.next = data.toInt := by
    rw [key, hdata, Heap.field_alloc_self]
    rfl
  have hkey_old : ∀ a ∈ levels 0, key heap' a = key list.heap a := by
    intro a ha
    apply key_congr
    rw [hdata, Heap.field_alloc_of_ne _ _ _ (h.ne_next (Nat.zero_le _) (List.mem_cons_of_mem _ ha))]
  refine ⟨{ list with heap := heap', level := if newLevel > list.level then newLevel else list.level }, ?_, ?_,
    hkey_new, hkey_old⟩
  · simp only [insertElement, h.descend_header data, Option.bind_eq_bind, Option.bind_some,
      h.forward_update data (Nat.zero_le MAX_LEVEL), h.holds_eq data, habsent, decide_false, Heap.fst_alloc]
    rw [show splice list.heap.next _ _ _ = some heap' from hsplice]
    rfl
  · refine ⟨?_, fun i => h.linked_sorted habsent hkey_new hkey_old, h.linked_sub data newLevel _, ?_, ?_, ?_⟩
    · intro i hi
      have hu : update_of list data (levels i) ≠ list.heap.next := hu_ne hi
      refine h.linked_chain hi (fun c hc => h.ne_next hi hc) ?_ ?_ ?_
      · intro hin
        rw [hforward, if_pos (by omega), if_pos rfl]
      · intro hin
        rw [hforward, if_pos (by omega), if_neg hu, if_pos rfl]
      · intro c hc hcu
        have hne := h.ne_next hi hc
        rw [hforward, if_neg hne]
        by_cases hin : i < newLevel + 1
        · rw [if_pos hin, if_neg fun heq => hcu ⟨by omega, heq⟩, forward_alloc_of_ne _ _ _ hne]
        · rw [if_neg hin, forward_alloc_of_ne _ _ _ hne]
    · dsimp only
      split <;> omega
    · intro i hi
      dsimp only at hi
      unfold linked_levels
      split at hi
      · rw [if_neg (by omega)]
        exact h.above i (by omega)
      · rw [if_neg (by omega)]
        exact h.above i hi
    · intro hpos
      dsimp only at hpos ⊢
      unfold linked_levels
      by_cases hgrows : newLevel > list.level
      · simp [hgrows]
      · rw [if_neg hgrows] at hpos ⊢
        split
        · simp
        · exact h.top hpos

end Insert

end csystems.skip_list
