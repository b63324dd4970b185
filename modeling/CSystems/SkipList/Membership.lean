import CSystems.Lib.Run
import CSystems.SkipList.Delete

open clib.heap clib.run

namespace csystems.skip_list

def call_t.data : call_t → Int32
  | .insert data _ => data
  | .delete data => data

def call_t.inserts : call_t → Bool
  | .insert _ _ => true
  | .delete _ => false

/-- The data was inserted and not deleted since: the last call for it is an
insertion. -/
def present (calls : List call_t) (data : Int32) : Bool :=
  (calls.reverse.find? fun c => decide (c.data = data)).any call_t.inserts

theorem present_append (calls : List call_t) (c : call_t) (data : Int32) :
    present (calls ++ [c]) data = if c.data = data then c.inserts else present calls data := by
  unfold present
  rw [List.reverse_append, List.reverse_singleton, List.singleton_append]
  by_cases hdata : c.data = data
  · rw [List.find?_cons_of_pos (by simpa using hdata), if_pos hdata, Option.any_some]
  · rw [List.find?_cons_of_neg (by simpa using hdata), if_neg hdata]

/-- Some node of the bottom level has the data. -/
def Holds (heap : Heap skiplevelNode) (nodes : List Nat) (data : Int32) : Prop :=
  ∃ a ∈ nodes, key heap a = data.toInt

private theorem walk_eq {heap : Heap skiplevelNode} {i : Nat} {head : Option Nat} {nodes : List Nat}
    (h : Chain (forward heap i) head nodes) {fuel : Nat} (hfuel : nodes.length < fuel) :
    walk heap i fuel head = some nodes := by
  induction nodes generalizing head fuel with
  | nil =>
    obtain ⟨fuel, rfl⟩ : ∃ k, fuel = k + 1 := ⟨fuel - 1, by omega⟩
    rw [h.head_eq]
    rfl
  | cons a nodes ih =>
    obtain ⟨fuel, rfl⟩ : ∃ k, fuel = k + 1 := ⟨fuel - 1, by simp at hfuel; omega⟩
    obtain ⟨hnext, htail⟩ := h.tail
    rw [h.head_eq, List.head?_cons, walk]
    simp [hnext, ih htail (by simpa using hfuel)]

/-- Following the forward pointers of a level visits its nodes. -/
theorem Represents.level_nodes_eq {list : skiplevel} {levels : Nat → List Nat} (h : Represents list levels) {i : Nat}
    (hi : i ≤ MAX_LEVEL) : level_nodes list i = some (levels i) := by
  obtain ⟨hfirst, hchain⟩ := (h.chain i hi).tail
  simp [level_nodes, hfirst, walk_eq hchain (h.length_lt_fuel hi)]

theorem createSkipList_represents : Represents createSkipList fun _ => [] := by
  refine ⟨?_, fun _ => List.Pairwise.nil, fun _ => List.Sublist.refl _, Nat.zero_le _, fun _ _ => rfl, ?_⟩
  · intro i hi
    refine ⟨by simp, rfl, ?_⟩
    intro a ha
    obtain rfl : a = createSkipList.header := by simpa using ha
    exact (forward_alloc_self Heap.empty MAX_LEVEL (-1) hi).trans (by simp [succ])
  · intro hpos
    cases hpos

/-- A call adds its data to the list, or takes it out, and touches no other. -/
theorem Represents.call {list : skiplevel} {levels : Nat → List Nat} (h : Represents list levels) (c : call_t) :
    ∃ list' levels', call list c = some list' ∧ Represents list' levels' ∧
      (Holds list'.heap (levels' 0) c.data ↔ c.inserts = true) ∧
      ∀ data, c.data ≠ data → (Holds list'.heap (levels' 0) data ↔ Holds list.heap (levels 0) data) := by
  cases c with
  | insert x heads =>
    by_cases hpresent : ∃ a ∈ levels 0, key list.heap a = x.toInt
    · exact ⟨list, levels, h.insert_present hpresent _, h, iff_of_true hpresent rfl, fun _ _ => Iff.rfl⟩
    · obtain ⟨list', hrun, h', hnew, hold⟩ := h.insert_absent hpresent (randomLevel_le heads)
      have hmem (a : Nat) := @mem_linked_levels levels list.heap x (randomLevel heads) list.heap.next a 0
        (below_append_rest list.heap x (h.sorted 0))
      refine ⟨list', _, hrun, h', iff_of_true ?_ rfl, ?_⟩
      · exact ⟨list.heap.next, (hmem _).mpr (Or.inl ⟨Nat.zero_le _, rfl⟩), hnew⟩
      · intro data hdata
        constructor
        · rintro ⟨a, ha, hkey⟩
          rcases (hmem a).mp ha with ⟨-, rfl⟩ | ha
          · exact absurd (Int32.toInt_inj.mp (hnew.symm.trans hkey)) hdata
          · exact ⟨a, ha, (hold a ha).symm.trans hkey⟩
        · rintro ⟨a, ha, hkey⟩
          exact ⟨a, (hmem a).mpr (Or.inr ha), (hold a ha).trans hkey⟩
  | delete x =>
    by_cases hpresent : ∃ a ∈ levels 0, key list.heap a = x.toInt
    · obtain ⟨a, ha, hkey⟩ := hpresent
      obtain ⟨list', hrun, h', hold⟩ := h.delete_present ha hkey
      have hnodup : (levels 0).Nodup := (List.nodup_cons.mp (h.chain 0 (Nat.zero_le _)).nodup).2
      refine ⟨list', _, hrun, h', iff_of_false ?_ (by simp [call_t.inserts]), ?_⟩
      · rintro ⟨b, hb, hbkey⟩
        rw [hold b hb] at hbkey
        have hfirst := (h.head_rest_iff x hbkey).mpr (List.mem_of_mem_erase hb)
        rw [(h.head_rest_iff x hkey).mpr ha] at hfirst
        cases hfirst
        exact hnodup.not_mem_erase hb
      · intro data hdata
        constructor
        · rintro ⟨b, hb, hbkey⟩
          exact ⟨b, List.mem_of_mem_erase hb, (hold b hb).symm.trans hbkey⟩
        · rintro ⟨b, hb, hbkey⟩
          have hne : b ≠ a := by
            rintro rfl
            exact hdata (Int32.toInt_inj.mp (hkey.symm.trans hbkey))
          have hin : b ∈ (levels 0).erase a := (hnodup.mem_erase_iff).mpr ⟨hne, hb⟩
          exact ⟨b, hin, (hold b hin).trans hbkey⟩
    · refine ⟨list, levels, h.delete_absent hpresent, h, iff_of_false hpresent (by simp [call_t.inserts]), ?_⟩
      exact fun _ _ => Iff.rfl

theorem run_represents (calls : List call_t) :
    ∃ list levels, run calls = some list ∧ Represents list levels ∧
      ∀ data, Holds list.heap (levels 0) data ↔ present calls data = true := by
  have hruns : ∃ list, run calls = some list ∧ ∃ levels, Represents list levels ∧
      ∀ data, Holds list.heap (levels 0) data ↔ present calls data = true := by
    refine foldlM_history (fun past (list : skiplevel) => ∃ levels, Represents list levels ∧
      ∀ data, Holds list.heap (levels 0) data ↔ present past data = true) ?_ ?_
    · exact ⟨_, createSkipList_represents, by simp [Holds, present]⟩
    · rintro past c list - ⟨levels, h, hholds⟩
      obtain ⟨list', levels', hcall, h', hsame, hother⟩ := h.call c
      refine ⟨list', hcall, levels', h', fun data => ?_⟩
      rw [present_append]
      split
      · next hdata => rw [← hdata, hsame]
      · next hdata => rw [hother data hdata, hholds data]
  obtain ⟨list, hrun, levels, h, hholds⟩ := hruns
  exact ⟨list, levels, hrun, h, hholds⟩

/-- Set semantics of the skip list: every sequence of insertions, at whatever
levels `randomLevel` picks, and deletions runs without a bad access; every
level's forward chain is strictly increasing and part of the chain below;
`level` is the highest level in use; and a search finds exactly the data that
was inserted and not deleted since. -/
theorem skip_list_set_semantics (calls : List call_t) :
    ∃ (list : skiplevel) (levels : Nat → List Nat), run calls = some list ∧
      (∀ i ≤ MAX_LEVEL, level_nodes list i = some (levels i) ∧
        (levels i).Pairwise fun a b => key list.heap a < key list.heap b) ∧
      (∀ i < MAX_LEVEL, (levels (i + 1)).Sublist (levels i)) ∧
      list.level ≤ MAX_LEVEL ∧ (∀ i ≤ MAX_LEVEL, list.level < i → levels i = []) ∧
      (0 < list.level → levels list.level ≠ []) ∧
      ∀ data, searchElement list data = some (if present calls data then 1 else 0) := by
  obtain ⟨list, levels, hrun, h, hholds⟩ := run_represents calls
  refine ⟨list, levels, hrun, fun i hi => ⟨h.level_nodes_eq hi, h.sorted i⟩, fun i _ => h.sub i, h.level_le,
    fun i _ => h.above i, h.top, ?_⟩
  intro data
  simp only [searchElement, h.descend_header data, Option.bind_eq_bind, Option.bind_some,
    h.forward_update data (Nat.zero_le MAX_LEVEL), h.holds_eq data]
  have hiff : (∃ a ∈ levels 0, key list.heap a = data.toInt) ↔ present calls data = true := hholds data
  simp only [hiff]
  cases present calls data <;> rfl

end csystems.skip_list
