import CSystems.SkipList.Operations

open clib.heap

namespace csystems.skip_list

/-- The data of a node, as an integer. -/
def key (heap : Heap skiplevelNode) (a : Nat) : Int := ((heap.field skiplevelNode.data a).map Int32.toInt).getD 0

/-- `levels i` are the nodes of level `i` in chain order: every level is linked
up from the header, sorted, and contained in the level below, and `list.level`
is the highest level in use. -/
structure Represents (list : skiplevel) (levels : Nat → List Nat) : Prop where
  chain : ∀ i ≤ MAX_LEVEL, Chain (forward list.heap i) (some list.header) (list.header :: levels i)
  sorted : ∀ i, (levels i).Pairwise fun a b => key list.heap a < key list.heap b
  sub : ∀ i, (levels (i + 1)).Sublist (levels i)
  level_le : list.level ≤ MAX_LEVEL
  above : ∀ i, list.level < i → levels i = []
  top : 0 < list.level → levels list.level ≠ []

section Forward

variable {heap : Heap skiplevelNode} {i a : Nat}

theorem live_of_forward {p : Option Nat} (h : forward heap i a = some p) : ∃ node, heap.get a = some node := by
  cases hget : heap.get a with
  | none => simp [forward, hget] at h
  | some node => exact ⟨node, rfl⟩

theorem data_of_forward {p : Option Nat} (h : forward heap i a = some p) :
    ∃ data : Int32, heap.field skiplevelNode.data a = some data ∧ data.toInt = key heap a := by
  obtain ⟨node, hget⟩ := live_of_forward h
  exact ⟨node.data, by simp [Heap.field, hget], by simp [key, Heap.field, hget]⟩

/-- A store to one link field. -/
theorem store_forward_spec {p : Option Nat} (h : forward heap i a = some p) (q : Option Nat) :
    ∃ heap', store_forward heap i a q = some heap' ∧
      (∀ j c, forward heap' j c = if j = i ∧ c = a then some q else forward heap j c) ∧
      heap'.field skiplevelNode.data = heap.field skiplevelNode.data ∧ heap'.next = heap.next := by
  obtain ⟨node, hget⟩ := live_of_forward h
  have hlt : i < node.forward.length := by
    simp only [forward, hget, Option.bind_eq_bind, Option.bind_some] at h
    exact (List.getElem?_eq_some_iff.mp h).1
  refine ⟨heap.update a (.set_forward i q), ?_, ?_, ?_, rfl⟩
  · simp [store_forward, h, Heap.modify_of_get hget]
  · intro j c
    by_cases hca : c = a
    · subst c
      by_cases hji : j = i
      · subst j
        simp [forward, hget, skiplevelNode.set_forward, hlt]
      · simp [forward, hget, skiplevelNode.set_forward, hji, Ne.symm hji]
    · simp [forward, Heap.get_update_of_ne _ hca, hca]
  · exact Heap.field_update_of_eq _ _ fun _ => rfl

theorem key_congr {heap heap' : Heap skiplevelNode} {a : Nat}
    (h : heap'.field skiplevelNode.data a = heap.field skiplevelNode.data a) : key heap' a = key heap a := by
  unfold key
  rw [h]

end Forward

/-- A walk along one level stops in front of the first node that is not below
the data. -/
theorem advance_eq {heap : Heap skiplevelNode} {i : Nat} {data : Int32} {head : Option Nat} {l m r : List Nat}
    {c fuel : Nat} (hchain : Chain (forward heap i) head (l ++ (m ++ r))) (hlast : l.getLast? = some c)
    (hm : ∀ a ∈ m, key heap a < data.toInt) (hr : ∀ a ∈ r, ¬ key heap a < data.toInt) (hfuel : m.length < fuel) :
    advance heap i data fuel c = (l ++ m).getLast? := by
  induction m generalizing l c fuel with
  | nil =>
    obtain ⟨fuel, rfl⟩ : ∃ k, fuel = k + 1 := ⟨fuel - 1, by omega⟩
    have hmem : c ∈ l ++ ([] ++ r) := List.mem_append_left _ (List.mem_of_getLast? hlast)
    rw [List.append_nil, hlast, advance, hchain.next_eq c hmem, succ_append_of_getLast hchain.nodup hlast]
    cases r with
    | nil => rfl
    | cons a r =>
      obtain ⟨d, hd, hkey⟩ := data_of_forward (hchain.next_eq a (by simp))
      have hnot : ¬ d < data := by
        rw [Int32.lt_iff_toInt_lt, hkey]
        exact hr a (by simp)
      simp [hd, hnot]
  | cons b m ih =>
    obtain ⟨fuel, rfl⟩ : ∃ k, fuel = k + 1 := ⟨fuel - 1, by simp at hfuel; omega⟩
    have hmem : c ∈ l ++ (b :: m ++ r) := List.mem_append_left _ (List.mem_of_getLast? hlast)
    obtain ⟨d, hd, hkey⟩ := data_of_forward (hchain.next_eq b (by simp))
    have hlt : d < data := by
      rw [Int32.lt_iff_toInt_lt, hkey]
      exact hm b (by simp)
    have hsplit : l ++ b :: m = l ++ [b] ++ m := by simp
    rw [advance, hchain.next_eq c hmem, succ_append_of_getLast hchain.nodup hlast, hsplit]
    simp only [List.cons_append, List.head?_cons, Option.bind_eq_bind, Option.bind_some, hd, if_pos hlt]
    refine ih ?_ (by simp) (fun a ha => hm a (by simp [ha])) (by simpa using hfuel)
    simpa using hchain

section Split

variable (heap : Heap skiplevelNode) (data : Int32)

/-- The nodes below the data. -/
def below (nodes : List Nat) : List Nat := nodes.filter fun a => decide (key heap a < data.toInt)

/-- The nodes not below the data. -/
def rest (nodes : List Nat) : List Nat := nodes.filter fun a => decide (¬ key heap a < data.toInt)

theorem below_append_rest {nodes : List Nat} (hsorted : nodes.Pairwise fun a b => key heap a < key heap b) :
    below heap data nodes ++ rest heap data nodes = nodes := by
  induction nodes with
  | nil => rfl
  | cons a nodes ih =>
    obtain ⟨hfirst, hsorted⟩ := List.pairwise_cons.mp hsorted
    have ih := ih hsorted
    unfold below rest at ih ⊢
    by_cases ha : key heap a < data.toInt
    · rw [List.filter_cons_of_pos (by simpa using ha), List.filter_cons_of_neg (by simpa using ha), List.cons_append, ih]
    · have hnone : nodes.filter (fun b => decide (key heap b < data.toInt)) = [] := by
        rw [List.filter_eq_nil_iff]
        intro b hb
        have hab := hfirst b hb
        simp only [decide_eq_true_eq]
        omega
      rw [hnone, List.nil_append] at ih
      rw [List.filter_cons_of_neg (by simpa using ha), List.filter_cons_of_pos (by simpa using ha), hnone, ih]
      rfl

theorem mem_below {nodes : List Nat} {a : Nat} :
    a ∈ below heap data nodes ↔ a ∈ nodes ∧ key heap a < data.toInt := by
  simp [below]

theorem mem_rest {nodes : List Nat} {a : Nat} :
    a ∈ rest heap data nodes ↔ a ∈ nodes ∧ ¬ key heap a < data.toInt := by
  simp [rest]

end Split

/-- The last node of the level below the data, or the header: `update[i]`. -/
def update_of (list : skiplevel) (data : Int32) (nodes : List Nat) : Nat :=
  (below list.heap data nodes).getLast?.getD list.header

namespace Represents

variable {list : skiplevel} {levels : Nat → List Nat} (h : Represents list levels) (data : Int32)

include h

theorem sub_of_le {i j : Nat} (hij : i ≤ j) : (levels j).Sublist (levels i) := by
  induction hij with
  | refl => exact List.Sublist.refl _
  | step _ ih => exact (h.sub _).trans ih

/-- The front part of a level, the header included, and the rest of it. -/
theorem split (i : Nat) :
    (list.header :: below list.heap data (levels i)) ++ rest list.heap data (levels i) = list.header :: levels i := by
  rw [List.cons_append, below_append_rest list.heap data (h.sorted i)]

omit h in
theorem getLast_front (i : Nat) : (list.header :: below list.heap data (levels i)).getLast? =
    some (update_of list data (levels i)) := by
  rw [List.getLast?_cons, update_of]

theorem live {i : Nat} (hi : i ≤ MAX_LEVEL) {a : Nat} (ha : a ∈ list.header :: levels i) :
    ∃ node, list.heap.get a = some node :=
  live_of_forward ((h.chain i hi).next_eq a ha)

theorem ne_next {i : Nat} (hi : i ≤ MAX_LEVEL) {a : Nat} (ha : a ∈ list.header :: levels i) : a ≠ list.heap.next := by
  obtain ⟨node, hget⟩ := h.live hi ha
  exact Nat.ne_of_lt (Heap.lt_next_of_get hget)

theorem length_lt_fuel {i : Nat} (hi : i ≤ MAX_LEVEL) : (levels i).length < list.fuel := by
  have hlt : ∀ a ∈ levels i, a < list.heap.next := by
    intro a ha
    obtain ⟨node, hget⟩ := h.live hi (List.mem_cons_of_mem _ ha)
    exact Heap.lt_next_of_get hget
  have hle := length_le_of_nodup_lt (List.nodup_cons.mp (h.chain i hi).nodup).2 hlt
  unfold skiplevel.fuel
  omega

omit h in
theorem update_of_mem_front (i : Nat) :
    update_of list data (levels i) ∈ list.header :: below list.heap data (levels i) :=
  List.mem_of_getLast? (getLast_front data i)

theorem update_of_mem (i : Nat) : update_of list data (levels i) ∈ list.header :: levels i := by
  rw [← h.split data i]
  exact List.mem_append_left _ (update_of_mem_front data i)

/-- The link out of `update[i]` leads to the first node not below the data. -/
theorem forward_update {i : Nat} (hi : i ≤ MAX_LEVEL) :
    forward list.heap i (update_of list data (levels i)) = some (rest list.heap data (levels i)).head? := by
  have hchain := h.chain i hi
  have hnodup := hchain.nodup
  rw [hchain.next_eq _ (h.update_of_mem data i)]
  rw [← h.split data i] at hnodup ⊢
  rw [succ_append_of_getLast hnodup (getLast_front data i)]

/-- From anywhere in the front part of the levels below `i`, the descent passes
through all of `update[i - 1], ..., update[0]`. -/
theorem descend_eq {i : Nat} (hi : i ≤ MAX_LEVEL + 1) {c : Nat}
    (hc : ∀ j < i, c ∈ list.header :: below list.heap data (levels j)) :
    descend list.heap data list.fuel i c =
      some (if i = 0 then c else update_of list data (levels 0),
        (List.range i).map fun j => update_of list data (levels j)) := by
  induction i generalizing c with
  | zero => rfl
  | succ i ih =>
    obtain ⟨l, m, hsplit⟩ := List.append_of_mem (hc i (Nat.lt_succ_self i))
    have hchain := h.chain i (by omega)
    have hfront := h.split data i
    have hlist : list.header :: levels i = (l ++ [c]) ++ (m ++ rest list.heap data (levels i)) := by
      rw [← hfront, hsplit]
      simp
    rw [hlist] at hchain
    have hbelow : ∀ a ∈ m, key list.heap a < data.toInt := by
      intro a ha
      have hnodup := (h.chain i (by omega)).nodup
      have hmem : a ∈ list.header :: below list.heap data (levels i) := by rw [hsplit]; simp [ha]
      rcases List.mem_cons.mp hmem with rfl | hmem
      · exfalso
        cases l with
        | nil =>
          obtain ⟨rfl, -⟩ := List.cons.inj hsplit
          rw [← hfront, hsplit] at hnodup
          simp [ha] at hnodup
        | cons x l =>
          obtain ⟨rfl, -⟩ := List.cons.inj hsplit
          rw [← hfront, hsplit] at hnodup
          simp [ha] at hnodup
      · exact (mem_below _ _).mp hmem |>.2
    have hrest : ∀ a ∈ rest list.heap data (levels i), ¬ key list.heap a < data.toInt :=
      fun a ha => ((mem_rest _ _).mp ha).2
    have hlength : m.length < list.fuel := by
      have hle := congrArg List.length hlist
      have hfuel := h.length_lt_fuel (i := i) (by omega)
      simp only [List.length_cons, List.length_append] at hle
      omega
    have hend : (l ++ [c] ++ m).getLast? = some (update_of list data (levels i)) := by
      rw [← getLast_front, hsplit]
      simp
    have hnext : ∀ j < i, update_of list data (levels i) ∈ list.header :: below list.heap data (levels j) := by
      intro j hj
      rcases List.mem_cons.mp (update_of_mem_front data i) with heq | hmem
      · rw [heq]
        simp
      · obtain ⟨hmem, hlt⟩ := (mem_below _ _).mp hmem
        exact List.mem_cons_of_mem _
          ((mem_below _ _).mpr ⟨(h.sub_of_le (Nat.le_of_lt hj)).subset hmem, hlt⟩)
    rw [descend, advance_eq hchain (by simp) hbelow hrest hlength, hend]
    simp only [Option.bind_eq_bind, Option.bind_some, ih (by omega) hnext, List.range_succ, List.map_append,
      List.map_cons, List.map_nil]
    by_cases hzero : i = 0
    · subst i
      simp
    · simp [hzero]

/-- The descent from the header. -/
theorem descend_header :
    descend list.heap data list.fuel (list.level + 1) list.header =
      some (update_of list data (levels 0),
        (List.range (list.level + 1)).map fun j => update_of list data (levels j)) := by
  have hle := h.level_le
  have hdescend := h.descend_eq data (i := list.level + 1) (by omega) (c := list.header) (by simp)
  simpa using hdescend

/-- The first node not below the data is the node with that data, if any. -/
theorem head_rest_iff {i : Nat} {a : Nat} (ha : key list.heap a = data.toInt) :
    (rest list.heap data (levels i)).head? = some a ↔ a ∈ levels i := by
  constructor
  · intro hhead
    have hmem : a ∈ rest list.heap data (levels i) := List.mem_of_mem_head? (by simp [hhead])
    exact ((mem_rest _ _).mp hmem).1
  · intro hmem
    have hrest : a ∈ rest list.heap data (levels i) := (mem_rest _ _).mpr ⟨hmem, by omega⟩
    have hsorted : (rest list.heap data (levels i)).Pairwise fun a b => key list.heap a < key list.heap b :=
      (h.sorted i).filter _
    cases hnodes : rest list.heap data (levels i) with
    | nil => simp [hnodes] at hrest
    | cons b nodes =>
      rw [hnodes] at hrest hsorted
      rcases List.mem_cons.mp hrest with rfl | hlater
      · rfl
      · have hba := (List.pairwise_cons.mp hsorted).1 a hlater
        have hb : b ∈ rest list.heap data (levels i) := by simp [hnodes]
        have hnot := ((mem_rest _ _).mp hb).2
        omega

/-- The test after the descent finds the node with the data, if there is one. -/
theorem holds_eq :
    holds list.heap data (rest list.heap data (levels 0)).head? =
      some (decide (∃ a ∈ levels 0, key list.heap a = data.toInt)) := by
  cases hnodes : (rest list.heap data (levels 0)).head? with
  | none =>
    have hno : ¬ ∃ a ∈ levels 0, key list.heap a = data.toInt := by
      rintro ⟨a, ha, hkey⟩
      rw [(h.head_rest_iff data hkey).mpr ha] at hnodes
      cases hnodes
    simp [holds, hno]
  | some b =>
    have hmem : b ∈ rest list.heap data (levels 0) := List.mem_of_mem_head? (by simp [hnodes])
    have hb := ((mem_rest _ _).mp hmem).1
    obtain ⟨d, hd, hkey⟩ := data_of_forward ((h.chain 0 (by simp)).next_eq b (by simp [hb]))
    have hiff : d = data ↔ ∃ a ∈ levels 0, key list.heap a = data.toInt := by
      constructor
      · rintro rfl
        exact ⟨b, hb, hkey.symm⟩
      · rintro ⟨a, ha, ha'⟩
        rw [(h.head_rest_iff data ha').mpr ha] at hnodes
        cases hnodes
        exact Int32.toInt_inj.mp (hkey.trans ha')
    simp [holds, hd, hiff]

end Represents

end csystems.skip_list
