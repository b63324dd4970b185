import CSystems.HashTable.Table

open clib.heap clib.hash_table clib.table

namespace csystems.hash_table

/-- The cells of bucket `b` are `chains b`, and hold the entries of the bucket in
the order in which they were entered. -/
structure Represents (t : table_t) (chains : Nat → List Nat) (entries : List (key_t × Int32)) : Prop where
  length : t.hashTable.length = TABLE_SIZE
  chain : ∀ b head, t.hashTable[b]? = some head → Chain (t.heap.field Node.next) head (chains b)
  contents : ∀ b < TABLE_SIZE, (chains b).map (t.heap.field Node.contents) = (bucket entries b).map some
  distinct : (entries.map Prod.fst).Nodup

section Lists

variable {α β γ : Type}

/-- Two lists that agree element by element, cut down in the same way. -/
theorem filter_map_eq {f : α → γ} {g : β → γ} {p : α → Bool} {q : β → Bool} {xs : List α} {ys : List β}
    (heq : xs.map f = ys.map g) (hsame : ∀ x ∈ xs, ∀ y ∈ ys, f x = g y → p x = q y) :
    (xs.filter p).map f = (ys.filter q).map g := by
  induction xs generalizing ys with
  | nil =>
    obtain rfl : ys = [] := by simpa using heq.symm
    rfl
  | cons x xs ih =>
    cases ys with
    | nil => cases heq
    | cons y ys =>
      obtain ⟨hhead, htail⟩ := List.cons.inj heq
      have hrest := ih htail fun x' hx' y' hy' =>
        hsame x' (List.mem_cons_of_mem _ hx') y' (List.mem_cons_of_mem _ hy')
      have hp := hsame x List.mem_cons_self y List.mem_cons_self hhead
      rw [List.filter_cons, List.filter_cons, hp]
      split
      · rw [List.map_cons, List.map_cons, hhead, hrest]
      · exact hrest

end Lists

section Cells

variable {t : table_t} {chains : Nat → List Nat} {entries : List (key_t × Int32)}

theorem field_key_of_contents {heap : Heap Node} {a : Nat} {p : key_t × Int32}
    (h : heap.field Node.contents a = some p) :
    heap.field Node.key a = some p.1 ∧ heap.field Node.value a = some p.2 := by
  obtain ⟨n, hn, rfl⟩ := Heap.field_eq_some h
  simp [Heap.field, hn, Node.contents]

/-- Every cell of a chain holds an entry of its bucket. -/
theorem Represents.cell (h : Represents t chains entries) {b : Nat} (hb : b < TABLE_SIZE) {a : Nat}
    (ha : a ∈ chains b) : ∃ p ∈ bucket entries b, t.heap.field Node.contents a = some p := by
  have hmem : t.heap.field Node.contents a ∈ (bucket entries b).map some := by
    rw [← h.contents b hb]
    exact List.mem_map_of_mem ha
  obtain ⟨p, hp, heq⟩ := List.mem_map.mp hmem
  exact ⟨p, hp, heq.symm⟩

/-- Every entry is in a cell of its bucket. -/
theorem Represents.entry (h : Represents t chains entries) {p : key_t × Int32} (hp : p ∈ entries) :
    ∃ a ∈ chains (hash p.1), t.heap.field Node.contents a = some p := by
  have hmem : some p ∈ (chains (hash p.1)).map (t.heap.field Node.contents) := by
    rw [h.contents _ (hash_lt p.1)]
    exact List.mem_map_of_mem (List.mem_filter.mpr ⟨hp, by simp⟩)
  exact List.mem_map.mp hmem

theorem Represents.keys_nodup (h : Represents t chains entries) {b : Nat} (hb : b < TABLE_SIZE) :
    ((chains b).map (t.heap.field Node.key)).Nodup := by
  have hkeys : (chains b).map (t.heap.field Node.key) = ((bucket entries b).map Prod.fst).map some := by
    have hmap := congrArg (List.map (Option.map Prod.fst)) (h.contents b hb)
    rw [List.map_map, List.map_map] at hmap
    rw [List.map_map]
    refine Eq.trans (List.map_congr_left fun a _ => ?_) hmap
    simp only [Function.comp_apply, Heap.field, Option.map_map]
    rfl
  rw [hkeys]
  refine List.Nodup.map (fun _ _ heq => Option.some.inj heq) ?_
  exact h.distinct.sublist (List.filter_sublist.map _)

theorem Represents.buckets (h : Represents t chains entries) :
    Buckets Node.next Node.key hash t.heap t.hashTable chains := by
  refine ⟨h.chain, ?_, ?_⟩
  · intro b hb a ha
    obtain ⟨p, hp, hcontents⟩ := h.cell (h.length ▸ hb) ha
    exact ⟨p.1, (field_key_of_contents hcontents).1, by simpa using (List.mem_filter.mp hp).2⟩
  · intro b hb a ha a' ha' heq
    exact List.inj_on_of_nodup_map (h.keys_nodup (h.length ▸ hb)) ha ha' heq

theorem Represents.head_get (h : Represents t chains entries) (key : key_t) :
    ∃ head, t.hashTable[hash key]? = some head ∧
      Chain (t.heap.field Node.next) head (chains (hash key)) :=
  h.buckets.table_get (h.length ▸ hash_lt key)

/-- The cell that a walk for the key stops at. -/
theorem Represents.stored_cases (h : Represents t chains entries) (key : key_t) :
    (stored Node.key hash t.heap chains key = none ∧ key ∉ entries.map Prod.fst) ∨
    ∃ a value, stored Node.key hash t.heap chains key = some a ∧ a ∈ chains (hash key) ∧ (key, value) ∈ entries ∧
      t.heap.field Node.contents a = some (key, value) := by
  have hlt : hash key < t.hashTable.length := h.length ▸ hash_lt key
  by_cases hmem : key ∈ entries.map Prod.fst
  · obtain ⟨⟨_, value⟩, hp, rfl⟩ := List.mem_map.mp hmem
    obtain ⟨a, ha, hcontents⟩ := h.entry hp
    exact Or.inr ⟨a, value, (h.buckets.stored_eq_some_iff hlt).mpr ⟨ha, (field_key_of_contents hcontents).1⟩, ha, hp,
      hcontents⟩
  · refine Or.inl ⟨?_, hmem⟩
    cases hstored : stored Node.key hash t.heap chains key with
    | none => rfl
    | some a =>
      obtain ⟨ha, hkey⟩ := (h.buckets.stored_eq_some_iff hlt).mp hstored
      obtain ⟨p, hp, hcontents⟩ := h.cell (hash_lt key) ha
      rw [(field_key_of_contents hcontents).1] at hkey
      obtain rfl := Option.some.inj hkey
      exact absurd (List.mem_map_of_mem (List.mem_filter.mp hp).1) hmem

/-- The cell of a key is the only one that has it. -/
theorem Represents.eq_cell_iff (h : Represents t chains entries) {key : key_t} {value : Int32} {a : Nat}
    (ha : a ∈ chains (hash key)) (hcontents : t.heap.field Node.contents a = some (key, value)) {b : Nat}
    (hb : b < TABLE_SIZE) {c : Nat} (hc : c ∈ chains b) {p : key_t × Int32}
    (hp : t.heap.field Node.contents c = some p) : c = a ↔ p.1 = key := by
  constructor
  · rintro rfl
    rw [hcontents] at hp
    rw [← Option.some.inj hp]
  · rintro rfl
    obtain ⟨k, hk, rfl⟩ := h.buckets.keyed b (h.length ▸ hb) c hc
    obtain rfl : p.1 = k := Option.some.inj ((field_key_of_contents hp).1.symm.trans hk)
    refine h.buckets.inj _ (h.length ▸ hash_lt _) c hc a ha ?_
    rw [hk, (field_key_of_contents hcontents).1]

private theorem value_of_mem (hdistinct : (entries.map Prod.fst).Nodup) {key : key_t} {value : Int32}
    (hmem : (key, value) ∈ entries) : value_of key entries = some value := by
  induction entries with
  | nil => cases hmem
  | cons p entries ih =>
    rw [List.map_cons, List.nodup_cons] at hdistinct
    rcases List.mem_cons.mp hmem with rfl | hmem
    · simp [value_of]
    · rw [value_of, if_neg, ih hdistinct.2 hmem]
      intro heq
      exact hdistinct.1 (List.mem_map.mpr ⟨(key, value), hmem, heq.symm⟩)

theorem Represents.search_eq (h : Represents t chains entries) (key : key_t) :
    search key t = some ((value_of key entries).getD (-1)) := by
  obtain ⟨head, hhead, -⟩ := h.head_get key
  rw [search, hhead, Option.bind_eq_bind, Option.bind_some, table_t.fuel,
    h.buckets.find_cell_eq hhead (Nat.lt_succ_self _), Option.bind_some]
  rcases h.stored_cases key with ⟨hstored, habsent⟩ | ⟨a, value, hstored, -, hmem, hcontents⟩
  · rw [hstored, value_of_eq_none_iff.mpr habsent]
    rfl
  · rw [hstored, value_of_mem h.distinct hmem]
    exact (field_key_of_contents hcontents).2

/-- A deletion takes the cell of the key out of its chain. -/
theorem Represents.delete (h : Represents t chains entries) (key : key_t) :
    ∃ t' chains', delete key t = some t' ∧ Represents t' chains' (enter_call entries (.delete key)) := by
  obtain ⟨head, hhead, hchain⟩ := h.head_get key
  have hlt : hash key < t.hashTable.length := h.length ▸ hash_lt key
  have hfind := h.buckets.find_prev_eq hhead (Nat.lt_succ_self t.heap.next)
  rcases h.stored_cases key with ⟨hstored, habsent⟩ | ⟨a, value, hstored, ha, hmem, hcontents⟩
  · refine ⟨t, chains, ?_, ?_⟩
    · rw [hash_table.delete, hhead, Option.bind_eq_bind, Option.bind_some, table_t.fuel, hfind, hstored]
      rfl
    · have hsame : enter_call entries (.delete key) = entries := by
        rw [enter_call, List.filter_eq_self]
        intro p hp
        have hne : p.1 ≠ key := fun heq => habsent (heq ▸ List.mem_map_of_mem hp)
        simpa using hne
      rwa [hsame]
  · obtain ⟨n, hn, hnc⟩ := Heap.field_eq_some hcontents
    have hnext : n.next = succ (chains (hash key)) a := by
      have hlink := hchain.next_eq a ha
      simpa [Heap.field, hn] using hlink
    have hlive : ∀ c, pred (chains (hash key)) a = some c → ∃ v, t.heap.get c = some v := fun c hc =>
      h.buckets.live hlt (mem_of_pred_eq_some hc)
    obtain ⟨n', hn'⟩ : ∃ v, (t.heap.update_if (pred (chains (hash key)) a)
        (.set_next (succ (chains (hash key)) a))).get a = some v := (Heap.live_update_if _ _ _).mpr ⟨n, hn⟩
    have hunlink := h.buckets.unlink (fun p (v : Node) => (rfl : (v.set_next p).next = p))
      (fun p (v : Node) => (rfl : (v.set_next p).key = v.key)) hlt ha
    refine ⟨⟨if pred (chains (hash key)) a = none then t.hashTable.set (hash key) (succ (chains (hash key)) a)
        else t.hashTable, unlinked t.heap Node.set_next (chains (hash key)) a⟩, fun b => (chains b).erase a, ?_, ?_⟩
    · rw [hstored, Option.map_some] at hfind
      rw [hash_table.delete, hhead, Option.bind_eq_bind, Option.bind_some, table_t.fuel, hfind]
      simp only [Option.bind_eq_bind, Option.bind_some, hn, hnext, Heap.modify_if_of_live hlive, Heap.free_of_get hn',
        unlinked]
    · refine ⟨?_, hunlink.chain, ?_, nodup_enter_call h.distinct _⟩
      · dsimp only
        split <;> simp [h.length]
      · intro b hb
        have hbucket : bucket (enter_call entries (.delete key)) b =
            (bucket entries b).filter fun p => decide (p.1 ≠ key) := by
          rw [bucket, bucket, enter_call, List.filter_filter, List.filter_filter]
          refine List.filter_congr fun p _ => Bool.and_comm _ _
        have hnodup : (chains b).Nodup := (h.keys_nodup hb).of_map _
        rw [hbucket, hnodup.erase_eq_filter]
        refine Eq.trans (List.map_congr_left fun c hc => ?_) (filter_map_eq (h.contents b hb) fun c hc p hp heq => ?_)
        · exact field_unlinked t.heap (fun p (v : Node) => (rfl : (v.set_next p).contents = v.contents)) _
            (by simpa using (List.mem_filter.mp hc).2)
        · rw [Bool.eq_iff_iff, bne_iff_ne, decide_eq_true_eq, ne_eq, h.eq_cell_iff ha hcontents hb hc heq]

end Cells

end csystems.hash_table
