import CSystems.Lib.LinkedList

open clib.heap

namespace clib.hash_table

variable {α κ : Type} {next : α → Option Nat} {key : α → κ} {hash : κ → Nat}

/-- The cells of a hash table with chaining: `chains b` are those of bucket `b`,
and no two cells have one key. -/
structure Buckets (next : α → Option Nat) (key : α → κ) (hash : κ → Nat) (heap : Heap α) (table : List (Option Nat))
    (chains : Nat → List Nat) : Prop where
  chain : ∀ b head, table[b]? = some head → Chain (heap.field next) head (chains b)
  keyed : ∀ b < table.length, ∀ a ∈ chains b, ∃ k, heap.field key a = some k ∧ hash k = b
  inj : ∀ b < table.length, ∀ a ∈ chains b, ∀ a' ∈ chains b, heap.field key a = heap.field key a' → a = a'

section Cells

variable {heap : Heap α} {table : List (Option Nat)} {chains : Nat → List Nat}

theorem Buckets.table_get (h : Buckets next key hash heap table chains) {b : Nat} (hb : b < table.length) :
    ∃ head, table[b]? = some head ∧ Chain (heap.field next) head (chains b) :=
  ⟨_, List.getElem?_eq_getElem hb, h.chain b _ (List.getElem?_eq_getElem hb)⟩

theorem Buckets.live (h : Buckets next key hash heap table chains) {b : Nat} (hb : b < table.length) {a : Nat}
    (ha : a ∈ chains b) : ∃ v, heap.get a = some v := by
  obtain ⟨k, hk, -⟩ := h.keyed b hb a ha
  obtain ⟨v, hv, -⟩ := Heap.field_eq_some hk
  exact ⟨v, hv⟩

/-- A cell is in one bucket only. -/
theorem Buckets.eq_of_mem (h : Buckets next key hash heap table chains) {b b' : Nat} (hb : b < table.length)
    (hb' : b' < table.length) {a : Nat} (ha : a ∈ chains b) (ha' : a ∈ chains b') : b = b' := by
  obtain ⟨k, hk, rfl⟩ := h.keyed b hb a ha
  obtain ⟨k', hk', rfl⟩ := h.keyed b' hb' a ha'
  rw [hk] at hk'
  rw [Option.some.inj hk']

/-- No walk along a chain is longer than the number of addresses handed out. -/
theorem Buckets.length_lt (h : Buckets next key hash heap table chains) {b : Nat} (hb : b < table.length) :
    (chains b).length < heap.next + 1 := by
  obtain ⟨head, -, hchain⟩ := h.table_get hb
  have hlt : ∀ a ∈ chains b, a < heap.next := by
    intro a ha
    obtain ⟨v, hv⟩ := h.live hb ha
    exact Heap.lt_next_of_get hv
  have hle := length_le_of_nodup_lt hchain.nodup hlt
  omega

end Cells

section Find

variable [DecidableEq κ] {heap : Heap α} {table : List (Option Nat)} {chains : Nat → List Nat}

/-- The cell of the key. -/
def stored (key : α → κ) (hash : κ → Nat) (heap : Heap α) (chains : Nat → List Nat) (k : κ) : Option Nat :=
  (chains (hash k)).find? fun a => decide (heap.field key a = some k)

theorem Buckets.stored_eq_some_iff (h : Buckets next key hash heap table chains) {k : κ} (hk : hash k < table.length)
    {a : Nat} : stored key hash heap chains k = some a ↔ a ∈ chains (hash k) ∧ heap.field key a = some k := by
  constructor
  · intro hfind
    exact ⟨List.mem_of_find?_eq_some hfind, by simpa using List.find?_some hfind⟩
  · rintro ⟨ha, hkey⟩
    cases hfind : stored key hash heap chains k with
    | none =>
      have hnone := List.find?_eq_none.mp hfind a ha
      simp [hkey] at hnone
    | some a' =>
      have ha' : a' ∈ chains (hash k) := List.mem_of_find?_eq_some hfind
      have hkey' : heap.field key a' = some k := by simpa using List.find?_some hfind
      rw [h.inj _ hk a' ha' a ha (hkey'.trans hkey.symm)]

theorem Buckets.test_eq (h : Buckets next key hash heap table chains) {k : κ} (hk : hash k < table.length) :
    ∀ a ∈ chains (hash k), heap.field (fun v => decide (key v = k)) a = some (decide (heap.field key a = some k)) := by
  intro a ha
  obtain ⟨v, hv⟩ := h.live hk ha
  simp [Heap.field, hv]

/-- A walk along the chain of the key finds its cell. -/
theorem Buckets.find_cell_eq (h : Buckets next key hash heap table chains) {k : κ} {head : Option Nat}
    (hhead : table[hash k]? = some head) {fuel : Nat} (hfuel : heap.next < fuel) :
    find_cell (heap.field next) (heap.field fun v => decide (key v = k)) fuel head =
      some (stored key hash heap chains k) := by
  have hk : hash k < table.length := (List.getElem?_eq_some_iff.mp hhead).1
  have hlength := h.length_lt hk
  exact (h.chain _ _ hhead).find_cell_eq (h.test_eq hk) (by omega)

/-- The walk that also remembers the cell before. -/
theorem Buckets.find_prev_eq (h : Buckets next key hash heap table chains) {k : κ} {head : Option Nat}
    (hhead : table[hash k]? = some head) {fuel : Nat} (hfuel : heap.next < fuel) :
    find_prev (heap.field next) (heap.field fun v => decide (key v = k)) fuel none head =
      some ((stored key hash heap chains k).map fun a => (pred (chains (hash k)) a, a)) := by
  have hk : hash k < table.length := (List.getElem?_eq_some_iff.mp hhead).1
  have hlength := h.length_lt hk
  have hchain := h.chain _ _ hhead
  rw [hchain.find_prev_eq (h.test_eq hk) (by omega)]
  cases hfind : stored key hash heap chains k with
  | none =>
    rw [stored] at hfind
    rw [hfind]
    rfl
  | some a =>
    have ha : a ∈ chains (hash k) := ((h.stored_eq_some_iff hk).mp hfind).1
    rw [stored] at hfind
    rw [hfind, Option.map_some, Option.map_some]
    by_cases hfirst : (chains (hash k)).head? = some a
    · rw [if_pos hfirst, (pred_eq_none_iff hchain.nodup ha).mpr hfirst]
    · rw [if_neg hfirst]

end Find

section Change

variable {heap : Heap α} {table : List (Option Nat)} {chains : Nat → List Nat}

/-- Linking a new cell in front of its bucket. -/
theorem Buckets.push (h : Buckets next key hash heap table chains) {v : α} {head : Option Nat}
    (hhead : table[hash (key v)]? = some head) (hnext : next v = head)
    (hnew : ∀ a ∈ chains (hash (key v)), heap.field key a ≠ some (key v)) :
    Buckets next key hash (heap.alloc v).2 (table.set (hash (key v)) (some heap.next))
      fun b => if b = hash (key v) then heap.next :: chains b else chains b := by
  have hlt : hash (key v) < table.length := (List.getElem?_eq_some_iff.mp hhead).1
  have hfresh : ∀ b < table.length, ∀ a ∈ chains b, a ≠ heap.next := by
    intro b hb a ha
    obtain ⟨w, hw⟩ := h.live hb ha
    exact Nat.ne_of_lt (Heap.lt_next_of_get hw)
  have hsame {β : Type} (f : α → β) (b : Nat) (hb : b < table.length) (a : Nat) (ha : a ∈ chains b) :
      (heap.alloc v).2.field f a = heap.field f a := Heap.field_alloc_of_ne _ _ _ (hfresh b hb a ha)
  have hself : (heap.alloc v).2.field key heap.next = some (key v) := Heap.field_alloc_self _ _ _
  refine ⟨?_, ?_, ?_⟩
  · intro b first hget
    have hb : b < table.length := by simpa using (List.getElem?_eq_some_iff.mp hget).1
    by_cases hbucket : b = hash (key v)
    · subst hbucket
      rw [List.getElem?_set_self hb] at hget
      rw [if_pos rfl, ← Option.some.inj hget]
      apply (h.chain _ _ hhead).push
      · intro hmem
        exact hfresh _ hb _ hmem rfl
      · rw [Heap.field_alloc_self, hnext]
      · exact hsame next _ hb
    · rw [List.getElem?_set_ne (Ne.symm hbucket)] at hget
      rw [if_neg hbucket]
      exact (h.chain b first hget).congr (hsame next b hb)
  · intro b hb a ha
    rw [List.length_set] at hb
    have hold (ha : a ∈ chains b) : ∃ k, (heap.alloc v).2.field key a = some k ∧ hash k = b := by
      obtain ⟨k, hk, hkb⟩ := h.keyed b hb a ha
      exact ⟨k, (hsame key b hb a ha).trans hk, hkb⟩
    split at ha
    · next hbucket =>
      obtain rfl | ha := List.mem_cons.mp ha
      · exact ⟨key v, hself, hbucket.symm⟩
      · exact hold ha
    · exact hold ha
  · intro b hb a ha a' ha' heq
    rw [List.length_set] at hb
    split at ha
    · next hbucket =>
      rw [if_pos hbucket] at ha'
      subst hbucket
      obtain rfl | ha := List.mem_cons.mp ha
      · obtain rfl | ha' := List.mem_cons.mp ha'
        · rfl
        · rw [hself, hsame key _ hb a' ha'] at heq
          exact absurd heq.symm (hnew a' ha')
      · obtain rfl | ha' := List.mem_cons.mp ha'
        · rw [hself, hsame key _ hb a ha] at heq
          exact absurd heq (hnew a ha)
        · rw [hsame key _ hb a ha, hsame key _ hb a' ha'] at heq
          exact h.inj _ hb a ha a' ha' heq
    · next hbucket =>
      rw [if_neg hbucket] at ha'
      rw [hsame key b hb a ha, hsame key b hb a' ha'] at heq
      exact h.inj b hb a ha a' ha' heq

/-- The heap after a cell was taken out of its bucket and freed. -/
def unlinked (heap : Heap α) (set_next : Option Nat → α → α) (xs : List Nat) (a : Nat) : Heap α :=
  (heap.update_if (pred xs a) (set_next (succ xs a))).erase a

theorem field_unlinked {β : Type} (heap : Heap α) {set_next : Option Nat → α → α} {f : α → β}
    (hf : ∀ p v, f (set_next p v) = f v) (xs : List Nat) {a a' : Nat} (hne : a' ≠ a) :
    (unlinked heap set_next xs a).field f a' = heap.field f a' := by
  rw [unlinked, Heap.field_erase_of_ne _ _ hne, Heap.field_update_if_of_eq heap _ (hf _)]

/-- What is read of a link after a cell was taken out of its bucket. -/
theorem next_unlinked {heap : Heap α} {set_next : Option Nat → α → α} (hset : ∀ p v, next (set_next p v) = p)
    {xs : List Nat} {a : Nat} (hlive : ∀ c ∈ xs, ∃ v, heap.get c = some v) {c : Nat} (hne : c ≠ a) :
    (unlinked heap set_next xs a).field next c =
      if pred xs a = some c then some (succ xs a) else heap.field next c := by
  rw [unlinked, Heap.field_erase_of_ne _ _ hne]
  exact Heap.field_update_if_const (hset _) (fun d hd => hlive d (mem_of_pred_eq_some hd)) c

/-- The chains of a table after a cell was taken out of bucket `b`. -/
theorem chain_unlink {set_next : Option Nat → α → α} (hset : ∀ p v, next (set_next p v) = p)
    (hchain : ∀ c head, table[c]? = some head → Chain (heap.field next) head (chains c)) {b a : Nat}
    (hb : b < table.length) (ha : a ∈ chains b)
    (hdisjoint : ∀ c < table.length, c ≠ b → ∀ d ∈ chains c, d ∉ chains b)
    (hlive : ∀ d ∈ chains b, ∃ v, heap.get d = some v) {c : Nat} {first : Option Nat}
    (hget : (if pred (chains b) a = none then table.set b (succ (chains b) a) else table)[c]? = some first) :
    Chain ((unlinked heap set_next (chains b) a).field next) first ((chains c).erase a) := by
  by_cases hcb : c = b
  · subst hcb
    have hhead : table[c]? = some table[c] := List.getElem?_eq_getElem hb
    have hbucket := hchain c _ hhead
    have hfirst : first = if table[c] = some a then succ (chains c) a else table[c] := by
      have hiff : pred (chains c) a = none ↔ table[c] = some a := by
        rw [pred_eq_none_iff hbucket.nodup ha, hbucket.head_eq]
      by_cases hnone : pred (chains c) a = none
      · rw [if_pos hnone, List.getElem?_set_self hb] at hget
        rw [if_pos (hiff.mp hnone), Option.some.inj hget]
      · rw [if_neg hnone, hhead] at hget
        rw [if_neg fun heq => hnone (hiff.mpr heq), Option.some.inj hget]
    rw [hfirst]
    apply hbucket.unlink
    intro d hd hne
    rw [next_unlinked hset hlive hne, hbucket.next_eq d hd]
    simp only [succ_eq_some_iff hbucket.nodup]
    split <;> rfl
  · have hget : table[c]? = some first := by
      split at hget
      · rwa [List.getElem?_set_ne (Ne.symm hcb)] at hget
      · exact hget
    have hother := hdisjoint c (List.getElem?_eq_some_iff.mp hget).1 hcb
    rw [List.erase_of_not_mem fun hmem => hother a hmem ha]
    apply (hchain c first hget).congr
    intro d hd
    have hne : d ≠ a := fun heq => hother d hd (heq ▸ ha)
    rw [next_unlinked hset hlive hne, if_neg]
    intro hpred
    exact hother d hd (mem_of_pred_eq_some hpred)

/-- Unlinking a cell from its bucket. -/
theorem Buckets.unlink (h : Buckets next key hash heap table chains) {set_next : Option Nat → α → α}
    (hset : ∀ p v, next (set_next p v) = p) (hkey : ∀ p v, key (set_next p v) = key v) {b a : Nat}
    (hb : b < table.length) (ha : a ∈ chains b) :
    Buckets next key hash (unlinked heap set_next (chains b) a)
      (if pred (chains b) a = none then table.set b (succ (chains b) a) else table) fun c => (chains c).erase a := by
  have hlength :
      (if pred (chains b) a = none then table.set b (succ (chains b) a) else table).length = table.length := by
    split <;> simp
  have hnodup (c : Nat) (hc : c < table.length) : (chains c).Nodup := by
    obtain ⟨first, -, hother⟩ := h.table_get hc
    exact hother.nodup
  refine ⟨?_, ?_, ?_⟩
  · intro c first hget
    refine chain_unlink hset h.chain hb ha ?_ (fun d hd => h.live hb hd) hget
    intro c hc hne d hd hmem
    exact hne (h.eq_of_mem hc hb hd hmem)
  · intro c hc d hd
    rw [hlength] at hc
    obtain ⟨hne, hd⟩ := ((hnodup c hc).mem_erase_iff).mp hd
    rw [field_unlinked heap hkey _ hne]
    exact h.keyed c hc d hd
  · intro c hc d hd d' hd' heq
    rw [hlength] at hc
    obtain ⟨hne, hd⟩ := ((hnodup c hc).mem_erase_iff).mp hd
    obtain ⟨hne', hd'⟩ := ((hnodup c hc).mem_erase_iff).mp hd'
    rw [field_unlinked heap hkey _ hne, field_unlinked heap hkey _ hne'] at heq
    exact h.inj c hc d hd d' hd' heq

end Change

end clib.hash_table
