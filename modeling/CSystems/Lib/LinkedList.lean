import Mathlib.Data.List.Basic
import Mathlib.Data.List.Nodup
import Mathlib.Data.List.Perm.Subperm
import CSystems.Lib.Heap

namespace clib.heap

section Neighbours

variable {α : Type} [DecidableEq α]

/-- The element after `a`. -/
def succ : List α → α → Option α
  | [], _ => none
  | x :: xs, a => if a = x then xs.head? else succ xs a

/-- The element before `a`. -/
def pred : List α → α → Option α
  | [], _ => none
  | x :: xs, a => if xs.head? = some a then some x else pred xs a

theorem succ_of_notMem {xs : List α} {a : α} (ha : a ∉ xs) : succ xs a = none := by
  induction xs with
  | nil => rfl
  | cons x xs ih =>
    simp only [List.mem_cons, not_or] at ha
    rw [succ, if_neg ha.1, ih ha.2]

theorem pred_of_notMem {xs : List α} {a : α} (ha : a ∉ xs) : pred xs a = none := by
  induction xs with
  | nil => rfl
  | cons x xs ih =>
    simp only [List.mem_cons, not_or] at ha
    rw [pred, if_neg, ih ha.2]
    intro hhead
    exact ha.2 (List.mem_of_mem_head? (by simp [hhead]))

theorem mem_of_succ_eq_some {xs : List α} {a b : α} (h : succ xs a = some b) : b ∈ xs := by
  induction xs with
  | nil => cases h
  | cons x xs ih =>
    rw [succ] at h
    split at h
    · exact List.mem_cons_of_mem _ (List.mem_of_mem_head? (by simp [h]))
    · exact List.mem_cons_of_mem _ (ih h)

theorem mem_of_pred_eq_some {xs : List α} {a b : α} (h : pred xs a = some b) : b ∈ xs := by
  induction xs with
  | nil => cases h
  | cons x xs ih =>
    rw [pred] at h
    split at h
    · cases h
      simp
    · exact List.mem_cons_of_mem _ (ih h)

/-- In a list without repetitions the two neighbour functions are converse. -/
theorem succ_eq_some_iff {xs : List α} (hnodup : xs.Nodup) {a b : α} :
    succ xs a = some b ↔ pred xs b = some a := by
  induction xs with
  | nil => simp [succ, pred]
  | cons x xs ih =>
    obtain ⟨hx, hnodup⟩ := List.nodup_cons.mp hnodup
    rw [succ, pred]
    by_cases hax : a = x
    · subst a
      rw [if_pos rfl]
      split
      · next hhead => simp [hhead]
      · next hhead =>
        simp only [hhead, false_iff]
        intro hpred
        exact hx (mem_of_pred_eq_some hpred)
    · rw [if_neg hax, ih hnodup]
      split
      · next hhead =>
        constructor
        · intro hpred
          cases xs with
          | nil => cases hhead
          | cons y ys =>
            obtain rfl : y = b := by simpa using hhead
            have hsucc := (ih hnodup).mpr hpred
            have hy := (List.nodup_cons.mp hnodup).1
            rw [succ] at hsucc
            split at hsucc
            · exact absurd (List.mem_of_mem_head? (by simp [hsucc])) hy
            · exact absurd (mem_of_succ_eq_some hsucc) hy
        · intro hx'
          exact absurd (Option.some.inj hx').symm hax
      · rfl

theorem succ_ne_self {xs : List α} (hnodup : xs.Nodup) (a : α) : succ xs a ≠ some a := by
  induction xs with
  | nil => simp [succ]
  | cons x xs ih =>
    obtain ⟨hx, hnodup⟩ := List.nodup_cons.mp hnodup
    rw [succ]
    split
    · next hax =>
      subst a
      intro hhead
      exact hx (List.mem_of_mem_head? (by simp [hhead]))
    · exact ih hnodup

theorem pred_ne_self {xs : List α} (hnodup : xs.Nodup) (a : α) : pred xs a ≠ some a :=
  fun h => succ_ne_self hnodup a ((succ_eq_some_iff hnodup).mpr h)

/-- Removing `a` redirects the link that led to `a`. -/
theorem succ_erase {xs : List α} (hnodup : xs.Nodup) {a b : α} (hne : b ≠ a) :
    succ (xs.erase a) b = if succ xs b = some a then succ xs a else succ xs b := by
  induction xs with
  | nil => simp [succ]
  | cons x xs ih =>
    obtain ⟨hx, hnodup⟩ := List.nodup_cons.mp hnodup
    by_cases hxa : x = a
    · subst x
      rw [List.erase_cons_head]
      have hself : succ (a :: xs) b = succ xs b := by rw [succ, if_neg hne]
      rw [hself, if_neg]
      intro hsucc
      exact hx (mem_of_succ_eq_some hsucc)
    · rw [List.erase_cons_tail (by simpa using hxa), succ, succ, succ, if_neg (Ne.symm hxa)]
      by_cases hbx : b = x
      · simp only [if_pos hbx]
        cases xs with
        | nil => simp
        | cons y ys =>
          by_cases hya : y = a
          · subst y
            simp [succ]
          · rw [List.erase_cons_tail (by simpa using hya)]
            simp [hya]
      · simp only [if_neg hbx]
        exact ih hnodup

theorem pred_erase {xs : List α} (hnodup : xs.Nodup) {a b : α} (hne : b ≠ a) :
    pred (xs.erase a) b = if pred xs b = some a then pred xs a else pred xs b := by
  apply Option.ext
  intro c
  rw [← succ_eq_some_iff (hnodup.erase a)]
  by_cases hca : c = a
  · subst c
    rw [succ_of_notMem (hnodup.not_mem_erase)]
    split
    · simp [pred_ne_self hnodup a]
    · next h => simp [h]
  · rw [succ_erase hnodup hca]
    by_cases hba : pred xs b = some a
    · rw [if_pos hba]
      have hsucc := (succ_eq_some_iff hnodup).mpr hba
      rw [hsucc]
      split
      · next hca' => simp [(succ_eq_some_iff hnodup).mp hca']
      · next hca' =>
        constructor
        · intro hcb
          have := (succ_eq_some_iff hnodup).mp hcb
          rw [hba] at this
          exact absurd (Option.some.inj this).symm hca
        · intro hpred
          exact absurd ((succ_eq_some_iff hnodup).mpr hpred) hca'
    · rw [if_neg hba]
      split
      · next hca' =>
        constructor
        · intro hab
          exact absurd ((succ_eq_some_iff hnodup).mp hab) hba
        · intro hpred
          have := (succ_eq_some_iff hnodup).mpr hpred
          rw [hca'] at this
          exact absurd (Option.some.inj this).symm hne
      · exact succ_eq_some_iff hnodup

theorem head?_erase {xs : List α} (a : α) :
    (xs.erase a).head? = if xs.head? = some a then succ xs a else xs.head? := by
  cases xs with
  | nil => rfl
  | cons x xs =>
    by_cases hxa : x = a
    · subst x
      simp [succ]
    · rw [List.erase_cons_tail (by simpa using hxa)]
      simp [hxa]

theorem getLast?_erase {xs : List α} (hnodup : xs.Nodup) (a : α) :
    (xs.erase a).getLast? = if xs.getLast? = some a then pred xs a else xs.getLast? := by
  induction xs with
  | nil => rfl
  | cons x xs ih =>
    obtain ⟨hx, hnodup⟩ := List.nodup_cons.mp hnodup
    by_cases hxa : x = a
    · subst x
      rw [List.erase_cons_head]
      cases xs with
      | nil => simp [pred]
      | cons y ys =>
        rw [List.getLast?_cons_cons, if_neg]
        intro hlast
        exact hx (List.mem_of_getLast? hlast)
    · rw [List.erase_cons_tail (by simpa using hxa)]
      cases xs with
      | nil => simp [hxa]
      | cons y ys =>
        have hih := ih hnodup
        rw [List.getLast?_cons_cons]
        by_cases hya : y = a
        · subst y
          rw [List.erase_cons_head]
          cases ys with
          | nil => simp [pred]
          | cons z zs =>
            have hlast : ¬ (z :: zs).getLast? = some a := fun h =>
              (List.nodup_cons.mp hnodup).1 (List.mem_of_getLast? h)
            simp only [List.getLast?_cons_cons, if_neg hlast]
        · have hpred : pred (x :: y :: ys) a = pred (y :: ys) a := by
            rw [pred, if_neg (by simpa using hya)]
          rw [List.erase_cons_tail (by simpa using hya)] at hih ⊢
          rw [List.getLast?_cons_cons, hih, hpred]

theorem erase_concat {xs : List α} {a : α} (hnodup : (xs ++ [a]).Nodup) : (xs ++ [a]).erase a = xs := by
  have hnot : a ∉ xs := by
    intro hmem
    exact (List.disjoint_of_nodup_append hnodup) hmem (by simp)
  rw [List.erase_append_right _ hnot]
  simp

theorem erase_getLast {xs : List α} (hnodup : xs.Nodup) {a : α} (hlast : xs.getLast? = some a) :
    xs.erase a = xs.dropLast := by
  obtain ⟨ys, rfl⟩ := List.getLast?_eq_some_iff.mp hlast
  rw [erase_concat hnodup, List.dropLast_concat]

/-- The last element is the one without a successor. -/
theorem succ_eq_none_iff {xs : List α} (hnodup : xs.Nodup) {a : α} (ha : a ∈ xs) :
    succ xs a = none ↔ xs.getLast? = some a := by
  induction xs with
  | nil => simp at ha
  | cons x xs ih =>
    obtain ⟨hx, hnodup⟩ := List.nodup_cons.mp hnodup
    rw [succ]
    cases xs with
    | nil =>
      have hax : a = x := by simpa using ha
      simp [hax]
    | cons y ys =>
      rw [List.getLast?_cons_cons]
      by_cases hax : a = x
      · subst a
        rw [if_pos rfl]
        simp only [List.head?_cons, reduceCtorEq, false_iff]
        intro hlast
        exact hx (List.mem_of_getLast? hlast)
      · rw [if_neg hax]
        exact ih hnodup (by simpa [hax] using ha)

/-- The first element is the one without a predecessor. -/
theorem pred_eq_none_iff {xs : List α} (hnodup : xs.Nodup) {a : α} (ha : a ∈ xs) :
    pred xs a = none ↔ xs.head? = some a := by
  constructor
  · intro hpred
    induction xs with
    | nil => simp at ha
    | cons x xs ih =>
      rw [pred] at hpred
      split at hpred
      · cases hpred
      · next hhead =>
        rcases List.mem_cons.mp ha with rfl | ha
        · rfl
        · exact absurd (ih (List.nodup_cons.mp hnodup).2 ha hpred) hhead
  · intro hhead
    cases xs with
    | nil => cases hhead
    | cons x xs =>
      obtain rfl : x = a := by simpa using hhead
      have hx := (List.nodup_cons.mp hnodup).1
      rw [pred, if_neg, pred_of_notMem hx]
      intro hhead
      exact hx (List.mem_of_mem_head? (by simp [hhead]))

/-- The link out of the last element of a front part leads to the rest. -/
theorem succ_append_of_getLast {xs ys : List α} {a : α} (hnodup : (xs ++ ys).Nodup) (hlast : xs.getLast? = some a) :
    succ (xs ++ ys) a = ys.head? := by
  induction xs with
  | nil => cases hlast
  | cons x xs ih =>
    rw [List.cons_append] at hnodup ⊢
    obtain ⟨hx, hnodup⟩ := List.nodup_cons.mp hnodup
    cases xs with
    | nil =>
      obtain rfl : x = a := by simpa using hlast
      simp [succ]
    | cons y xs =>
      rw [List.getLast?_cons_cons] at hlast
      have hne : a ≠ x := by
        rintro rfl
        exact hx (List.mem_append_left _ (List.mem_of_getLast? hlast))
      rw [succ, if_neg hne, ih hnodup hlast]

/-- The link into the first element of the rest comes from the front part. -/
theorem pred_append_cons {xs ys : List α} {a : α} (hnodup : (xs ++ a :: ys).Nodup) :
    pred (xs ++ a :: ys) a = xs.getLast? := by
  cases hlast : xs.getLast? with
  | none =>
    obtain rfl := List.getLast?_eq_none_iff.mp hlast
    exact (pred_eq_none_iff hnodup List.mem_cons_self).mpr rfl
  | some b =>
    rw [← succ_eq_some_iff hnodup, succ_append_of_getLast hnodup hlast]
    rfl

/-- Putting `b` after the last element of a front part changes the links out of
the two. -/
theorem succ_append_cons {xs ys : List α} {a b c : α} (hnodup : (xs ++ b :: ys).Nodup)
    (hlast : xs.getLast? = some a) :
    succ (xs ++ b :: ys) c = if c = b then ys.head? else if c = a then some b else succ (xs ++ ys) c := by
  induction xs with
  | nil => cases hlast
  | cons x xs ih =>
    rw [List.cons_append] at hnodup
    obtain ⟨hx, hnodup⟩ := List.nodup_cons.mp hnodup
    have hxb : x ≠ b := fun h => hx (by simp [h])
    cases xs with
    | nil =>
      obtain rfl : x = a := by simpa using hlast
      simp only [List.cons_append, List.nil_append, succ]
      by_cases hcx : c = x
      · subst hcx
        simp [hxb]
      · simp [hcx]
    | cons y xs =>
      rw [List.getLast?_cons_cons] at hlast
      have ih := ih hnodup hlast
      have hxa : x ≠ a := by
        rintro rfl
        exact hx (List.mem_append_left _ (List.mem_of_getLast? hlast))
      have hcons (zs : List α) : succ (x :: y :: xs ++ zs) c = if c = x then some y else succ (y :: xs ++ zs) c := rfl
      rw [hcons, hcons, ih]
      by_cases hcx : c = x
      · subst hcx
        simp [hxb, hxa]
      · simp [hcx]

private theorem succ_concat {xs : List α} {a x : α} (hnodup : (xs ++ [x]).Nodup) :
    succ (xs ++ [x]) a = if xs.getLast? = some a then some x else succ xs a := by
  by_cases hlast : xs.getLast? = some a
  · rw [if_pos hlast, succ_append_of_getLast hnodup hlast]
    rfl
  · rw [if_neg hlast]
    induction xs with
    | nil => simp [succ]
    | cons y xs ih =>
      rw [List.cons_append] at hnodup ⊢
      rw [succ, succ]
      cases xs with
      | nil =>
        have hay : a ≠ y := by
          rintro rfl
          simp at hlast
        simp [hay, succ]
      | cons z xs =>
        rw [List.getLast?_cons_cons] at hlast
        rw [ih (List.nodup_cons.mp hnodup).2 hlast]
        rfl

/-- Reading a list backwards exchanges the neighbours. -/
theorem succ_reverse {xs : List α} (hnodup : xs.Nodup) (a : α) : succ xs.reverse a = pred xs a := by
  induction xs with
  | nil => rfl
  | cons x xs ih =>
    have hreversed : (xs.reverse ++ [x]).Nodup := by
      rw [← List.reverse_cons]
      exact List.nodup_reverse.mpr hnodup
    rw [List.reverse_cons, succ_concat hreversed, List.getLast?_reverse, ih (List.nodup_cons.mp hnodup).2, pred]

end Neighbours

/-- A null-terminated singly linked list: `next` reads a link field, `none`
standing for a dangling address. -/
structure Chain (next : Nat → Option (Option Nat)) (head : Option Nat) (xs : List Nat) : Prop where
  nodup : xs.Nodup
  head_eq : head = xs.head?
  next_eq : ∀ a ∈ xs, next a = some (succ xs a)

/-- A null-terminated doubly linked list with head and tail pointers. -/
structure DList (next prev : Nat → Option (Option Nat)) (head tail : Option Nat) (xs : List Nat) : Prop where
  nodup : xs.Nodup
  head_eq : head = xs.head?
  tail_eq : tail = xs.getLast?
  next_eq : ∀ a ∈ xs, next a = some (succ xs a)
  prev_eq : ∀ a ∈ xs, prev a = some (pred xs a)

/-- A doubly linked list read forwards from its head. -/
theorem DList.forwards {next prev : Nat → Option (Option Nat)} {head tail : Option Nat} {xs : List Nat}
    (h : DList next prev head tail xs) : Chain next head xs := ⟨h.nodup, h.head_eq, h.next_eq⟩

/-- A doubly linked list read backwards from its tail. -/
theorem DList.backwards {next prev : Nat → Option (Option Nat)} {head tail : Option Nat} {xs : List Nat}
    (h : DList next prev head tail xs) : Chain prev tail xs.reverse := by
  refine ⟨List.nodup_reverse.mpr h.nodup, ?_, ?_⟩
  · rw [h.tail_eq, List.head?_reverse]
  · intro a ha
    rw [h.prev_eq a (List.mem_reverse.mp ha), succ_reverse h.nodup]

theorem chain_nil (next : Nat → Option (Option Nat)) : Chain next none [] :=
  ⟨List.nodup_nil, rfl, by simp⟩

theorem Chain.tail {next : Nat → Option (Option Nat)} {head : Option Nat} {a : Nat} {xs : List Nat}
    (h : Chain next head (a :: xs)) : next a = some xs.head? ∧ Chain next xs.head? xs := by
  obtain ⟨ha, hnodup⟩ := List.nodup_cons.mp h.nodup
  have hfirst := h.next_eq a (by simp)
  rw [succ, if_pos rfl] at hfirst
  refine ⟨hfirst, hnodup, rfl, ?_⟩
  intro b hb
  have hba : b ≠ a := fun hba => ha (hba ▸ hb)
  rw [h.next_eq b (List.mem_cons_of_mem _ hb), succ, if_neg hba]

/-- A list is unaffected by stores outside its cells. -/
theorem Chain.congr {next next' : Nat → Option (Option Nat)} {head : Option Nat} {xs : List Nat}
    (h : Chain next head xs) (hsame : ∀ a ∈ xs, next' a = next a) : Chain next' head xs :=
  ⟨h.nodup, h.head_eq, fun a ha => (hsame a ha).trans (h.next_eq a ha)⟩

/-- A list that agrees with another one up to the last cell of that leads to it. -/
theorem Chain.mem_last {next next' : Nat → Option (Option Nat)} {head : Option Nat} {xs ys : List Nat} {last : Nat}
    (h : Chain next head xs) (h' : Chain next' head ys) (hlast : xs.getLast? = some last)
    (hsame : ∀ a ∈ xs, a ≠ last → next' a = next a) : last ∈ ys := by
  induction xs generalizing head ys with
  | nil => cases hlast
  | cons a xs ih =>
    obtain ⟨ys, rfl⟩ := List.head?_eq_some_iff.mp (h'.head_eq.symm.trans h.head_eq)
    cases xs with
    | nil =>
      obtain rfl : a = last := by simpa using hlast
      exact List.mem_cons_self
    | cons b xs =>
      rw [List.getLast?_cons_cons] at hlast
      have hne : a ≠ last := by
        rintro rfl
        exact (List.nodup_cons.mp h.nodup).1 (List.mem_of_getLast? hlast)
      obtain ⟨hnext, htail⟩ := h.tail
      obtain ⟨hnext', htail'⟩ := h'.tail
      rw [hsame a List.mem_cons_self hne, hnext] at hnext'
      rw [← Option.some.inj hnext'] at htail'
      exact List.mem_cons_of_mem _ (ih htail htail' hlast fun c hc => hsame c (List.mem_cons_of_mem _ hc))

/-- Linking a new cell in front. -/
theorem Chain.push {next next' : Nat → Option (Option Nat)} {head : Option Nat} {xs : List Nat} {a : Nat}
    (h : Chain next head xs) (ha : a ∉ xs) (hfirst : next' a = some head)
    (hsame : ∀ b ∈ xs, next' b = next b) : Chain next' (some a) (a :: xs) := by
  refine ⟨List.nodup_cons.mpr ⟨ha, h.nodup⟩, rfl, ?_⟩
  intro b hb
  rw [succ]
  by_cases hba : b = a
  · subst b
    rw [if_pos rfl, hfirst, h.head_eq]
  · have hb : b ∈ xs := by simpa [hba] using hb
    rw [if_neg hba, hsame b hb, h.next_eq b hb]

/-- Linking a new cell in after the last cell of a front part. -/
theorem Chain.insert {next next' : Nat → Option (Option Nat)} {head : Option Nat} {xs ys : List Nat} {a b : Nat}
    (h : Chain next head (xs ++ ys)) (hlast : xs.getLast? = some a) (hb : b ∉ xs ++ ys)
    (hnew : next' b = some ys.head?) (hlink : next' a = some (some b))
    (hsame : ∀ c ∈ xs ++ ys, c ≠ a → next' c = next c) : Chain next' head (xs ++ b :: ys) := by
  have hperm : (xs ++ b :: ys).Perm (b :: (xs ++ ys)) := List.perm_middle
  have hnodup : (xs ++ b :: ys).Nodup := hperm.nodup_iff.mpr (List.nodup_cons.mpr ⟨hb, h.nodup⟩)
  refine ⟨hnodup, ?_, ?_⟩
  · rw [h.head_eq]
    cases xs with
    | nil => cases hlast
    | cons x xs => rfl
  · intro c hc
    rw [succ_append_cons hnodup hlast]
    by_cases hcb : c = b
    · rw [if_pos hcb, hcb, hnew]
    · rw [if_neg hcb]
      by_cases hca : c = a
      · rw [if_pos hca, hca, hlink]
      · have hmem : c ∈ xs ++ ys := by simpa [hcb] using hc
        rw [if_neg hca, hsame c hmem hca, h.next_eq c hmem]

/-- Unlinking a cell: the link that led to it now leads to its successor. -/
theorem Chain.unlink {next next' : Nat → Option (Option Nat)} {head : Option Nat} {xs : List Nat} {a : Nat}
    (h : Chain next head xs)
    (hpred : ∀ b ∈ xs, b ≠ a → next' b = some (if succ xs b = some a then succ xs a else succ xs b)) :
    Chain next' (if head = some a then succ xs a else head) (xs.erase a) := by
  refine ⟨h.nodup.erase a, ?_, ?_⟩
  · rw [head?_erase, h.head_eq]
  · intro b hb
    obtain ⟨hba, hb⟩ := (h.nodup.mem_erase_iff).mp hb
    rw [hpred b hb hba, succ_erase h.nodup hba]

/-- The backward links of a doubly linked list, with its head and tail pointers. -/
structure Back (prev : Nat → Option (Option Nat)) (head tail : Option Nat) (xs : List Nat) : Prop where
  nodup : xs.Nodup
  head_eq : head = xs.head?
  tail_eq : tail = xs.getLast?
  prev_eq : ∀ a ∈ xs, prev a = some (pred xs a)

theorem DList.back {next prev : Nat → Option (Option Nat)} {head tail : Option Nat} {xs : List Nat}
    (h : DList next prev head tail xs) : Back prev head tail xs := ⟨h.nodup, h.head_eq, h.tail_eq, h.prev_eq⟩

theorem Back.mem_of_head {prev : Nat → Option (Option Nat)} {head tail : Option Nat} {xs : List Nat} {a : Nat}
    (h : Back prev head tail xs) (hhead : head = some a) : a ∈ xs :=
  List.mem_of_mem_head? (h.head_eq.symm.trans hhead)

theorem Back.congr {prev prev' : Nat → Option (Option Nat)} {head tail : Option Nat} {xs : List Nat}
    (h : Back prev head tail xs) (hprevs : ∀ a ∈ xs, prev' a = prev a) : Back prev' head tail xs :=
  ⟨h.nodup, h.head_eq, h.tail_eq, fun a ha => (hprevs a ha).trans (h.prev_eq a ha)⟩

theorem Back.push {prev prev' : Nat → Option (Option Nat)} {head tail : Option Nat} {xs : List Nat} {a : Nat}
    (h : Back prev head tail xs) (ha : a ∉ xs) (hprev : prev' a = some none)
    (hprevs : ∀ b ∈ xs, prev' b = if head = some b then some (some a) else prev b) :
    Back prev' (some a) (if tail = none then some a else tail) (a :: xs) := by
  refine ⟨List.nodup_cons.mpr ⟨ha, h.nodup⟩, rfl, ?_, ?_⟩
  · rw [h.tail_eq]
    cases xs with
    | nil => rfl
    | cons x xs => simp [List.getLast?_cons_cons]
  · intro b hb
    rw [pred, ← h.head_eq]
    by_cases hba : b = a
    · subst b
      have hhead : head ≠ some a := by
        rw [h.head_eq]
        intro hhead
        exact ha (List.mem_of_mem_head? (by simp [hhead]))
      rw [if_neg hhead, pred_of_notMem ha, hprev]
    · have hb : b ∈ xs := by simpa [hba] using hb
      rw [hprevs b hb]
      split
      · rfl
      · exact h.prev_eq b hb

theorem Back.unlink {prev prev' : Nat → Option (Option Nat)} {head tail : Option Nat} {xs : List Nat} {a : Nat}
    (h : Back prev head tail xs)
    (hprevs : ∀ b ∈ xs, b ≠ a → prev' b = if succ xs a = some b then some (pred xs a) else prev b) :
    Back prev' (if head = some a then succ xs a else head) (if tail = some a then pred xs a else tail)
      (xs.erase a) := by
  refine ⟨h.nodup.erase a, ?_, ?_, ?_⟩
  · rw [head?_erase, h.head_eq]
  · rw [getLast?_erase h.nodup, h.tail_eq]
  · intro b hb
    obtain ⟨hba, hb⟩ := (h.nodup.mem_erase_iff).mp hb
    rw [hprevs b hb hba, pred_erase h.nodup hba, h.prev_eq b hb]
    simp only [succ_eq_some_iff h.nodup]
    split <;> rfl

/-- Linking a new cell in front of a doubly linked list. -/
theorem DList.push {next prev next' prev' : Nat → Option (Option Nat)} {head tail : Option Nat}
    {xs : List Nat} {a : Nat} (h : DList next prev head tail xs) (ha : a ∉ xs)
    (hnext : next' a = some head) (hprev : prev' a = some none)
    (hnexts : ∀ b ∈ xs, next' b = next b)
    (hprevs : ∀ b ∈ xs, prev' b = if head = some b then some (some a) else prev b) :
    DList next' prev' (some a) (if tail = none then some a else tail) (a :: xs) := by
  have hback := h.back.push ha hprev hprevs
  refine ⟨hback.nodup, rfl, hback.tail_eq, ?_, hback.prev_eq⟩
  intro b hb
  rw [succ]
  by_cases hba : b = a
  · subst b
    rw [if_pos rfl, hnext, h.head_eq]
  · have hb : b ∈ xs := by simpa [hba] using hb
    rw [if_neg hba, hnexts b hb, h.next_eq b hb]

/-- Unlinking a cell from a doubly linked list: its two neighbours, or the head
and tail pointers where it has none, skip it. -/
theorem DList.unlink {next prev next' prev' : Nat → Option (Option Nat)} {head tail : Option Nat}
    {xs : List Nat} {a : Nat} (h : DList next prev head tail xs)
    (hnexts : ∀ b ∈ xs, b ≠ a → next' b = if pred xs a = some b then some (succ xs a) else next b)
    (hprevs : ∀ b ∈ xs, b ≠ a → prev' b = if succ xs a = some b then some (pred xs a) else prev b) :
    DList next' prev' (if head = some a then succ xs a else head) (if tail = some a then pred xs a else tail)
      (xs.erase a) := by
  have hback := h.back.unlink hprevs
  refine ⟨hback.nodup, hback.head_eq, hback.tail_eq, ?_, hback.prev_eq⟩
  intro b hb
  obtain ⟨hba, hb⟩ := (h.nodup.mem_erase_iff).mp hb
  rw [hnexts b hb hba, succ_erase h.nodup hba, h.next_eq b hb]
  simp only [succ_eq_some_iff h.nodup]
  split <;> rfl

theorem DList.congr {next prev next' prev' : Nat → Option (Option Nat)} {head tail : Option Nat}
    {xs : List Nat} (h : DList next prev head tail xs) (hnexts : ∀ a ∈ xs, next' a = next a)
    (hprevs : ∀ a ∈ xs, prev' a = prev a) : DList next' prev' head tail xs :=
  ⟨h.nodup, h.head_eq, h.tail_eq, fun a ha => (hnexts a ha).trans (h.next_eq a ha),
    fun a ha => (hprevs a ha).trans (h.prev_eq a ha)⟩

/-- The loop `while (p) { if (test(p)) break; p = p->next; }`: the first cell
that passes, or null. Running out of fuel or reading a dangling cell is `none`. -/
def find_cell (next : Nat → Option (Option Nat)) (test : Nat → Option Bool) :
    Nat → Option Nat → Option (Option Nat)
  | 0, _ => none
  | _ + 1, none => some none
  | fuel + 1, some a => do
    if ← test a then some (some a) else find_cell next test fuel (← next a)

theorem Chain.find_cell_eq {next : Nat → Option (Option Nat)} {head : Option Nat} {xs : List Nat}
    (h : Chain next head xs) {test : Nat → Option Bool} {p : Nat → Bool}
    (htest : ∀ a ∈ xs, test a = some (p a)) {fuel : Nat} (hfuel : xs.length < fuel) :
    find_cell next test fuel head = some (xs.find? p) := by
  induction xs generalizing head fuel with
  | nil =>
    obtain ⟨fuel, rfl⟩ : ∃ k, fuel = k + 1 := ⟨fuel - 1, by omega⟩
    rw [h.head_eq]
    rfl
  | cons a xs ih =>
    obtain ⟨fuel, rfl⟩ : ∃ k, fuel = k + 1 := ⟨fuel - 1, by simp at hfuel; omega⟩
    obtain ⟨hnext, htail⟩ := h.tail
    rw [h.head_eq, List.head?_cons, find_cell, htest a (by simp)]
    cases hp : p a with
    | true => simp [hp]
    | false =>
      have hrest := ih htail (fun b hb => htest b (by simp [hb])) (by simpa using hfuel)
      simp [hp, hnext, hrest]

/-- The loop `while (p) { if (test(p)) break; prev = p; p = p->next; }`: the first
cell that passes, and the one before it. -/
def find_prev (next : Nat → Option (Option Nat)) (test : Nat → Option Bool) :
    Nat → Option Nat → Option Nat → Option (Option (Option Nat × Nat))
  | 0, _, _ => none
  | _ + 1, _, none => some none
  | fuel + 1, prev, some a => do
    if ← test a then some (some (prev, a)) else find_prev next test fuel (some a) (← next a)

theorem Chain.find_prev_eq {next : Nat → Option (Option Nat)} {head : Option Nat} {xs : List Nat}
    (h : Chain next head xs) {test : Nat → Option Bool} {p : Nat → Bool}
    (htest : ∀ a ∈ xs, test a = some (p a)) {fuel : Nat} (hfuel : xs.length < fuel) (prev : Option Nat) :
    find_prev next test fuel prev head =
      some ((xs.find? p).map fun a => (if xs.head? = some a then prev else pred xs a, a)) := by
  induction xs generalizing head fuel prev with
  | nil =>
    obtain ⟨fuel, rfl⟩ : ∃ k, fuel = k + 1 := ⟨fuel - 1, by omega⟩
    rw [h.head_eq]
    rfl
  | cons a xs ih =>
    obtain ⟨fuel, rfl⟩ : ∃ k, fuel = k + 1 := ⟨fuel - 1, by simp at hfuel; omega⟩
    obtain ⟨hnext, htail⟩ := h.tail
    obtain ⟨ha, -⟩ := List.nodup_cons.mp h.nodup
    rw [h.head_eq, List.head?_cons, find_prev, htest a (by simp)]
    cases hp : p a with
    | true => simp [hp]
    | false =>
      have hrest := ih htail (fun b hb => htest b (by simp [hb])) (by simpa using hfuel) (some a)
      simp only [Option.bind_eq_bind, Option.bind_some, Bool.false_eq_true, if_false, hnext, hrest,
        List.find?_cons, hp]
      cases hfind : xs.find? p with
      | none => rfl
      | some b =>
        have hb : b ∈ xs := List.mem_of_find?_eq_some hfind
        have hab : a ≠ b := fun heq => ha (heq ▸ hb)
        simp [pred, hab]

/-- Distinct live addresses below a bound are at most that many. -/
theorem length_le_of_nodup_lt {xs : List Nat} (hnodup : xs.Nodup) {bound : Nat} (hlt : ∀ a ∈ xs, a < bound) :
    xs.length ≤ bound := by
  have hsubset : xs ⊆ List.range bound := fun a ha => List.mem_range.mpr (hlt a ha)
  simpa using (hnodup.subperm hsubset).length_le

end clib.heap
