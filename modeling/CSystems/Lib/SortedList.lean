import Mathlib.Data.List.Induction
import Mathlib.Data.List.Sort

namespace clib.sorted_list

variable {α : Type} {r : α → α → Prop} {xs xs' pre post : List α} {a : α}

/-- A sorted list is below what its last element is below. -/
theorem forall_of_getLast [IsTrans α r] (hsorted : xs.Pairwise r) (hlast : ∀ x ∈ xs.getLast?, r x a) :
    ∀ x ∈ xs, r x a := by
  intro x hx
  cases xs using List.reverseRecOn with
  | nil => cases hx
  | append_singleton xs y =>
    have hy : r y a := hlast y (by simp)
    rcases List.mem_append.mp hx with hx | hx
    · exact Trans.trans ((List.pairwise_append.mp hsorted).2.2 x hx y (by simp)) hy
    · rwa [List.mem_singleton.mp hx]

/-- A sorted list is above what its first element is above. -/
theorem forall_of_head [IsTrans α r] (hsorted : xs.Pairwise r) (hhead : ∀ x ∈ xs.head?, r a x) : ∀ x ∈ xs, r a x := by
  intro x hx
  cases xs with
  | nil => cases hx
  | cons y xs =>
    have hy : r a y := hhead y rfl
    rcases List.mem_cons.mp hx with rfl | hx
    · exact hy
    · exact Trans.trans hy ((List.pairwise_cons.mp hsorted).1 x hx)

/-- Putting a value where it fits is inserting it in order. -/
theorem append_cons_eq_orderedInsert [DecidableRel r] [IsTrans α r] [Std.Antisymm r] [Std.Total r]
    (hsorted : (pre ++ post).Pairwise r) (hlast : ∀ x ∈ pre.getLast?, r x a) (hhead : ∀ x ∈ post.head?, r a x) :
    pre ++ a :: post = (pre ++ post).orderedInsert r a := by
  obtain ⟨hpre, hpost, hacross⟩ := List.pairwise_append.mp hsorted
  have hbelow := forall_of_getLast hpre hlast
  have habove := forall_of_head hpost hhead
  have hperm : (pre ++ a :: post).Perm ((pre ++ post).orderedInsert r a) :=
    List.perm_middle.trans (List.perm_orderedInsert r a (pre ++ post)).symm
  refine hperm.eq_of_pairwise' ?_ (hsorted.orderedInsert a _)
  refine List.pairwise_append.mpr ⟨hpre, List.pairwise_cons.mpr ⟨habove, hpost⟩, ?_⟩
  intro x hx y hy
  rcases List.mem_cons.mp hy with rfl | hy
  · exact hbelow x hx
  · exact hacross x hx y hy

theorem insertIdx_length_append (pre post : List α) (a : α) :
    (pre ++ post).insertIdx pre.length a = pre ++ a :: post := by
  induction pre with
  | nil => rfl
  | cons x pre ih => simpa using ih

/-- A place at which a value may be inserted in order. -/
structure Slot (r : α → α → Prop) (xs : List α) (a : α) (i : Nat) : Prop where
  le : i ≤ xs.length
  below : ∀ x, 0 < i → xs[i - 1]? = some x → r x a
  above : ∀ x, xs[i]? = some x → r a x

theorem Slot.insertIdx_eq [DecidableRel r] [IsTrans α r] [Std.Antisymm r] [Std.Total r] {i : Nat} (h : Slot r xs a i)
    (hsorted : xs.Pairwise r) : xs.insertIdx i a = xs.orderedInsert r a := by
  have hlength : (xs.take i).length = i := List.length_take_of_le h.le
  have hsplit : xs.take i ++ a :: xs.drop i = (xs.take i ++ xs.drop i).orderedInsert r a := by
    refine append_cons_eq_orderedInsert (by rwa [List.take_append_drop]) ?_ ?_
    · intro x hx
      rw [List.getLast?_take] at hx
      split at hx
      · cases hx
      · next hi =>
        have hle := h.le
        rw [List.getElem?_eq_getElem (by omega)] at hx
        exact h.below x (by omega) (by rw [List.getElem?_eq_getElem (by omega)]; simpa using hx)
    · intro x hx
      rw [List.head?_drop] at hx
      exact h.above x hx
  rw [List.take_append_drop, ← insertIdx_length_append, List.take_append_drop, hlength] at hsplit
  exact hsplit

/-- Part of a sorted list may be exchanged for a sorted list of the same values
and one more that fits in between the rest. -/
theorem pairwise_replace (hsorted : (pre ++ xs ++ post).Pairwise r) (hxs' : xs'.Pairwise r)
    (hmem : ∀ x ∈ xs', x = a ∨ x ∈ xs) (hpre : ∀ x ∈ pre, r x a) (hpost : ∀ x ∈ post, r a x) :
    (pre ++ xs' ++ post).Pairwise r := by
  rw [List.pairwise_append, List.pairwise_append] at hsorted ⊢
  obtain ⟨⟨hpre', -, hleft⟩, hpost', hright⟩ := hsorted
  refine ⟨⟨hpre', hxs', ?_⟩, hpost', ?_⟩
  · intro x hx y hy
    rcases hmem y hy with rfl | hy
    · exact hpre x hx
    · exact hleft x hx y hy
  · intro x hx y hy
    rcases List.mem_append.mp hx with hx | hx
    · exact hright x (List.mem_append_left _ hx) y hy
    · rcases hmem x hx with rfl | hx
      · exact hpost y hy
      · exact hright x (List.mem_append_right _ hx) y hy

/-- The first value of the second half may stand between the halves. -/
theorem pairwise_separate [Std.Refl r] (hsorted : (pre ++ a :: post).Pairwise r) :
    (pre ++ a :: a :: post).Pairwise r := by
  rw [List.pairwise_append, List.pairwise_cons] at hsorted ⊢
  obtain ⟨hpre, hpost, hacross⟩ := hsorted
  refine ⟨hpre, ⟨?_, List.pairwise_cons.mpr hpost⟩, ?_⟩
  · intro x hx
    rcases List.mem_cons.mp hx with rfl | hx
    · exact refl x
    · exact hpost.1 x hx
  · intro x hx y hy
    rcases List.mem_cons.mp hy with rfl | hy
    · exact hacross x hx y (List.mem_cons_self ..)
    · exact hacross x hx y hy

/-- A sorted list is what its permutations are sorted to. -/
theorem mergeSort_eq_of_perm [LE α] [DecidableLE α] [Std.IsLinearOrder α] (hsorted : xs.Pairwise (· ≤ ·))
    (hperm : xs.Perm xs') :
    xs'.mergeSort (· ≤ ·) = xs := by
  have hsort : (xs'.mergeSort (· ≤ ·)).Pairwise (· ≤ ·) := by
    have hpairs := @List.pairwise_mergeSort _ (fun a b : α => decide (a ≤ b))
      (fun a b c hab hbc => by simpa using Std.le_trans (of_decide_eq_true hab) (of_decide_eq_true hbc))
      (fun a b => by simpa using Std.le_total (a := a) (b := b)) xs'
    exact hpairs.imp of_decide_eq_true
  exact ((List.mergeSort_perm xs' _).trans hperm.symm).eq_of_pairwise' hsort hsorted

end clib.sorted_list
