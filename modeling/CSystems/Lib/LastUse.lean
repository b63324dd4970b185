import Mathlib.Data.List.Dedup
import Mathlib.Data.List.Induction

namespace clib.last_use

variable {α : Type} [DecidableEq α]

/-- The distinct members of a history, the one that occurred last in front. -/
def most_recent (history : List α) : List α := history.dedup.reverse

@[simp] theorem mem_most_recent {history : List α} {x : α} : x ∈ most_recent history ↔ x ∈ history := by
  rw [most_recent, List.mem_reverse, List.mem_dedup]

theorem nodup_most_recent (history : List α) : (most_recent history).Nodup :=
  List.nodup_reverse.mpr (List.nodup_dedup history)

theorem length_most_recent (history : List α) : (most_recent history).length = history.dedup.length :=
  List.length_reverse

private theorem dedup_append_singleton (history : List α) (x : α) :
    (history ++ [x]).dedup = history.dedup.filter (· ≠ x) ++ [x] := by
  induction history with
  | nil => rfl
  | cons y history ih =>
    rw [List.cons_append]
    by_cases hmem : y ∈ history
    · rw [List.dedup_cons_of_mem (by simp [hmem]), List.dedup_cons_of_mem hmem, ih]
    · rw [List.dedup_cons_of_notMem hmem]
      by_cases hyx : y = x
      · subst hyx
        rw [List.dedup_cons_of_mem (by simp), ih, List.filter_cons_of_neg (by simp)]
      · rw [List.dedup_cons_of_notMem (by simp [hmem, hyx]), ih, List.filter_cons_of_pos (by simpa using hyx),
          List.cons_append]

/-- A further occurrence moves its member to the front. -/
theorem most_recent_append (history : List α) (x : α) :
    most_recent (history ++ [x]) = x :: (most_recent history).erase x := by
  rw [(nodup_most_recent history).erase_eq_filter, most_recent, most_recent, dedup_append_singleton,
    List.reverse_append, List.filter_reverse]
  simp only [List.reverse_singleton, List.singleton_append, List.cons.injEq, List.reverse_inj, true_and]
  exact List.filter_congr fun y _ => by simp [bne, beq_eq_decide]

/-- Moving a member of the first few to the front keeps the others in their order. -/
theorem take_erase {xs : List α} {x : α} {n : Nat} (hmem : x ∈ xs.take (n + 1)) :
    (xs.take (n + 1)).erase x = (xs.erase x).take n := by
  induction xs generalizing n with
  | nil => simp
  | cons y xs ih =>
    by_cases hyx : y = x
    · subst hyx
      simp
    · rw [List.take_succ_cons, List.mem_cons] at hmem
      have hmem := hmem.resolve_left (Ne.symm hyx)
      cases n with
      | zero => simp at hmem
      | succ n =>
        rw [List.take_succ_cons, List.erase_cons_tail (by simpa using hyx), ih hmem,
          List.erase_cons_tail (by simpa using hyx), List.take_succ_cons]

theorem take_erase_of_notMem {xs : List α} {x : α} {n : Nat} (hmem : x ∉ xs.take n) :
    (xs.erase x).take n = xs.take n := by
  induction xs generalizing n with
  | nil => rfl
  | cons y xs ih =>
    cases n with
    | zero => rfl
    | succ n =>
      rw [List.take_succ_cons, List.mem_cons, not_or] at hmem
      rw [List.erase_cons_tail (by simpa using Ne.symm hmem.1), List.take_succ_cons, List.take_succ_cons, ih hmem.2]

/-- The first `n + 1` after a further occurrence, if it was among them. -/
theorem take_most_recent_of_mem {history : List α} {x : α} {n : Nat} (hmem : x ∈ (most_recent history).take (n + 1)) :
    (most_recent (history ++ [x])).take (n + 1) = x :: ((most_recent history).take (n + 1)).erase x := by
  rw [most_recent_append, List.take_succ_cons, take_erase hmem]

/-- The first `n + 1` after an occurrence of something that was not among the
first `n`. -/
theorem take_most_recent_of_notMem {history : List α} {x : α} {n : Nat} (hmem : x ∉ (most_recent history).take n) :
    (most_recent (history ++ [x])).take (n + 1) = x :: (most_recent history).take n := by
  rw [most_recent_append, List.take_succ_cons, take_erase_of_notMem hmem]

omit [DecidableEq α] in
theorem notMem_take_of_notMem_take_succ {xs : List α} {x : α} {n : Nat} (hmem : x ∉ xs.take (n + 1)) :
    x ∉ xs.take n := fun h => hmem (List.take_subset_take_left _ (Nat.le_succ n) h)

/-- Since `x` occurred last, all the others have occurred. -/
def LeastRecent (history : List α) (x : α) (others : List α) : Prop :=
  ∃ before after, history = before ++ x :: after ∧ x ∉ after ∧ ∀ y ∈ others, y ∈ after

/-- Moving a member to the front of a list ordered by last occurrence. -/
theorem cons_erase_sublist {history xs : List α} (h : xs.Sublist (most_recent history)) (x : α) :
    (x :: xs.erase x).Sublist (most_recent (history ++ [x])) := by
  rw [most_recent_append]
  exact (h.erase x).cons_cons x

/-- The last member of a list ordered by last occurrence is the least recent one. -/
theorem leastRecent_of_sublist {history xs : List α} {x : α} (h : (xs ++ [x]).Sublist (most_recent history)) :
    LeastRecent history x xs := by
  induction history using List.reverseRecOn generalizing xs with
  | nil => simp [most_recent] at h
  | append_singleton history y ih =>
    have hnodup := (nodup_most_recent (history ++ [y])).sublist h
    rw [most_recent_append] at h
    by_cases hxy : x = y
    · subst hxy
      refine ⟨history, [], rfl, List.not_mem_nil, ?_⟩
      cases xs with
      | nil => simp
      | cons z xs =>
        have hzx : z ≠ x := by
          rintro rfl
          simp at hnodup
        have hrest : (z :: xs ++ [x]).Sublist ((most_recent history).erase x) :=
          (List.sublist_cons_iff.mp h).resolve_right (by simp [hzx])
        have hmem : x ∈ (most_recent history).erase x := hrest.subset (by simp)
        exact absurd hmem (nodup_most_recent history).not_mem_erase
    · have herase := h.erase y
      rw [List.erase_cons_head] at herase
      have hkept : (xs ++ [x]).erase y = xs.erase y ++ [x] := by
        by_cases hmem : y ∈ xs
        · exact List.erase_append_left _ hmem
        · have hlast : y ∉ [x] := by simpa using Ne.symm hxy
          rw [List.erase_append_right _ hmem, List.erase_of_not_mem hmem, List.erase_of_not_mem hlast]
      rw [hkept] at herase
      obtain ⟨before, after, rfl, hafter, hothers⟩ := ih (herase.trans List.erase_sublist)
      refine ⟨before, after ++ [y], by simp, by simp [hafter, hxy], ?_⟩
      intro z hz
      by_cases hzy : z = y
      · simp [hzy]
      · exact List.mem_append_left _ (hothers z ((List.mem_erase_of_ne hzy).mpr hz))

example : (most_recent [1, 2, 3, 1]).take 2 = [1, 3] := by decide

end clib.last_use
