import Mathlib.Data.List.Basic
import Mathlib.Data.List.Induction
import Mathlib.Order.RelClasses
import Mathlib.Tactic.Tauto

namespace clib.sorted_set

instance instIsStrictOrderInt32 : IsStrictOrder Int32 (· < ·) where
  irrefl _ := Int32.lt_irrefl
  trans _ _ _ := Int32.lt_trans

section Order

variable {α : Type} [LT α] [IsStrictOrder α (· < ·)] {xs ys left right : List α} {a v : α}

/-- `ys` lists the set `xs` with `a` put in. -/
structure Inserts (a : α) (xs ys : List α) : Prop where
  sorted : ys.Pairwise (· < ·)
  mem_iff : ∀ x, x ∈ ys ↔ x = a ∨ x ∈ xs

/-- `ys` lists the set `xs` with `a` taken out. -/
structure Deletes (a : α) (xs ys : List α) : Prop where
  sorted : ys.Pairwise (· < ·)
  mem_iff : ∀ x, x ∈ ys ↔ x ≠ a ∧ x ∈ xs

/-- A list is sorted around one of its elements. -/
theorem pairwise_node_iff :
    (left ++ v :: right).Pairwise (· < ·) ↔
      left.Pairwise (· < ·) ∧ right.Pairwise (· < ·) ∧ (∀ x ∈ left, x < v) ∧ ∀ x ∈ right, v < x := by
  rw [List.pairwise_append, List.pairwise_cons]
  constructor
  · rintro ⟨hleft, ⟨hvr, hright⟩, hcross⟩
    exact ⟨hleft, hright, fun x hx => hcross x hx v (by simp), hvr⟩
  · rintro ⟨hleft, hright, hlv, hvr⟩
    refine ⟨hleft, ⟨hvr, hright⟩, ?_⟩
    intro x hx y hy
    rcases List.mem_cons.mp hy with rfl | hy
    · exact hlv x hx
    · exact Trans.trans (hlv x hx) (hvr y hy)

omit [IsStrictOrder α (· < ·)] in
theorem inserts_self (h : xs.Pairwise (· < ·)) (ha : a ∈ xs) : Inserts a xs xs :=
  ⟨h, fun _ => ⟨Or.inr, fun hx => hx.elim (fun heq => heq ▸ ha) id⟩⟩

/-- Inserting on the left of `v`. -/
theorem inserts_left (h : (left ++ v :: right).Pairwise (· < ·)) (hav : a < v) (hins : Inserts a left ys) :
    Inserts a (left ++ v :: right) (ys ++ v :: right) := by
  obtain ⟨-, hright, hlv, hvr⟩ := pairwise_node_iff.mp h
  refine ⟨pairwise_node_iff.mpr ⟨hins.sorted, hright, ?_, hvr⟩, ?_⟩
  · intro x hx
    rcases (hins.mem_iff x).mp hx with rfl | hx
    · exact hav
    · exact hlv x hx
  · intro x
    rw [List.mem_append, List.mem_append, hins.mem_iff, or_assoc]

/-- Inserting on the right of `v`. -/
theorem inserts_right (h : (left ++ v :: right).Pairwise (· < ·)) (hva : v < a) (hins : Inserts a right ys) :
    Inserts a (left ++ v :: right) (left ++ v :: ys) := by
  obtain ⟨hleft, -, hlv, hvr⟩ := pairwise_node_iff.mp h
  refine ⟨pairwise_node_iff.mpr ⟨hleft, hins.sorted, hlv, ?_⟩, ?_⟩
  · intro x hx
    rcases (hins.mem_iff x).mp hx with rfl | hx
    · exact hva
    · exact hvr x hx
  · intro x
    rw [List.mem_append, List.mem_append, List.mem_cons, List.mem_cons, hins.mem_iff]
    tauto

/-- Deleting on the left of `v`. -/
theorem deletes_left (h : (left ++ v :: right).Pairwise (· < ·)) (hav : a < v) (hdel : Deletes a left ys) :
    Deletes a (left ++ v :: right) (ys ++ v :: right) := by
  obtain ⟨-, hright, hlv, hvr⟩ := pairwise_node_iff.mp h
  refine ⟨pairwise_node_iff.mpr ⟨hdel.sorted, hright, fun x hx => hlv x ((hdel.mem_iff x).mp hx).2, hvr⟩, ?_⟩
  intro x
  have hkept : x ∈ v :: right → x ≠ a := by
    rintro hx rfl
    rcases List.mem_cons.mp hx with rfl | hx
    · exact irrefl _ hav
    · exact irrefl _ (Trans.trans hav (hvr x hx))
  rw [List.mem_append, List.mem_append, hdel.mem_iff]
  tauto

/-- Deleting on the right of `v`. -/
theorem deletes_right (h : (left ++ v :: right).Pairwise (· < ·)) (hva : v < a) (hdel : Deletes a right ys) :
    Deletes a (left ++ v :: right) (left ++ v :: ys) := by
  obtain ⟨hleft, -, hlv, hvr⟩ := pairwise_node_iff.mp h
  refine ⟨pairwise_node_iff.mpr ⟨hleft, hdel.sorted, hlv, fun x hx => hvr x ((hdel.mem_iff x).mp hx).2⟩, ?_⟩
  intro x
  have hkept : x ∈ left ∨ x = v → x ≠ a := by
    rintro (hx | rfl) rfl
    · exact irrefl _ (Trans.trans (hlv x hx) hva)
    · exact irrefl _ hva
  rw [List.mem_append, List.mem_append, List.mem_cons, List.mem_cons, hdel.mem_iff]
  tauto

/-- Deleting `v` itself with one side empty. -/
theorem deletes_join (h : (left ++ v :: right).Pairwise (· < ·)) :
    Deletes v (left ++ v :: right) (left ++ right) := by
  obtain ⟨hleft, hright, hlv, hvr⟩ := pairwise_node_iff.mp h
  refine ⟨List.pairwise_append.mpr ⟨hleft, hright, fun x hx y hy => Trans.trans (hlv x hx) (hvr y hy)⟩, ?_⟩
  intro x
  have hkept : x ∈ left ∨ x ∈ right → x ≠ v := by
    rintro (hx | hx) rfl
    · exact irrefl _ (hlv x hx)
    · exact irrefl _ (hvr x hx)
  rw [List.mem_append, List.mem_append, List.mem_cons]
  tauto

/-- Deleting `v` by putting the least element of the right side in its place. -/
theorem deletes_replace {m : α} (h : (left ++ v :: right).Pairwise (· < ·)) (hm : right.head? = some m)
    (hdel : Deletes m right ys) : Deletes v (left ++ v :: right) (left ++ m :: ys) := by
  have hjoin := deletes_join h
  cases right with
  | nil => cases hm
  | cons x right =>
    obtain rfl : x = m := by simpa using hm
    obtain ⟨hleft, hright, hlx, hxr⟩ := pairwise_node_iff.mp hjoin.sorted
    have hys : ∀ y, y ∈ ys ↔ y ∈ right := by
      intro y
      rw [hdel.mem_iff, List.mem_cons]
      have hne : y ∈ right → y ≠ x := by
        rintro hy rfl
        exact irrefl _ (hxr y hy)
      tauto
    refine ⟨pairwise_node_iff.mpr ⟨hleft, hdel.sorted, hlx, fun y hy => hxr y ((hys y).mp hy)⟩, ?_⟩
    intro y
    rw [← hjoin.mem_iff, List.mem_append, List.mem_append, List.mem_cons, List.mem_cons, hys]

end Order

end clib.sorted_set
