import Mathlib.Data.List.Perm.Basic

namespace clib.grouping

variable {α κ : Type} {key : α → κ} {xs : List α} {groups groups' : List (κ × List α)} {x : α} {ys : List α}

/-- The elements `xs` in groups: each group is of one key and holds an element, and
no two groups are of the same key. -/
structure Grouped (key : α → κ) (xs : List α) (groups : List (κ × List α)) : Prop where
  keys : (groups.map Prod.fst).Nodup
  inhabited : ∀ g ∈ groups, g.2 ≠ []
  keyed : ∀ g ∈ groups, ∀ x ∈ g.2, key x = g.1
  members : (groups.flatMap Prod.snd).Perm xs

theorem grouped_nil : Grouped key [] [] := ⟨List.nodup_nil, by simp, by simp, .nil⟩

theorem Grouped.of_perm (h : Grouped key xs groups) (hperm : groups'.Perm groups) : Grouped key xs groups' := by
  refine ⟨(hperm.map Prod.fst).nodup_iff.mpr h.keys, ?_, ?_, (hperm.flatMap_right Prod.snd).trans h.members⟩
  · exact fun g hg => h.inhabited g (hperm.mem_iff.mp hg)
  · exact fun g hg => h.keyed g (hperm.mem_iff.mp hg)

/-- An element is added to the group of its key. -/
theorem Grouped.add (h : Grouped key xs ((key x, ys) :: groups)) :
    Grouped key (x :: xs) ((key x, x :: ys) :: groups) := by
  refine ⟨h.keys, ?_, ?_, h.members.cons x⟩
  · intro g hg
    obtain rfl | hg := List.mem_cons.mp hg
    · exact List.cons_ne_nil x ys
    · exact h.inhabited g (List.mem_cons_of_mem _ hg)
  · intro g hg y hy
    obtain rfl | hg := List.mem_cons.mp hg
    · obtain rfl | hy := List.mem_cons.mp hy
      · rfl
      · exact h.keyed _ List.mem_cons_self y hy
    · exact h.keyed g (List.mem_cons_of_mem _ hg) y hy

/-- An element of a new key gets a group of its own. -/
theorem Grouped.push (h : Grouped key xs groups) (hnew : key x ∉ groups.map Prod.fst) :
    Grouped key (x :: xs) ((key x, [x]) :: groups) := by
  refine ⟨List.nodup_cons.mpr ⟨hnew, h.keys⟩, ?_, ?_, h.members.cons x⟩
  · intro g hg
    obtain rfl | hg := List.mem_cons.mp hg
    · exact List.cons_ne_nil x []
    · exact h.inhabited g hg
  · intro g hg y hy
    obtain rfl | hg := List.mem_cons.mp hg
    · rw [List.mem_singleton.mp hy]
    · exact h.keyed g hg y hy

/-- The key of a group is the key of one of the elements. -/
theorem Grouped.exists_key (h : Grouped key xs groups) {g : κ × List α} (hg : g ∈ groups) :
    ∃ x ∈ xs, key x = g.1 := by
  obtain ⟨x, hx⟩ := List.exists_mem_of_ne_nil _ (h.inhabited g hg)
  exact ⟨x, h.members.mem_iff.mp (List.mem_flatMap.mpr ⟨g, hg, hx⟩), h.keyed g hg x hx⟩

/-- Elements of different groups have different keys. -/
theorem Grouped.apart (h : Grouped key xs groups) :
    groups.Pairwise fun g g' => ∀ x ∈ g.2, ∀ y ∈ g'.2, key x ≠ key y := by
  have hkeys : groups.Pairwise fun g g' => g.1 ≠ g'.1 := List.pairwise_map.mp h.keys
  refine hkeys.imp_of_mem ?_
  intro g g' hg hg' hne x hx y hy
  rwa [h.keyed g hg x hx, h.keyed g' hg' y hy]

end clib.grouping
