import Mathlib.Data.List.Basic

namespace clib.row

/-- Children with a separator between every two of them. -/
structure Row (κ τ : Type) where
  head : τ
  entries : List (κ × τ)

/-- A row seen from one of its children. -/
structure Zipper (κ τ : Type) where
  pre : List (τ × κ)
  focus : τ
  post : List (κ × τ)

variable {κ τ α : Type}

namespace Row

def keys (row : Row κ τ) : List κ := row.entries.map Prod.fst

def children (row : Row κ τ) : List τ := row.head :: row.entries.map Prod.snd

/-- What the children and the separators list, from left to right. -/
def fold (s : κ → List α) (g : τ → List α) (row : Row κ τ) : List α :=
  g row.head ++ row.entries.flatMap fun e => s e.1 ++ g e.2

theorem fold_of_entries {row : Row κ τ} {xs ys : List (κ × τ)} {k : κ} {c : τ} (h : row.entries = xs ++ (k, c) :: ys)
    (s : κ → List α) (g : τ → List α) :
    row.fold s g = fold s g { head := row.head, entries := xs } ++ s k ++ fold s g { head := c, entries := ys } := by
  simp [fold, h]

/-- The keys of a row that is cut in two. -/
theorem keys_of_entries {row : Row κ τ} {xs ys : List (κ × τ)} {k : κ} {c : τ} (h : row.entries = xs ++ (k, c) :: ys) :
    row.keys.take xs.length = keys { head := row.head, entries := xs } ∧ row.keys[xs.length]? = some k ∧
      row.keys.drop (xs.length + 1) = keys { head := c, entries := ys } := by
  have hlength : xs.length = (xs.map Prod.fst).length := by simp
  rw [keys, h, List.map_append, List.map_cons, hlength]
  refine ⟨List.take_left, by simp, ?_⟩
  rw [List.drop_length_add_append]
  rfl

theorem children_of_entries {row : Row κ τ} {xs ys : List (κ × τ)} {k : κ} {c : τ}
    (h : row.entries = xs ++ (k, c) :: ys) :
    row.children = children { head := row.head, entries := xs } ++ children { head := c, entries := ys } := by
  simp [children, h]

theorem sublist_fold_of_mem_children {row : Row κ τ} {c : τ} (hc : c ∈ row.children) (s : κ → List α)
    (g : τ → List α) : (g c).Sublist (row.fold s g) := by
  rcases List.mem_cons.mp hc with rfl | hc
  · exact List.sublist_append_left _ _
  · obtain ⟨e, he, rfl⟩ := List.mem_map.mp hc
    have hblock : (s e.1 ++ g e.2).Sublist (row.entries.flatMap fun e => s e.1 ++ g e.2) := by
      rw [List.flatMap_def]
      exact List.sublist_flatten_of_mem (List.mem_map.mpr ⟨e, he, rfl⟩)
    exact ((List.sublist_append_right _ _).trans hblock).trans (List.sublist_append_right _ _)

theorem fold_sublist {row : Row κ τ} {s s' : κ → List α} {f g : τ → List α} (hs : ∀ k, (s k).Sublist (s' k))
    (hf : ∀ c, (f c).Sublist (g c)) : (row.fold s f).Sublist (row.fold s' g) := by
  refine (hf row.head).append ?_
  induction row.entries with
  | nil => exact List.Sublist.refl _
  | cons e entries ih =>
    rw [List.flatMap_cons, List.flatMap_cons]
    exact ((hs e.1).append (hf e.2)).append ih

/-- Without the separators, a row lists what its children list. -/
theorem fold_nil (row : Row κ τ) (g : τ → List α) : row.fold (fun _ => []) g = row.children.flatMap g := by
  simp [fold, children, List.flatMap_map]

theorem length_children (row : Row κ τ) : row.children.length = row.keys.length + 1 := by
  simp [children, keys]

end Row

/-- The row with the given children and separators around a child. -/
def join : List (τ × κ) → τ → List (κ × τ) → Row κ τ
  | [], t, post => { head := t, entries := post }
  | (c, k) :: pre, t, post => { head := c, entries := (k, (join pre t post).head) :: (join pre t post).entries }

section Join

variable (pre : List (τ × κ)) (t : τ) (post : List (κ × τ))

@[simp] theorem keys_join : (join pre t post).keys = pre.map Prod.snd ++ post.map Prod.fst := by
  induction pre with
  | nil => rfl
  | cons e pre ih =>
    unfold Row.keys at ih
    rw [Row.keys, join, List.map_cons, ih]
    rfl

@[simp] theorem children_join : (join pre t post).children = pre.map Prod.fst ++ t :: post.map Prod.snd := by
  induction pre with
  | nil => rfl
  | cons e pre ih =>
    unfold Row.children at ih
    rw [Row.children, join, List.map_cons, ih]
    rfl

theorem fold_join (s : κ → List α) (g : τ → List α) :
    (join pre t post).fold s g =
      (pre.flatMap fun e => g e.1 ++ s e.2) ++ g t ++ post.flatMap fun e => s e.1 ++ g e.2 := by
  induction pre with
  | nil => rfl
  | cons e pre ih =>
    unfold Row.fold at ih
    rw [Row.fold, join, List.flatMap_cons, List.flatMap_cons, List.append_assoc, List.append_assoc (g e.1), ih]
    simp

end Join

/-- A separator stands between two children. -/
theorem exists_join_of_getElem_keys {row : Row κ τ} {i : Nat} {k : κ} (h : row.keys[i]? = some k) :
    ∃ pre c d post, row = join pre c ((k, d) :: post) ∧ pre.length = i := by
  obtain ⟨head, entries⟩ := row
  induction entries generalizing head i with
  | nil => simp [Row.keys] at h
  | cons e entries ih =>
    cases i with
    | zero =>
      obtain rfl : e.1 = k := by simpa [Row.keys] using h
      exact ⟨[], head, e.2, entries, rfl, rfl⟩
    | succ i =>
      obtain ⟨pre, c, d, post, hrow, hlength⟩ := ih e.2 (by simpa [Row.keys] using h)
      refine ⟨(head, e.1) :: pre, c, d, post, ?_, by simp [hlength]⟩
      rw [join, ← hrow]

/-- The first child whose separator fails the test, or the last child. -/
def locate (p : κ → Bool) : τ → List (κ × τ) → Zipper κ τ
  | t, [] => { pre := [], focus := t, post := [] }
  | t, (k, c) :: entries =>
    if p k then
      let z := locate p c entries
      { pre := (t, k) :: z.pre, focus := z.focus, post := z.post }
    else { pre := [], focus := t, post := (k, c) :: entries }

section Locate

variable (p : κ → Bool) (t : τ) (entries : List (κ × τ))

theorem join_locate :
    join (locate p t entries).pre (locate p t entries).focus (locate p t entries).post =
      { head := t, entries := entries } := by
  induction entries generalizing t with
  | nil => rfl
  | cons e entries ih =>
    rw [locate]
    split
    · dsimp only
      rw [join, ih]
    · rfl

/-- The separators before the child pass the test. -/
theorem locate_pre : ∀ e ∈ (locate p t entries).pre, p e.2 = true := by
  induction entries generalizing t with
  | nil => simp [locate]
  | cons e entries ih =>
    rw [locate]
    split
    · next hp =>
      intro x hx
      rcases List.mem_cons.mp hx with rfl | hx
      · exact hp
      · exact ih e.2 x hx
    · simp

/-- The separator after the child fails the test. -/
theorem locate_post : ∀ e ∈ (locate p t entries).post.head?, p e.1 = false := by
  induction entries generalizing t with
  | nil => simp [locate]
  | cons e entries ih =>
    rw [locate]
    split
    · exact ih e.2
    · next hp =>
      intro x hx
      obtain rfl : e = x := by simpa using hx
      simpa using hp

end Locate

end clib.row
