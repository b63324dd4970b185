import Mathlib.Data.List.Induction
import Mathlib.Data.List.TakeWhile
import CSystems.Lib.LinkedList

namespace clib.heap

variable {next next' : Nat → Option (Option Nat)} {q r : Option Nat} {a b : Nat} {xs ys zs : List Nat}

/-- The cells visited by following the links from a pointer to null. Unlike the
cells of a list, those of a path may lie on other paths too. -/
def Path (next : Nat → Option (Option Nat)) : Option Nat → List Nat → Prop
  | q, [] => q = none
  | q, a :: xs => q = some a ∧ ∃ r, next a = some r ∧ Path next r xs

/-- The walk from a pointer, of at most `fuel` cells. -/
def walk (next : Nat → Option (Option Nat)) : Nat → Option Nat → List Nat
  | 0, _ => []
  | _ + 1, none => []
  | fuel + 1, some a => a :: walk next fuel (next a).join

theorem Path.walk_eq (h : Path next q xs) {fuel : Nat} (hfuel : xs.length < fuel) : walk next fuel q = xs := by
  induction xs generalizing q fuel with
  | nil =>
    obtain ⟨fuel, rfl⟩ : ∃ k, fuel = k + 1 := ⟨fuel - 1, by omega⟩
    rw [show q = none from h]
    rfl
  | cons a xs ih =>
    obtain ⟨fuel, rfl⟩ : ∃ k, fuel = k + 1 := ⟨fuel - 1, by simp at hfuel; omega⟩
    obtain ⟨rfl, r, hnext, hpath⟩ := h
    rw [walk, hnext, Option.join_some, ih hpath (by simpa using hfuel)]

theorem Path.unique (h : Path next q xs) (h' : Path next q ys) : xs = ys := by
  have hxs := h.walk_eq (Nat.lt_add_right ys.length (Nat.lt_succ_self xs.length))
  have hys := h'.walk_eq (show ys.length < xs.length.succ + ys.length by omega)
  rw [← hxs, hys]

/-- The rest of a path is the path from there. -/
theorem Path.drop (h : Path next q (xs ++ a :: ys)) : Path next (some a) (a :: ys) := by
  induction xs generalizing q with
  | nil =>
    obtain ⟨rfl, hrest⟩ := h
    exact ⟨rfl, hrest⟩
  | cons x xs ih =>
    obtain ⟨-, r, -, hpath⟩ := h
    exact ih hpath

/-- What is linked to a cell of a path. -/
theorem Path.next_of_mem (h : Path next q xs) (ha : a ∈ xs) :
    ∃ front rest r, xs = front ++ a :: rest ∧ a ∉ front ∧ next a = some r ∧ Path next r rest := by
  obtain ⟨front, rest, rfl, hfront⟩ := List.eq_append_cons_of_mem ha
  obtain ⟨-, r, hnext, hpath⟩ := h.drop
  exact ⟨front, rest, r, rfl, hfront, hnext, hpath⟩

theorem Path.nodup (h : Path next q xs) : xs.Nodup := by
  induction xs generalizing q with
  | nil => exact List.nodup_nil
  | cons a xs ih =>
    have hfirst : Path next (some a) (a :: xs) := by
      obtain ⟨rfl, hrest⟩ := h
      exact ⟨rfl, hrest⟩
    obtain ⟨-, r, -, hpath⟩ := h
    refine List.nodup_cons.mpr ⟨?_, ih hpath⟩
    intro ha
    obtain ⟨front, rest, rfl⟩ := List.append_of_mem ha
    have hsame := hfirst.unique hpath.drop
    have hlength := congrArg List.length hsame
    simp at hlength
    omega

/-- Links off the path do not matter. -/
theorem Path.congr (h : Path next q xs) (hsame : ∀ a ∈ xs, next' a = next a) : Path next' q xs := by
  induction xs generalizing q with
  | nil => exact h
  | cons a xs ih =>
    obtain ⟨rfl, r, hnext, hpath⟩ := h
    exact ⟨rfl, r, (hsame a (by simp)).trans hnext, ih hpath fun b hb => hsame b (by simp [hb])⟩

/-- A path whose link at `a` is redirected continues on the path from there. -/
theorem Path.redirect (h : Path next q (xs ++ a :: ys)) (hsame : ∀ b ∈ xs, next' b = next b)
    (hnext : next' a = some r) (hpath : Path next' r zs) : Path next' q (xs ++ a :: zs) := by
  induction xs generalizing q with
  | nil =>
    obtain ⟨rfl, -⟩ := h
    exact ⟨rfl, r, hnext, hpath⟩
  | cons x xs ih =>
    obtain ⟨rfl, r', hx, hrest⟩ := h
    exact ⟨rfl, r', (hsame x (by simp)).trans hx, ih hrest fun b hb => hsame b (by simp [hb])⟩

theorem Chain.path (h : Chain next q xs) : Path next q xs := by
  induction xs generalizing q with
  | nil => exact h.head_eq
  | cons a xs ih => exact ⟨h.head_eq, xs.head?, h.tail.1, ih h.tail.2⟩

theorem Path.chain (h : Path next q xs) : Chain next q xs := by
  refine ⟨h.nodup, ?_, ?_⟩
  · cases xs with
    | nil => exact h
    | cons a xs => exact h.1
  · have hnodup := h.nodup
    induction xs generalizing q with
    | nil => simp
    | cons a xs ih =>
      obtain ⟨-, r, hnext, hpath⟩ := h
      obtain ⟨ha, hnodup⟩ := List.nodup_cons.mp hnodup
      have hhead : r = xs.head? := by
        cases xs with
        | nil => exact hpath
        | cons b xs => exact hpath.1
      intro b hb
      obtain rfl | hb := List.mem_cons.mp hb
      · rw [hnext, succ, if_pos rfl, hhead]
      · have hba : b ≠ a := fun heq => ha (heq ▸ hb)
        rw [succ, if_neg hba]
        exact ih hpath hnodup b hb

private theorem takeWhile_ne_append {front rest : List Nat} (ha : a ∉ front) :
    (front ++ a :: rest).takeWhile (· ≠ a) = front := by
  rw [List.takeWhile_append_of_pos]
  · simp
  · intro b hb
    have hne : b ≠ a := fun heq => ha (heq ▸ hb)
    simpa using hne

private theorem takeWhile_ne_self (ha : a ∉ xs) : xs.takeWhile (· ≠ a) = xs := by
  refine List.takeWhile_eq_self_iff.mpr fun b hb => ?_
  have hne : b ≠ a := fun heq => ha (heq ▸ hb)
  simpa using hne

section Relink

/-! Redirecting two links: `p` skips `n`, and `n` leads to where `h` leads. -/

variable {p n : Nat} {s h : Option Nat} {ts : List Nat}

theorem Path.relink_rest (hself : next n = some s) (hrest : Path next s ys) (hp : p ∉ ys)
    (hsame : ∀ b, b ≠ p → b ≠ n → next' b = next b) : Path next' s ys := by
  have hpath : Path next (some n) (n :: ys) := ⟨rfl, s, hself, hrest⟩
  have hn := (List.nodup_cons.mp hpath.nodup).1
  refine hrest.congr fun b hb => hsame b ?_ ?_
  · rintro rfl
    exact hp hb
  · rintro rfl
    exact hn hb

theorem Path.relink_head (hrest : Path next' s ys) (hhead : Path next h zs)
    (hn : n ∉ zs.takeWhile (· ≠ p)) (hlink : next' p = some s) (hsame : ∀ b, b ≠ p → b ≠ n → next' b = next b) :
    ∃ ws, Path next' h ws ∧ (∀ a ∈ ws, a ∈ zs ∨ a ∈ ys) ∧ (p ∈ zs → ys ⊆ ws) ∧ (p ∉ zs → ws = zs) := by
  by_cases hp : p ∈ zs
  · obtain ⟨front, rest, r, rfl, hfront, -, -⟩ := hhead.next_of_mem hp
    rw [takeWhile_ne_append hfront] at hn
    refine ⟨front ++ p :: ys, ?_, ?_, fun _ => by simp, fun hnot => absurd hp hnot⟩
    · refine hhead.redirect (fun b hb => hsame b ?_ ?_) hlink hrest
      · rintro rfl
        exact hfront hb
      · rintro rfl
        exact hn hb
    · intro a ha
      simp only [List.mem_append, List.mem_cons] at ha ⊢
      grind
  · rw [takeWhile_ne_self hp] at hn
    refine ⟨zs, hhead.congr fun b hb => hsame b ?_ ?_, fun a ha => Or.inl ha, fun h => absurd h hp, fun _ => rfl⟩
    · rintro rfl
      exact hp hb
    · rintro rfl
      exact hn hb

/-- A path after the redirection, and what is still on it. -/
theorem Path.relink (h : Path next q xs) {s head : Option Nat} (hself : next n = some s) (hrest : Path next s ys)
    (hp : p ∉ ys) (hafter : ∃ r, next p = some r ∧ Path next r ts) (hhead : Path next head zs)
    (hn : n ∉ zs.takeWhile (· ≠ p)) (hlink : next' p = some s) (hlink' : next' n = some head)
    (hsame : ∀ b, b ≠ p → b ≠ n → next' b = next b) :
    ∃ xs', Path next' q xs' ∧ (∀ a ∈ xs', a ∈ xs ∨ a ∈ ys ∨ a ∈ zs) ∧
      ∀ a ∈ xs, (p ∈ xs → a ∈ ts → a ∈ ys) → (n ∈ xs → p ∉ xs → a ∈ ys → p ∈ zs ∨ a ∈ zs) → a ∈ xs' := by
  have hrest' := hrest.relink_rest hself hp hsame
  by_cases hpx : p ∈ xs
  · obtain ⟨front, rest, r, rfl, hfront, hnext, hpath⟩ := h.next_of_mem hpx
    obtain ⟨r', hnext', hafter⟩ := hafter
    obtain rfl : r = r' := Option.some.inj (hnext.symm.trans hnext')
    obtain rfl := hpath.unique hafter
    have hnfront : n ∉ front := by
      intro hmem
      obtain ⟨front', rest', rfl⟩ := List.append_of_mem hmem
      rw [List.append_assoc, List.cons_append] at h
      obtain ⟨-, r', hr', hpath'⟩ := h.drop
      obtain rfl : s = r' := Option.some.inj (hself.symm.trans hr')
      exact hp (hrest.unique hpath' ▸ by simp)
    refine ⟨front ++ p :: ys, ?_, ?_, ?_⟩
    · refine h.redirect (fun b hb => hsame b ?_ ?_) hlink hrest'
      · rintro rfl
        exact hfront hb
      · rintro rfl
        exact hnfront hb
    · intro a ha
      simp only [List.mem_append, List.mem_cons] at ha ⊢
      grind
    · intro a ha hlost _
      have hys := hlost hpx
      simp only [List.mem_append, List.mem_cons] at ha ⊢
      grind
  · have hne : ∀ b ∈ xs, b ≠ p := fun b hb heq => hpx (heq ▸ hb)
    by_cases hnx : n ∈ xs
    · obtain ⟨front, rest, r, rfl, hfront, hnext, hpath⟩ := h.next_of_mem hnx
      obtain rfl : s = r := Option.some.inj (hself.symm.trans hnext)
      obtain rfl := hpath.unique hrest
      obtain ⟨ws, hws, hsub, hcover, hkept⟩ := hrest'.relink_head hhead hn hlink hsame
      refine ⟨front ++ n :: ws, ?_, ?_, ?_⟩
      · refine h.redirect (fun b hb => hsame b (hne b (by simp [hb])) ?_) hlink' hws
        rintro rfl
        exact hfront hb
      · intro a ha
        simp only [List.mem_append, List.mem_cons] at ha ⊢
        obtain ha | rfl | ha := ha
        · grind
        · grind
        · have hmem := hsub a ha
          grind
      · intro a ha _ hlost
        simp only [List.mem_append, List.mem_cons] at ha ⊢
        obtain ha | rfl | ha := ha
        · exact Or.inl ha
        · exact Or.inr (Or.inl rfl)
        · refine Or.inr (Or.inr ?_)
          by_cases hpz : p ∈ zs
          · exact hcover hpz ha
          · rw [hkept hpz]
            exact (hlost hnx hpx ha).resolve_left hpz
    · refine ⟨xs, h.congr fun b hb => hsame b (hne b hb) ?_, fun a ha => Or.inl ha, fun a ha _ _ => ha⟩
      rintro rfl
      exact hnx hb

/-- A path cut after `p`, when `n` is gone. -/
theorem Path.cut (h : Path next q xs) (hn : n ∉ xs.takeWhile (· ≠ p)) (hpn : p ≠ n)
    (hafter : ∃ r, next p = some r ∧ Path next r ts) (hlink : next' p = some none)
    (hsame : ∀ b, b ≠ p → b ≠ n → next' b = next b) :
    ∃ xs', Path next' q xs' ∧ (∀ a ∈ xs', a ∈ xs ∧ a ≠ n) ∧ ∀ a ∈ xs, (p ∈ xs → a ∉ ts) → a ∈ xs' := by
  by_cases hpx : p ∈ xs
  · obtain ⟨front, rest, r, rfl, hfront, hnext, hpath⟩ := h.next_of_mem hpx
    obtain ⟨r', hnext', hafter⟩ := hafter
    obtain rfl : r = r' := Option.some.inj (hnext.symm.trans hnext')
    obtain rfl := hpath.unique hafter
    rw [takeWhile_ne_append hfront] at hn
    refine ⟨front ++ [p], ?_, ?_, ?_⟩
    · refine h.redirect (fun b hb => hsame b ?_ ?_) hlink rfl
      · rintro rfl
        exact hfront hb
      · rintro rfl
        exact hn hb
    · intro a ha
      simp only [List.mem_append, List.mem_cons, List.not_mem_nil, or_false] at ha ⊢
      obtain ha | rfl := ha
      · exact ⟨Or.inl ha, fun heq => hn (heq ▸ ha)⟩
      · exact ⟨Or.inr (Or.inl rfl), hpn⟩
    · intro a ha hlost
      have hnot := hlost hpx
      simp only [List.mem_append, List.mem_cons] at ha ⊢
      grind
  · rw [takeWhile_ne_self hpx] at hn
    refine ⟨xs, h.congr fun b hb => hsame b ?_ ?_, fun a ha => ⟨ha, fun heq => hn (heq ▸ ha)⟩, fun a ha _ => ha⟩
    · rintro rfl
      exact hpx hb
    · rintro rfl
      exact hn hb

end Relink

/-- The backward links lead from the tail to the head. -/
theorem Back.path {prev : Nat → Option (Option Nat)} {head tail : Option Nat} {xs : List Nat}
    (h : Back prev head tail xs) : Path prev tail xs.reverse := by
  induction xs using List.reverseRecOn generalizing head tail with
  | nil => exact h.tail_eq
  | append_singleton xs a ih =>
    have ha : a ∉ xs := fun hmem => List.disjoint_of_nodup_append h.nodup hmem (by simp)
    have htail : tail = some a := by rw [h.tail_eq]; simp
    have hlast : succ (xs ++ [a]) a = none := by
      rw [succ_eq_none_iff h.nodup (by simp)]
      simp
    have herase : (xs ++ [a]).erase a = xs := by rw [List.erase_append_right _ ha]; simp
    have hunlink := h.unlink (a := a) (fun b _ _ => by rw [hlast, if_neg (by simp)])
    rw [herase, if_pos htail] at hunlink
    rw [List.reverse_append, List.reverse_singleton]
    exact ⟨htail, _, h.prev_eq a (by simp), ih hunlink⟩

end clib.heap
