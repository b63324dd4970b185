import Mathlib.Data.List.Basic
import Mathlib.Data.List.Induction
import Mathlib.Data.List.InsertIdx

namespace clib.array

/-- A C array. A slot that was never written holds `none`. -/
abbrev Slots (α : Type) := List (Option α)

section Loops

variable {σ τ : Type}

/-- The loop `for (j = 0; j < n; j++)`. -/
def for_up (body : Nat → σ → Option σ) : Nat → σ → Option σ
  | 0, s => some s
  | n + 1, s => do
    let s ← for_up body n s
    body n s

/-- The loop `for (j = i + n; j > i; j--)`. -/
def for_down (body : Nat → σ → Option σ) (i : Nat) : Nat → σ → Option σ
  | 0, s => some s
  | n + 1, s => do
    let s ← body (i + n + 1) s
    for_down body i n s

/-- One body after the other, on separate variables. -/
def both (f : Nat → σ → Option σ) (g : Nat → τ → Option τ) (j : Nat) (s : σ × τ) : Option (σ × τ) := do
  let a ← f j s.1
  let b ← g j s.2
  some (a, b)

variable {f : Nat → σ → Option σ} {g : Nat → τ → Option τ} {n i : Nat}

theorem for_up_both {a a' : σ} {b b' : τ} (hf : for_up f n a = some a') (hg : for_up g n b = some b') :
    for_up (both f g) n (a, b) = some (a', b') := by
  induction n generalizing a' b' with
  | zero =>
    cases hf
    cases hg
    rfl
  | succ n ih =>
    simp only [for_up, Option.bind_eq_bind, Option.bind_eq_some_iff] at hf hg ⊢
    obtain ⟨x, hx, hfx⟩ := hf
    obtain ⟨y, hy, hgy⟩ := hg
    exact ⟨(x, y), ih hx hy, by simp [both, hfx, hgy]⟩

theorem for_down_both {a a' : σ} {b b' : τ} (hf : for_down f i n a = some a') (hg : for_down g i n b = some b') :
    for_down (both f g) i n (a, b) = some (a', b') := by
  induction n generalizing a b with
  | zero =>
    cases hf
    cases hg
    rfl
  | succ n ih =>
    simp only [for_down, Option.bind_eq_bind, Option.bind_eq_some_iff] at hf hg ⊢
    obtain ⟨x, hfx, hx⟩ := hf
    obtain ⟨y, hgy, hy⟩ := hg
    exact ⟨(x, y), by simp [both, hfx, hgy], ih hx hy⟩

/-- A loop with a body that fails at some index fails. -/
theorem for_up_eq_none {j : Nat} (hj : j < n) (hfail : ∀ s, f j s = none) (s : σ) : for_up f n s = none := by
  induction n with
  | zero => omega
  | succ n ih =>
    rw [for_up]
    by_cases heq : j = n
    · subst heq
      simp only [hfail, Option.bind_eq_bind, Option.bind_fun_none]
    · rw [ih (by omega)]
      rfl

theorem for_down_eq_none {j : Nat} (hlow : i < j) (hhigh : j ≤ i + n) (hfail : ∀ s, f j s = none) (s : σ) :
    for_down f i n s = none := by
  induction n generalizing s with
  | zero => omega
  | succ n ih =>
    rw [for_down]
    by_cases heq : j = i + n + 1
    · subst heq
      rw [hfail]
      rfl
    · have hrest := ih (by omega)
      simp only [hrest, Option.bind_eq_bind, Option.bind_fun_none]

variable {α : Type} {step : σ → α → Option σ}

/-- A loop over a list fails if some element fails in every state. -/
theorem foldlM_eq_none {xs : List α} {x : α} (hx : x ∈ xs) (hfail : ∀ s, step s x = none) (s : σ) :
    xs.foldlM step s = none := by
  induction xs generalizing s with
  | nil => cases hx
  | cons y xs ih =>
    rw [List.foldlM_cons]
    obtain rfl | hx := List.mem_cons.mp hx
    · rw [hfail]
      rfl
    · simp only [ih hx, Option.bind_eq_bind, Option.bind_fun_none]

/-- Two nested loops run over all elements. -/
theorem foldlM_nested (xss : List (List α)) (s : σ) :
    xss.foldlM (fun s xs => xs.foldlM step s) s = xss.flatten.foldlM step s := by
  induction xss generalizing s with
  | nil => rfl
  | cons xs xss ih =>
    rw [List.foldlM_cons, List.flatten_cons, List.foldlM_append]
    exact bind_congr fun s => ih s

end Loops

variable {α : Type}

/-- An array declared without an initialiser. -/
def uninit (n : Nat) : Slots α := List.replicate n none

/-- `a[i]`; `none` out of bounds and for a slot that was never written. -/
def read (a : Slots α) (i : Nat) : Option α := a[i]?.join

/-- `a[i] = v`; `none` out of bounds. -/
def write (a : Slots α) (i : Nat) (v : α) : Option (Slots α) :=
  if i < a.length then some (a.set i (some v)) else none

/-- The body `dst[j] = src[s + j]`. -/
def copy (src : Slots α) (s j : Nat) (dst : Slots α) : Option (Slots α) := do
  let v ← read src (s + j)
  write dst j v

/-- The body `a[o + j] = a[o + j - 1]`. -/
def shift (o j : Nat) (a : Slots α) : Option (Slots α) := do
  let v ← read a (o + j - 1)
  write a (o + j) v

/-- An array of length `n` whose first slots hold `xs`. -/
structure Holds (a : Slots α) (n : Nat) (xs : List α) : Prop where
  length : a.length = n
  slot : ∀ (i : Nat) (x : α), xs[i]? = some x → a[i]? = some (some x)

/-- An array of length `n` whose first slots hold `xs`, but for a gap at `i`. -/
structure Gap (a : Slots α) (n : Nat) (xs : List α) (i : Nat) : Prop where
  length : a.length = n
  room : xs.length < n
  below : ∀ (m : Nat) (x : α), m < i → xs[m]? = some x → a[m]? = some (some x)
  above : ∀ (m : Nat) (x : α), i ≤ m → xs[m]? = some x → a[m + 1]? = some (some x)

/-- The slots from `s` on hold `xs`. -/
def Reads (a : Slots α) (s : Nat) (xs : List α) : Prop := ∀ i, i < xs.length → read a (s + i) = xs[i]?

variable {a src dst : Slots α} {n N i : Nat} {xs ys : List α} {v : α}

@[simp] theorem length_uninit (n : Nat) : (uninit n : Slots α).length = n := List.length_replicate

theorem read_map_some (xs : List α) (i : Nat) : read (xs.map some) i = xs[i]? := by
  rw [read, List.getElem?_map]
  cases xs[i]? <;> rfl

theorem write_map_some {xs : List α} (hi : i < xs.length) (v : α) :
    write (xs.map some) i v = some ((xs.set i v).map some) := by
  rw [write, if_pos (by rw [List.length_map]; exact hi), List.map_set]

theorem holds_nil (ha : a.length = n) : Holds a n [] := ⟨ha, by simp⟩

namespace Holds

theorem length_le (h : Holds a n xs) : xs.length ≤ n := by
  by_contra hlt
  have hget := h.slot n _ (List.getElem?_eq_getElem (by omega))
  rw [List.getElem?_eq_none (Nat.le_of_eq h.length)] at hget
  cases hget

theorem read_eq (h : Holds a n xs) (hx : xs[i]? = some v) : read a i = some v := by
  simp [read, h.slot i v hx]

/-- All slots are written. -/
theorem eq_map (h : Holds a xs.length xs) : a = xs.map some := by
  apply List.ext_getElem?
  intro i
  by_cases hi : i < xs.length
  · rw [h.slot i _ (List.getElem?_eq_getElem hi), List.getElem?_map, List.getElem?_eq_getElem hi, Option.map_some]
  · rw [List.getElem?_eq_none (by rw [h.length]; omega),
      List.getElem?_eq_none (by rw [List.length_map]; omega)]

/-- Reading the first `m` slots. -/
theorem mapM_read (h : Holds a n xs) {m : Nat} (hm : m ≤ xs.length) :
    (List.range m).mapM (read a) = some (xs.take m) := by
  induction m with
  | zero => simp
  | succ m ih =>
    have hget := List.getElem?_eq_getElem (Nat.lt_of_succ_le hm)
    rw [List.range_succ, List.mapM_append, ih (by omega), List.take_add_one, hget]
    simp [h.read_eq hget]

/-- Writing behind the first slots. -/
theorem write_end (h : Holds a n xs) (hroom : xs.length < n) (v : α) :
    ∃ a', write a xs.length v = some a' ∧ Holds a' n (xs ++ [v]) := by
  refine ⟨a.set xs.length (some v), ?_, by simp [h.length], ?_⟩
  · rw [write, if_pos (by rw [h.length]; exact hroom)]
  · intro i x hx
    rw [List.getElem?_set]
    split
    · next heq =>
      subst heq
      rw [List.getElem?_concat_length] at hx
      rw [if_pos (by rw [h.length]; exact hroom), hx]
    · next hne =>
      apply h.slot
      rw [List.getElem?_append] at hx
      split at hx
      · exact hx
      · next hge =>
        rw [List.getElem?_eq_none (by simp; omega)] at hx
        cases hx

/-- Copying one more value behind those copied. -/
theorem copy_step (h : Holds src n xs) {s m : Nat} (hm : s + m < xs.length) (hroom : m < N)
    (hdst : Holds dst N ((xs.drop s).take m)) :
    ∃ v dst', read src (s + m) = some v ∧ write dst m v = some dst' ∧ Holds dst' N ((xs.drop s).take (m + 1)) := by
  have hlength : ((xs.drop s).take m).length = m := by
    rw [List.length_take, List.length_drop]
    omega
  have hget := List.getElem?_eq_getElem hm
  obtain ⟨dst', hwrite, hdst'⟩ := hdst.write_end (by omega) xs[s + m]
  rw [hlength] at hwrite
  refine ⟨xs[s + m], dst', h.read_eq hget, hwrite, ?_⟩
  rw [List.take_add_one, List.getElem?_drop, hget]
  exact hdst'

/-- Copying `m` values into the first slots. -/
theorem for_up_copy (h : Holds src n xs) (s m : Nat) (hm : s + m ≤ xs.length) (hdst : dst.length = N) (hroom : m ≤ N) :
    ∃ dst', for_up (copy src s) m dst = some dst' ∧ Holds dst' N ((xs.drop s).take m) := by
  induction m with
  | zero => exact ⟨dst, rfl, holds_nil hdst⟩
  | succ m ih =>
    obtain ⟨dst', hrun, hdst'⟩ := ih (by omega) (by omega)
    obtain ⟨v, dst'', hread, hwrite, hdst''⟩ := h.copy_step (by omega) (by omega) hdst'
    refine ⟨dst'', ?_, hdst''⟩
    simp only [for_up, hrun, copy, hread, hwrite, Option.bind_eq_bind, Option.bind_some]

/-- Behind the last value there is a gap. -/
theorem gap (h : Holds a n xs) (hroom : xs.length < n) : Gap a n xs xs.length := by
  refine ⟨h.length, hroom, ?_, ?_⟩
  · intro m x _ hx
    exact h.slot m x hx
  · intro m x hm hx
    rw [List.getElem?_eq_none hm] at hx
    cases hx

/-- Around a value there is a gap. -/
theorem gap_of_insertIdx (h : Holds a n (xs.insertIdx i v)) (hi : i ≤ xs.length) : Gap a n xs i := by
  have hlength := List.length_insertIdx_of_le_length hi v
  refine ⟨h.length, by have := h.length_le; omega, ?_, ?_⟩
  · intro m x hm hx
    exact h.slot m x (by rw [List.getElem?_insertIdx_of_lt hm, hx])
  · intro m x hm hx
    exact h.slot (m + 1) x (by rw [List.getElem?_insertIdx_of_gt (by omega), Nat.add_sub_cancel, hx])

end Holds

namespace Reads

variable {s : Nat}

theorem head (h : Reads a s (v :: xs)) : read a s = some v := h 0 (by simp)

theorem tail (h : Reads a s (v :: xs)) : Reads a (s + 1) xs := by
  intro i hi
  have hread := h (i + 1) (by simpa using hi)
  rwa [List.getElem?_cons_succ, ← Nat.add_assoc, Nat.add_right_comm] at hread

theorem drop (h : Reads a s xs) {m : Nat} (hm : m ≤ xs.length) : Reads a (s + m) (xs.drop m) := by
  intro i hi
  rw [List.length_drop] at hi
  rw [Nat.add_assoc, h (m + i) (by omega), List.getElem?_drop]

theorem of_append (h : Reads a s (xs ++ ys)) : Reads a s xs := by
  intro i hi
  rw [h i (by rw [List.length_append]; omega), List.getElem?_append_left hi]

theorem last (h : Reads a s (xs ++ [v])) : read a (s + xs.length) = some v := by
  rw [h xs.length (by simp), List.getElem?_concat_length]

/-- Writing behind the slots that are read. -/
theorem write_end (h : Reads a s xs) (hroom : s + xs.length < a.length) (v : α) :
    write a (s + xs.length) v = some (a.set (s + xs.length) (some v)) ∧
      Reads (a.set (s + xs.length) (some v)) s (xs ++ [v]) := by
  refine ⟨if_pos hroom, ?_⟩
  intro i hi
  rw [List.length_append, List.length_singleton] at hi
  by_cases heq : i = xs.length
  · subst heq
    rw [read, List.getElem?_set_self hroom, List.getElem?_concat_length]
    rfl
  · rw [read, List.getElem?_set_ne (by omega), List.getElem?_append_left (by omega)]
    exact h i (by omega)

end Reads

theorem reads_segment (pre xs post : List α) : Reads ((pre ++ xs ++ post).map some) pre.length xs := by
  intro i hi
  rw [read_map_some, List.append_assoc, List.getElem?_append_right (by omega), Nat.add_sub_cancel_left,
    List.getElem?_append_left hi]

namespace Gap

/-- Moving the value below the gap up moves the gap down. -/
theorem step (h : Gap a n xs (i + 1)) (hx : xs[i]? = some v) :
    read a i = some v ∧ ∃ a', write a (i + 1) v = some a' ∧ Gap a' n xs i := by
  obtain ⟨hlt, -⟩ := List.getElem?_eq_some_iff.mp hx
  have hroom := h.room
  have hbound : i + 1 < a.length := by
    rw [h.length]
    omega
  refine ⟨by simp [read, h.below i v (by omega) hx], a.set (i + 1) (some v), ?_, by simp [h.length], hroom, ?_, ?_⟩
  · rw [write, if_pos hbound]
  · intro m x hm hxm
    rw [List.getElem?_set_ne (by omega)]
    exact h.below m x (by omega) hxm
  · intro m x hm hxm
    by_cases heq : i = m
    · subst heq
      rw [List.getElem?_set_self hbound, ← hx, hxm]
    · rw [List.getElem?_set_ne (by omega)]
      exact h.above m x (by omega) hxm

/-- Writing into the gap inserts a value. -/
theorem fill (h : Gap a n xs i) (hi : i ≤ xs.length) (v : α) :
    ∃ a', write a i v = some a' ∧ Holds a' n (xs.insertIdx i v) := by
  have hroom := h.room
  have hbound : i < a.length := by
    rw [h.length]
    omega
  refine ⟨a.set i (some v), ?_, by simp [h.length], ?_⟩
  · rw [write, if_pos hbound]
  · intro m x hx
    rw [List.getElem?_insertIdx] at hx
    rw [List.getElem?_set]
    split at hx
    · next hlt =>
      rw [if_neg (by omega)]
      exact h.below m x hlt hx
    · split at hx
      · next heq =>
        subst heq
        rw [if_pos hi] at hx
        rw [if_pos rfl, if_pos hbound, hx]
      · next hge hne =>
        rw [if_neg (fun heq => hne heq.symm)]
        obtain ⟨m, rfl⟩ : ∃ k, m = k + 1 := ⟨m - 1, by omega⟩
        exact h.above m x (by omega) hx

/-- The loop that makes room for a value at `o + i`. -/
theorem for_down_shift {o d : Nat} (h : Gap a n xs (o + i + d)) (hd : o + i + d ≤ xs.length) :
    ∃ a', for_down (shift o) i d a = some a' ∧ Gap a' n xs (o + i) := by
  induction d generalizing a with
  | zero => exact ⟨a, rfl, h⟩
  | succ d ih =>
    have hlt : o + i + d < xs.length := by omega
    obtain ⟨hread, a', hwrite, hgap⟩ := Gap.step (i := o + i + d) h (List.getElem?_eq_getElem hlt)
    obtain ⟨a'', hrun, hgap'⟩ := ih hgap (by omega)
    refine ⟨a'', ?_, hgap'⟩
    have hsucc : o + (i + d + 1) = o + i + d + 1 := by omega
    simp only [for_down, shift, hsucc, Nat.add_sub_cancel, hread, hwrite, hrun, Option.bind_eq_bind, Option.bind_some]

end Gap

end clib.array

namespace clib.scan

/-- A forward scan that breaks at the first hit returns `i` exactly when `i` is
a hit and no earlier index is. -/
theorem findFinIdx?_eq_some_iff {α : Type} {n : Nat} {xs : Vector α n} {p : α → Bool} {i : Fin n} :
    xs.findFinIdx? p = some i ↔ p (xs.get i) = true ∧ ∀ j : Fin n, j < i → p (xs.get j) = false := by
  obtain ⟨⟨l⟩, hsize⟩ := xs
  simp only [List.size_toArray] at hsize
  subst hsize
  change _ ↔ p l[i.val] = true ∧ ∀ j : Fin l.length, j < i → p l[j.val] = false
  simp [List.findFinIdx?_eq_some_iff]

theorem findFinIdx?_eq_none_iff {α : Type} {n : Nat} {xs : Vector α n} {p : α → Bool} :
    xs.findFinIdx? p = none ↔ ∀ i : Fin n, p (xs.get i) = false := by
  rw [Vector.findFinIdx?_eq_none_iff]
  constructor
  · intro h i
    simpa using h (xs.get i) (Vector.getElem_mem i.isLt)
  · intro h x hx
    obtain ⟨i, hi, rfl⟩ := Vector.getElem_of_mem hx
    have hfalse : p xs[i] = false := h ⟨i, hi⟩
    simpa using hfalse

/-- A scan over all indices for a hit succeeds exactly when some index is one. -/
theorem any_eq_true_iff {α : Type} {n : Nat} {xs : Vector α n} {p : α → Bool} :
    xs.any p = true ↔ ∃ i : Fin n, p (xs.get i) = true := by
  rw [Vector.any_eq_true]
  constructor
  · rintro ⟨i, hi, h⟩
    exact ⟨⟨i, hi⟩, h⟩
  · rintro ⟨i, h⟩
    exact ⟨i.val, i.isLt, h⟩

theorem get_set_fin {α : Type} {n : Nat} (xs : Vector α n) (i j : Fin n) (x : α) :
    (xs.set i.val x i.isLt).get j = if i = j then x else xs.get j := by
  have hget : (xs.set i.val x i.isLt)[j.val] = if i.val = j.val then x else xs[j.val] := Vector.getElem_set ..
  simp only [Fin.ext_iff]
  exact hget

theorem set_get_fin {α : Type} {n : Nat} (xs : Vector α n) (i : Fin n) : xs.set i.val (xs.get i) i.isLt = xs :=
  Vector.set_getElem_self i.isLt

theorem get_map_fin {α β : Type} {n : Nat} (f : α → β) (xs : Vector α n) (i : Fin n) :
    (xs.map f).get i = f (xs.get i) :=
  Vector.getElem_map f i.isLt

theorem ext_fin {α : Type} {n : Nat} {xs ys : Vector α n} (h : ∀ i : Fin n, xs.get i = ys.get i) : xs = ys :=
  Vector.ext fun i hi => h ⟨i, hi⟩

end clib.scan
