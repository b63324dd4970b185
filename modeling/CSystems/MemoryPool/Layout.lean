import Mathlib.Data.List.Basic
import Mathlib.Data.List.Chain
import CSystems.MemoryPool.Pool

open clib.heap

namespace csystems.memory_pool

/-- A block without its place in memory. -/
structure cell_t where
  size : Nat
  free : Bool
  deriving DecidableEq, Repr

/-- The bytes the blocks take, headers included. -/
def total : List cell_t → Nat
  | [] => 0
  | c :: cells => BLOCK_SIZE + c.size + total cells

/-- A pointer to the blocks that start at `o`, or to what follows them. -/
def first (o : Nat) (cells : List cell_t) (last : Option Nat) : Option Nat :=
  match cells with
  | [] => last
  | _ :: _ => some o

/-- The blocks one after the other from offset `o` on. -/
def placed (o : Nat) : List cell_t → List placed_t
  | [] => []
  | c :: cells => { start := o, size := c.size, free := c.free } :: placed (o + BLOCK_SIZE + c.size) cells

/-- The blocks lie one after the other in memory, linked in that order; the last
one points to `last`. -/
def Laid (memory : memory_t) (last : Option Nat) : Nat → List cell_t → Prop
  | _, [] => True
  | o, c :: cells =>
    memory o = some { size := c.size, free := c.free, next := first (o + BLOCK_SIZE + c.size) cells last } ∧
      Laid memory last (o + BLOCK_SIZE + c.size) cells

section Total

variable {cells pre post : List cell_t} {o : Nat} {last : Option Nat} {memory memory' : memory_t}

theorem total_append : total (pre ++ post) = total pre + total post := by
  induction pre with
  | nil => simp [total]
  | cons c pre ih =>
    rw [List.cons_append, total, total, ih]
    omega

theorem length_le_total (cells : List cell_t) : cells.length ≤ total cells := by
  have hblock : BLOCK_SIZE = 24 := rfl
  induction cells with
  | nil => simp
  | cons c cells ih =>
    rw [List.length_cons, total]
    omega

theorem placed_append : placed o (pre ++ post) = placed o pre ++ placed (o + total pre) post := by
  induction pre generalizing o with
  | nil => rfl
  | cons c pre ih =>
    rw [List.cons_append, placed, placed, ih, total, List.cons_append]
    congr 3
    omega

theorem first_append : first o (pre ++ post) last = first o pre (first (o + total pre) post last) := by
  cases pre with
  | nil => rfl
  | cons c pre => rfl

theorem laid_append :
    Laid memory last o (pre ++ post) ↔
      Laid memory (first (o + total pre) post last) o pre ∧ Laid memory last (o + total pre) post := by
  induction pre generalizing o with
  | nil => simp [Laid, total]
  | cons c pre ih =>
    have hsum : o + BLOCK_SIZE + c.size + total pre = o + total (c :: pre) := by
      rw [total]
      omega
    rw [List.cons_append, Laid, Laid, ih, first_append, hsum, and_assoc]

/-- Every placed block lies within the blocks' bytes. -/
theorem placed_bounds {b : placed_t} (hb : b ∈ placed o cells) :
    o ≤ b.start ∧ b.start + BLOCK_SIZE + b.size ≤ o + total cells := by
  induction cells generalizing o with
  | nil => simp [placed] at hb
  | cons c cells ih =>
    rw [placed] at hb
    rw [total]
    rcases List.mem_cons.mp hb with rfl | hb
    · dsimp only
      omega
    · have hbound := ih hb
      omega

/-- A placed block splits the blocks into those before and after it. -/
theorem exists_of_mem_placed {b : placed_t} (hb : b ∈ placed o cells) :
    ∃ pre post, cells = pre ++ { size := b.size, free := b.free } :: post ∧ b.start = o + total pre := by
  induction cells generalizing o with
  | nil => simp [placed] at hb
  | cons c cells ih =>
    rw [placed] at hb
    rcases List.mem_cons.mp hb with rfl | hb
    · exact ⟨[], cells, rfl, rfl⟩
    · obtain ⟨pre, post, hcells, hstart⟩ := ih hb
      refine ⟨c :: pre, post, by rw [hcells]; rfl, ?_⟩
      rw [hstart, total]
      omega

/-- Blocks keep their layout when the headers in their range are kept. -/
theorem Laid.congr (h : Laid memory last o cells)
    (hsame : ∀ a, o ≤ a → a + BLOCK_SIZE ≤ o + total cells → memory' a = memory a) :
    Laid memory' last o cells := by
  induction cells generalizing o with
  | nil => trivial
  | cons c cells ih =>
    obtain ⟨hfirst, hrest⟩ := h
    rw [total] at hsame
    refine ⟨?_, ih hrest ?_⟩
    · rw [hsame o (Nat.le_refl o) (by omega), hfirst]
    · intro a hle hlt
      exact hsame a (by omega) (by omega)

end Total

section Write

variable {memory : memory_t} {w : Nat} {b : Block}

@[simp] theorem write_self : write memory w b w = some b := by simp [write]

/-- A header is kept by a store that does not overlap it. -/
theorem write_of_disjoint {a : Nat} (h : a + BLOCK_SIZE ≤ w ∨ w + BLOCK_SIZE ≤ a) :
    write memory w b a = memory a := by
  have hsize : BLOCK_SIZE = 24 := rfl
  unfold write
  rw [if_neg (by omega), if_neg (by omega)]

theorem Laid.write_after {last : Option Nat} {o : Nat} {cells : List cell_t} (h : Laid memory last o cells)
    (hw : o + total cells ≤ w) : Laid (write memory w b) last o cells :=
  h.congr fun _ _ hle => write_of_disjoint (Or.inl (by omega))

theorem Laid.write_before {last : Option Nat} {o : Nat} {cells : List cell_t} (h : Laid memory last o cells)
    (hw : w + BLOCK_SIZE ≤ o) : Laid (write memory w b) last o cells :=
  h.congr fun _ hle _ => write_of_disjoint (Or.inr (by omega))

end Write

/-- Following the links visits the blocks in order. -/
theorem Laid.walk_eq {memory : memory_t} {o : Nat} {cells : List cell_t} (h : Laid memory none o cells) {fuel : Nat}
    (hfuel : cells.length < fuel) : walk memory fuel (first o cells none) = some (placed o cells) := by
  induction cells generalizing o fuel with
  | nil =>
    obtain ⟨fuel, rfl⟩ : ∃ k, fuel = k + 1 := ⟨fuel - 1, by omega⟩
    rfl
  | cons c cells ih =>
    obtain ⟨fuel, rfl⟩ : ∃ k, fuel = k + 1 := ⟨fuel - 1, by simp at hfuel; omega⟩
    obtain ⟨hfirst, hrest⟩ := h
    rw [first, walk, hfirst]
    simp [ih hrest (by simpa using hfuel), placed]

/-- The search of `PoolAllocate` finds the first free block that is large
enough. -/
theorem Laid.find_cell_eq {memory : memory_t} {o : Nat} {cells : List cell_t} (h : Laid memory none o cells)
    (size : Nat) {fuel : Nat} (hfuel : cells.length < fuel) :
    find_cell (next memory) (fits memory size) fuel (first o cells none) =
      some (((placed o cells).find? fun b => b.free && decide (b.size ≥ size)).map placed_t.start) := by
  induction cells generalizing o fuel with
  | nil =>
    obtain ⟨fuel, rfl⟩ : ∃ k, fuel = k + 1 := ⟨fuel - 1, by omega⟩
    rfl
  | cons c cells ih =>
    obtain ⟨fuel, rfl⟩ : ∃ k, fuel = k + 1 := ⟨fuel - 1, by simp at hfuel; omega⟩
    obtain ⟨hfirst, hrest⟩ := h
    have ih := ih hrest (by simpa using hfuel)
    rw [first, find_cell, placed]
    cases hfit : c.free && decide (c.size ≥ size) with
    | true => simp [fits, hfirst, hfit]
    | false => simp [fits, next, hfirst, hfit, ih]

/-- What `MergeBlock` makes of the blocks. -/
def merge_cells : List cell_t → List cell_t
  | [] => []
  | [c] => [c]
  | c :: d :: cells =>
    if c.free && d.free then merge_cells ({ size := c.size + BLOCK_SIZE + d.size, free := true } :: cells)
    else c :: merge_cells (d :: cells)
termination_by cells => cells.length

/-- No two neighbouring blocks are both free. -/
def Coalesced (cells : List cell_t) : Prop := cells.IsChain fun c d => ¬ (c.free = true ∧ d.free = true)

/-- A pointer to the merged blocks is a pointer to the blocks. -/
theorem first_merge_cells {o : Nat} {cells : List cell_t} {last : Option Nat} :
    first o (merge_cells cells) last = first o cells last := by
  fun_induction merge_cells cells with
  | case1 => rfl
  | case2 => rfl
  | case3 c d cells hfree ih => exact ih
  | case4 c d cells hfree ih => rfl

/-- The loop of `MergeBlock` merges neighbouring free blocks in place. -/
theorem Laid.merge_eq {memory : memory_t} {o : Nat} {cells : List cell_t} (h : Laid memory none o cells)
    (hbound : o + total cells < SIZE_MOD) {fuel : Nat} (hfuel : cells.length < fuel) :
    ∃ memory', merge memory fuel (first o cells none) = some memory' ∧ Laid memory' none o (merge_cells cells) ∧
      ∀ a, a + BLOCK_SIZE ≤ o → memory' a = memory a := by
  fun_induction merge_cells cells generalizing memory o fuel with
  | case1 =>
    obtain ⟨fuel, rfl⟩ : ∃ k, fuel = k + 1 := ⟨fuel - 1, by omega⟩
    exact ⟨memory, rfl, trivial, fun _ _ => rfl⟩
  | case2 c =>
    obtain ⟨fuel, rfl⟩ : ∃ k, fuel = k + 1 := ⟨fuel - 1, by omega⟩
    refine ⟨memory, ?_, h, fun _ _ => rfl⟩
    simp [first, merge, h.1]
  | case3 c d cells hfree ih =>
    obtain ⟨fuel, rfl⟩ : ∃ k, fuel = k + 1 := ⟨fuel - 1, by simp at hfuel; omega⟩
    obtain ⟨hc, hd, hrest⟩ := h
    have hfree' : c.free = true ∧ d.free = true := by simpa using hfree
    rw [total, total] at hbound
    let block : Block :=
      { size := c.size + BLOCK_SIZE + d.size, free := true
        next := first (o + BLOCK_SIZE + c.size + BLOCK_SIZE + d.size) cells none }
    have hlaid : Laid (write memory o block) none o
        ({ size := c.size + BLOCK_SIZE + d.size, free := true } :: cells) := by
      have hplace : o + BLOCK_SIZE + (c.size + BLOCK_SIZE + d.size) =
          o + BLOCK_SIZE + c.size + BLOCK_SIZE + d.size := by omega
      refine ⟨?_, ?_⟩
      · rw [write_self]
        dsimp only [block]
        rw [hplace]
      · dsimp only
        rw [hplace]
        exact hrest.write_before (by omega)
    have hlength : (({ size := c.size + BLOCK_SIZE + d.size, free := true } : cell_t) :: cells).length < fuel := by
      simp only [List.length_cons] at hfuel ⊢
      omega
    obtain ⟨memory', hrun, hlaid', hframe⟩ := ih hlaid (by rw [total]; dsimp only; omega) hlength
    refine ⟨memory', ?_, hlaid', ?_⟩
    · simp only [first, merge, hc, Option.bind_eq_bind, Option.bind_some, hd, hfree, if_true]
      rw [Nat.mod_eq_of_lt (by omega), hfree'.1]
      exact hrun
    · intro a ha
      rw [hframe a ha, write_of_disjoint (Or.inl ha)]
  | case4 c d cells hfree ih =>
    obtain ⟨fuel, rfl⟩ : ∃ k, fuel = k + 1 := ⟨fuel - 1, by simp at hfuel; omega⟩
    obtain ⟨hc, hrest⟩ := h
    have hd := hrest.1
    rw [total] at hbound
    obtain ⟨memory', hrun, hlaid', hframe⟩ := ih hrest (by omega) (by simpa using hfuel)
    refine ⟨memory', ?_, ⟨?_, hlaid'⟩, ?_⟩
    · simp only [first, merge, hc, Option.bind_eq_bind, Option.bind_some, hd, if_neg hfree]
      exact hrun
    · rw [hframe o (by omega), hc, first_merge_cells]
    · intro a ha
      exact hframe a (by omega)

section Merge

theorem total_merge_cells (cells : List cell_t) : total (merge_cells cells) = total cells := by
  fun_induction merge_cells cells with
  | case1 => rfl
  | case2 => rfl
  | case3 c d cells hfree ih =>
    rw [ih, total, total, total]
    dsimp only
    omega
  | case4 c d cells hfree ih =>
    rw [total, ih]
    rfl

/-- The merged blocks start with a block that is free only if the first one was
free. -/
private theorem head_merge_cells (c : cell_t) (cells : List cell_t) :
    ∃ c' cells', merge_cells (c :: cells) = c' :: cells' ∧ (c'.free = true → c.free = true) := by
  generalize hall : c :: cells = all
  fun_induction merge_cells all generalizing c cells with
  | case1 => cases hall
  | case2 d =>
    cases hall
    exact ⟨d, [], rfl, id⟩
  | case3 d e rest hfree ih =>
    cases hall
    obtain ⟨c', cells', heq, -⟩ := ih _ _ rfl
    exact ⟨c', cells', heq, fun _ => by simp at hfree; exact hfree.1⟩
  | case4 d e rest hfree ih =>
    cases hall
    exact ⟨d, _, rfl, id⟩

theorem coalesced_merge_cells (cells : List cell_t) : Coalesced (merge_cells cells) := by
  fun_induction merge_cells cells with
  | case1 => exact List.IsChain.nil
  | case2 c => exact List.IsChain.singleton c
  | case3 c d cells hfree ih => exact ih
  | case4 c d cells hfree ih =>
    obtain ⟨d', cells', heq, hd'⟩ := head_merge_cells d cells
    rw [heq] at ih ⊢
    refine List.IsChain.cons_cons ?_ ih
    rintro ⟨hc, hd⟩
    exact hfree (by simp [hc, hd' hd])

/-- Merging touches free blocks only. -/
theorem used_merge_cells (o : Nat) (cells : List cell_t) :
    (placed o (merge_cells cells)).filter (fun b => !b.free) = (placed o cells).filter (fun b => !b.free) := by
  fun_induction merge_cells cells generalizing o with
  | case1 => rfl
  | case2 => rfl
  | case3 c d cells hfree ih =>
    have hfree' : c.free = true ∧ d.free = true := by simpa using hfree
    have hplace : o + BLOCK_SIZE + (c.size + BLOCK_SIZE + d.size) =
        o + BLOCK_SIZE + c.size + BLOCK_SIZE + d.size := by omega
    rw [ih, placed, placed, placed]
    simp [hfree'.1, hfree'.2, hplace]
  | case4 c d cells hfree ih =>
    rw [placed, placed, List.filter_cons, List.filter_cons, ih]

end Merge

end csystems.memory_pool
