import Mathlib.Data.List.Perm.Basic
import CSystems.MemoryPool.Layout

open clib.heap

namespace csystems.memory_pool

/-- The pool consists of these blocks. -/
structure Represents (pool : pool_t) (cells : List cell_t) : Prop where
  nonempty : cells ≠ []
  list : pool.FreeList = some 0
  laid : Laid pool.memory none 0 cells
  size : total cells = pool.PoolSize
  bound : pool.PoolSize < SIZE_MOD
  coalesced : Coalesced cells

/-- The blocks in use. -/
def used (cells : List cell_t) : List placed_t := (placed 0 cells).filter fun b => !b.free

namespace Represents

variable {pool : pool_t} {cells : List cell_t} (h : Represents pool cells)

include h

theorem first_eq : first 0 cells none = pool.FreeList := by
  rw [h.list]
  cases hcells : cells with
  | nil => exact absurd hcells h.nonempty
  | cons c rest => rfl

theorem length_lt_fuel : cells.length < pool.fuel := by
  have hle := length_le_total cells
  have hsize := h.size
  unfold pool_t.fuel
  omega

theorem block_list_eq : block_list pool = some (placed 0 cells) := by
  rw [block_list, ← h.first_eq]
  exact h.laid.walk_eq h.length_lt_fuel

end Represents

theorem PoolInit_represents {size : Nat} (hsize : BLOCK_SIZE ≤ size) (hbound : size < SIZE_MOD) :
    Represents (PoolInit size) [{ size := size - BLOCK_SIZE, free := true }] := by
  have hmod : (size + SIZE_MOD - BLOCK_SIZE) % SIZE_MOD = size - BLOCK_SIZE := by
    rw [Nat.add_comm, Nat.add_sub_assoc hsize, Nat.add_mod_left, Nat.mod_eq_of_lt (by omega)]
  refine ⟨by simp, rfl, ⟨?_, trivial⟩, ?_, hbound, List.IsChain.singleton _⟩
  · dsimp only [PoolInit]
    rw [write_self, hmod]
    rfl
  · simp only [total, PoolInit]
    omega

section Allocate

variable {pool : pool_t} {pre post : List cell_t} {c : cell_t}

/-- The blocks that replace a free block of `size` bytes when `n` bytes of it
are handed out. -/
def taken (size n : Nat) : List cell_t :=
  if size > n + BLOCK_SIZE then [{ size := n, free := false }, { size := size - n - BLOCK_SIZE, free := true }]
  else [{ size := size, free := false }]

theorem total_taken {size n : Nat} : total (taken size n) = BLOCK_SIZE + size := by
  unfold taken
  split
  · simp only [total]
    omega
  · simp [total]

private theorem first_taken {size n o : Nat} {rest : List cell_t} {last : Option Nat} :
    first o (taken size n ++ rest) last = some o := by
  unfold taken
  split <;> rfl

private theorem coalesced_taken {size n : Nat} (h : Coalesced (pre ++ c :: post)) (hfree : c.free = true) :
    Coalesced (pre ++ taken size n ++ post) := by
  unfold Coalesced at h ⊢
  have hpost : (∀ d ∈ post.head?, d.free = false) ∧ post.IsChain fun c d => ¬ (c.free = true ∧ d.free = true) := by
    have htail := h.right_of_append
    rw [List.isChain_cons] at htail
    refine ⟨?_, htail.2⟩
    intro d hd
    have hnot := htail.1 d hd
    cases hdfree : d.free with
    | false => rfl
    | true => exact absurd ⟨hfree, hdfree⟩ hnot
  have hpre := h.left_of_append
  unfold taken
  rw [List.append_assoc, List.isChain_append]
  split
  · refine ⟨hpre, ?_, ?_⟩
    · simp only [List.cons_append, List.nil_append, List.isChain_cons_cons]
      refine ⟨by simp, List.isChain_cons.mpr ⟨?_, hpost.2⟩⟩
      rintro d hd ⟨-, hdfree⟩
      rw [hpost.1 d hd] at hdfree
      cases hdfree
    · rintro x - y hy ⟨-, hyfree⟩
      obtain rfl : y = { size := n, free := false } := by simpa using hy.symm
      cases hyfree
  · refine ⟨hpre, ?_, ?_⟩
    · refine List.isChain_cons.mpr ⟨?_, hpost.2⟩
      rintro d - ⟨hfalse, -⟩
      cases hfalse
    · rintro x - y hy ⟨-, hyfree⟩
      obtain rfl : y = { size := size, free := false } := by simpa using hy.symm
      cases hyfree

/-- Handing out a block: the header stores stay within the block. -/
theorem take_block {memory : memory_t} {n o : Nat} (hlaid : Laid memory none o (c :: post))
    (hn : n ≤ c.size) (hbound : o + total (c :: post) < SIZE_MOD) :
    ∃ memory', (if c.size > (n + BLOCK_SIZE) % SIZE_MOD then SplitBlock memory o n
        else some (write memory o
          { size := c.size, free := false, next := first (o + BLOCK_SIZE + c.size) post none })) = some memory' ∧
      Laid memory' none o (taken c.size n ++ post) ∧ ∀ a, a + BLOCK_SIZE ≤ o → memory' a = memory a := by
  obtain ⟨hhead, hpost⟩ := hlaid
  rw [total] at hbound
  have hmod : (n + BLOCK_SIZE) % SIZE_MOD = n + BLOCK_SIZE := Nat.mod_eq_of_lt (by omega)
  rw [hmod]
  unfold taken
  by_cases hsplit : c.size > n + BLOCK_SIZE
  · rw [if_pos hsplit, if_pos hsplit]
    have hnew : (o + BLOCK_SIZE + n) % SIZE_MOD = o + BLOCK_SIZE + n := Nat.mod_eq_of_lt (by omega)
    have hsize : (c.size + 2 * SIZE_MOD - n - BLOCK_SIZE) % SIZE_MOD = c.size - n - BLOCK_SIZE := by
      have hsum : c.size + 2 * SIZE_MOD - n - BLOCK_SIZE = c.size - n - BLOCK_SIZE + SIZE_MOD + SIZE_MOD := by omega
      rw [hsum, Nat.add_mod_right, Nat.add_mod_right, Nat.mod_eq_of_lt (by omega)]
    have hend : o + BLOCK_SIZE + n + BLOCK_SIZE + (c.size - n - BLOCK_SIZE) = o + BLOCK_SIZE + c.size := by omega
    let block : Block :=
      { size := c.size - n - BLOCK_SIZE, free := true, next := first (o + BLOCK_SIZE + c.size) post none }
    have hkept : write memory (o + BLOCK_SIZE + n) block o = memory o := write_of_disjoint (Or.inl (by omega))
    refine ⟨write (write memory (o + BLOCK_SIZE + n) block) o
      { size := n, free := false, next := some (o + BLOCK_SIZE + n) }, ?_, ⟨?_, ?_, ?_⟩, ?_⟩
    · simp only [SplitBlock, hhead, Option.bind_eq_bind, Option.bind_some, hnew, hsize]
      rw [show write memory (o + BLOCK_SIZE + n) _ o = memory o from hkept, hhead]
      rfl
    · rw [write_self]
      rfl
    · rw [write_of_disjoint (Or.inr (by dsimp only; omega)), write_self]
      dsimp only [block]
      rw [hend]
      rfl
    · dsimp only
      rw [hend]
      exact (hpost.write_before (by omega)).write_before (by omega)
    · intro a ha
      rw [write_of_disjoint (Or.inl ha), write_of_disjoint (Or.inl (by omega))]
  · rw [if_neg hsplit, if_neg hsplit]
    refine ⟨_, rfl, ⟨?_, ?_⟩, ?_⟩
    · rw [write_self]
      rfl
    · exact hpost.write_before (by omega)
    · intro a ha
      exact write_of_disjoint (Or.inl ha)

/-- `PoolAllocate` finds no block, or takes the first free one that fits. -/
theorem Represents.allocate {cells : List cell_t} (h : Represents pool cells) (n : Nat) :
    PoolAllocate pool n = some (pool, none) ∨
    ∃ pre c post pool', cells = pre ++ c :: post ∧ c.free = true ∧ n ≤ c.size ∧
      PoolAllocate pool n = some (pool', some (total pre + BLOCK_SIZE)) ∧
      Represents pool' (pre ++ taken c.size n ++ post) ∧ pool'.PoolSize = pool.PoolSize := by
  have hfind := h.laid.find_cell_eq n h.length_lt_fuel
  rw [h.first_eq] at hfind
  cases hblock : (placed 0 cells).find? fun b => b.free && decide (b.size ≥ n) with
  | none =>
    refine Or.inl ?_
    simp [PoolAllocate, hfind, hblock]
  | some b =>
    have hfits := List.find?_some hblock
    simp only [Bool.and_eq_true, decide_eq_true_eq] at hfits
    obtain ⟨hfree, hn⟩ := hfits
    obtain ⟨pre, post, hcells, hstart⟩ := exists_of_mem_placed (List.mem_of_find?_eq_some hblock)
    rw [Nat.zero_add] at hstart
    have hlaid := h.laid
    have hsize := h.size
    have hbound := h.bound
    rw [hcells, laid_append, Nat.zero_add] at hlaid
    obtain ⟨hpre, hblocks⟩ := hlaid
    have htotal : total pre + total ({ size := b.size, free := b.free } :: post) = pool.PoolSize := by
      rw [← total_append, ← hcells, hsize]
    obtain ⟨memory', hrun, hlaid', hframe⟩ := take_block hblocks hn (by omega)
    have hptr : (total pre + BLOCK_SIZE) % SIZE_MOD = total pre + BLOCK_SIZE := by
      rw [total] at htotal
      exact Nat.mod_eq_of_lt (by omega)
    refine Or.inr ⟨pre, { size := b.size, free := b.free }, post, { pool with memory := memory' }, hcells, hfree, hn, ?_,
      ⟨?_, h.list, ?_, ?_, h.bound, ?_⟩, rfl⟩
    · unfold PoolAllocate
      rw [hfind, hblock, Option.map_some]
      change (pool.memory b.start).bind _ = _
      rw [hstart, hblocks.1, Option.bind_some, Option.bind_eq_bind]
      dsimp only at hrun ⊢
      rw [hptr]
      by_cases hsplit : b.size > (n + BLOCK_SIZE) % SIZE_MOD
      · rw [if_pos hsplit] at hrun ⊢
        rw [hrun, Option.bind_some]
      · rw [if_neg hsplit] at hrun ⊢
        rw [hrun, Option.bind_some]
    · unfold taken
      split <;> simp
    · rw [List.append_assoc, laid_append, Nat.zero_add, first_taken]
      refine ⟨?_, hlaid'⟩
      apply hpre.congr
      intro a _ ha
      exact hframe a (by omega)
    · rw [List.append_assoc, total_append, total_append, total_taken]
      rw [total] at htotal
      exact htotal
    · exact coalesced_taken (hcells ▸ h.coalesced) hfree

end Allocate

section Free

variable {pool : pool_t}

/-- `PoolFree` of a block in use marks it free and merges it with its free
neighbours; no other block in use is touched. -/
theorem Represents.release {cells : List cell_t} (h : Represents pool cells) {b : placed_t} (hb : b ∈ used cells) :
    ∃ pool' cells', PoolFree pool (some (b.start + BLOCK_SIZE)) = some pool' ∧ Represents pool' cells' ∧
      (used cells).Perm (b :: used cells') ∧ pool'.PoolSize = pool.PoolSize := by
  obtain ⟨hmem, hbfree⟩ := List.mem_filter.mp hb
  obtain ⟨pre, post, hcells, hstart⟩ := exists_of_mem_placed hmem
  rw [Nat.zero_add] at hstart
  have hbound := h.bound
  have hsize := h.size
  have hlaid := h.laid
  rw [hcells, total_append, total] at hsize
  rw [hcells, laid_append, Nat.zero_add] at hlaid
  obtain ⟨hpre, hhead, hpost⟩ := hlaid
  dsimp only at hsize
  have hptr : (b.start + BLOCK_SIZE + SIZE_MOD - BLOCK_SIZE) % SIZE_MOD = total pre := by
    have hsum : b.start + BLOCK_SIZE + SIZE_MOD - BLOCK_SIZE = total pre + SIZE_MOD := by omega
    rw [hsum, Nat.add_mod_right, Nat.mod_eq_of_lt (by omega)]
  let freed : List cell_t := pre ++ { size := b.size, free := true } :: post
  let memory := write pool.memory (total pre)
    { size := b.size, free := true, next := first (total pre + BLOCK_SIZE + b.size) post none }
  have htotal : total freed = pool.PoolSize := by
    rw [total_append, total]
    exact hsize
  have hfreed : Laid memory none 0 freed := by
    refine laid_append.mpr ⟨?_, ?_⟩
    · rw [Nat.zero_add]
      exact hpre.write_after (by omega)
    · rw [Nat.zero_add]
      exact ⟨write_self, hpost.write_before (by dsimp only; omega)⟩
  have hlength : freed.length < pool.fuel := by
    have hlt := h.length_lt_fuel
    rw [hcells] at hlt
    simpa [freed] using hlt
  obtain ⟨memory', hrun, hlaid', -⟩ := hfreed.merge_eq (by omega) hlength
  have hfirst : first 0 freed none = pool.FreeList := by
    rw [h.list]
    simp only [freed]
    cases pre <;> rfl
  refine ⟨{ pool with memory := memory' }, merge_cells freed, ?_,
    ⟨?_, h.list, hlaid', ?_, h.bound, coalesced_merge_cells freed⟩, ?_, rfl⟩
  · rw [hfirst] at hrun
    simp only [PoolFree, hptr, hhead, Option.bind_eq_bind, Option.bind_some, MergeBlock]
    change (merge memory pool.fuel pool.FreeList).bind _ = _
    rw [hrun]
    rfl
  · intro hnil
    have hzero := total_merge_cells freed
    rw [hnil, htotal, total] at hzero
    have hblock : BLOCK_SIZE = 24 := rfl
    omega
  · rw [total_merge_cells, htotal]
  · have hused : used (merge_cells freed) = used freed := used_merge_cells 0 freed
    have hb : b = { start := total pre, size := b.size, free := false } := by
      cases b with
      | mk start size free =>
        simp only at hstart
        simp only [Bool.not_eq_true'] at hbfree
        rw [hstart, hbfree]
    rw [hused, hcells, used, used, placed_append, placed_append, placed, placed, List.filter_append, List.filter_append,
      Nat.zero_add, List.filter_cons_of_pos (by simpa using hbfree), List.filter_cons_of_neg (by simp)]
    dsimp only
    simp only [Bool.not_eq_true'] at hbfree
    rw [hbfree, ← hb]
    exact List.perm_middle

end Free

end csystems.memory_pool
