import CSystems.MemoryPool.Operations

open clib.heap

namespace csystems.memory_pool

/-- Every request goes through, and what it gets lies in the pool. Pointers are
offsets from `MemoryPool`. -/
def Inside : pool_t → List UInt64 → Prop
  | _, [] => True
  | pool, n :: requests =>
    ∃ pool' ptr, PoolAllocate pool n.toNat = some (pool', ptr) ∧ (∀ p, ptr = some p → p + n.toNat ≤ pool.PoolSize) ∧
      Inside pool' requests

/-- The size that the first block gets in a pool without room for its header. -/
def wrapped_size (size : Nat) : Nat := SIZE_MOD + size - BLOCK_SIZE

section Allocate

variable {pool : pool_t} {cells : List cell_t}

theorem Represents.inside (h : Represents pool cells) (requests : List UInt64) : Inside pool requests := by
  induction requests generalizing pool cells with
  | nil => trivial
  | cons n requests ih =>
    rcases h.allocate n.toNat with hnone | ⟨pre, c, post, pool', hcells, -, hn, hrun, hrep, -⟩
    · exact ⟨pool, none, hnone, nofun, ih h⟩
    · refine ⟨pool', _, hrun, ?_, ih hrep⟩
      rintro p hp
      have hsize := h.size
      rw [hcells, total_append, total] at hsize
      rw [← Option.some.inj hp]
      omega

variable {size : Nat}

theorem PoolInit_header (hsize : size < BLOCK_SIZE) :
    (PoolInit size).memory 0 = some { size := wrapped_size size, free := true, next := none } := by
  have hblock : BLOCK_SIZE = 24 := rfl
  have hmod : SIZE_MOD = 18446744073709551616 := rfl
  have hwrap : (size + SIZE_MOD - BLOCK_SIZE) % SIZE_MOD = wrapped_size size := by
    rw [wrapped_size, Nat.add_comm, Nat.mod_eq_of_lt (by omega)]
  dsimp only [PoolInit]
  rw [write_self, hwrap]

/-- The first block has room for no request that is larger. -/
theorem PoolAllocate_wrapped_none (hsize : size < BLOCK_SIZE) {n : Nat} (hn : wrapped_size size < n) :
    PoolAllocate (PoolInit size) n = some (PoolInit size, none) := by
  have hheader := PoolInit_header hsize
  have hfits : fits (PoolInit size).memory n 0 = some false := by simp [fits, hheader, hn]
  have hfind : find_cell (next (PoolInit size).memory) (fits (PoolInit size).memory n) (PoolInit size).fuel
      (PoolInit size).FreeList = some none := by
    change find_cell _ _ (size + 2) (some 0) = _
    simp [find_cell, hfits, next, hheader]
  rw [PoolAllocate, hfind]
  rfl

/-- The first block is handed out behind its header, which is behind the pool. -/
theorem PoolAllocate_wrapped_outside (hsize : size < BLOCK_SIZE) {n : Nat} (hn : n ≤ wrapped_size size)
    {pool' : pool_t} {ptr : Option Nat} (hrun : PoolAllocate (PoolInit size) n = some (pool', ptr)) :
    ptr = some BLOCK_SIZE := by
  have hheader := PoolInit_header hsize
  have hfits : fits (PoolInit size).memory n 0 = some true := by simp [fits, hheader, hn]
  have hfind : find_cell (next (PoolInit size).memory) (fits (PoolInit size).memory n) (PoolInit size).fuel
      (PoolInit size).FreeList = some (some 0) := by
    change find_cell _ _ (size + 2) (some 0) = _
    simp [find_cell, hfits]
  rw [PoolAllocate, hfind, Option.bind_eq_bind, Option.bind_some] at hrun
  dsimp only at hrun
  rw [hheader, Option.bind_eq_bind, Option.bind_some] at hrun
  split at hrun
  all_goals
    obtain ⟨memory, -, hsome⟩ := Option.bind_eq_some_iff.mp hrun
    obtain ⟨-, rfl⟩ := Prod.mk.inj (Option.some.inj hsome)
    rfl

end Allocate

/-- What is handed out lies in the pool exactly when the first header does, unless
every request is larger than what that header then promises. -/
theorem allocations_inside_iff (size : UInt64) (requests : List UInt64) :
    Inside (PoolInit size.toNat) requests ↔
      BLOCK_SIZE ≤ size.toNat ∨ ∀ n ∈ requests, wrapped_size size.toNat < n.toNat := by
  by_cases hsize : BLOCK_SIZE ≤ size.toNat
  · exact iff_of_true ((PoolInit_represents hsize size.toNat_lt).inside requests) (Or.inl hsize)
  · rw [or_iff_right hsize]
    have hlt : size.toNat < BLOCK_SIZE := Nat.lt_of_not_le hsize
    induction requests with
    | nil => exact iff_of_true trivial nofun
    | cons n requests ih =>
      rw [List.forall_mem_cons]
      by_cases hn : wrapped_size size.toNat < n.toNat
      · have hnone := PoolAllocate_wrapped_none hlt hn
        constructor
        · rintro ⟨pool', ptr, hrun, -, hrest⟩
          obtain ⟨rfl, -⟩ := Prod.mk.inj (Option.some.inj (hnone.symm.trans hrun))
          exact ⟨hn, ih.mp hrest⟩
        · rintro ⟨-, hrest⟩
          exact ⟨_, none, hnone, nofun, ih.mpr hrest⟩
      · refine iff_of_false ?_ fun h => hn h.1
        rintro ⟨pool', ptr, hrun, hinside, -⟩
        have hptr := PoolAllocate_wrapped_outside hlt (Nat.le_of_not_lt hn) hrun
        have hle : BLOCK_SIZE + n.toNat ≤ size.toNat := hinside BLOCK_SIZE hptr
        omega

/-- A request of 100 bytes to a pool of 8. -/
theorem small_pool_outside :
    (PoolAllocate (PoolInit 8) 100).map Prod.snd = some (some 24) ∧ ¬Inside (PoolInit 8) [100] := by
  refine ⟨by decide, ?_⟩
  rintro ⟨pool', ptr, hrun, hinside, -⟩
  have hptr := PoolAllocate_wrapped_outside (by decide) (by decide) hrun
  have hle := hinside BLOCK_SIZE hptr
  revert hle
  decide

end csystems.memory_pool
