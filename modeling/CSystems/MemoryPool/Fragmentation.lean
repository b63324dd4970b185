import Mathlib.Algebra.Order.BigOperators.Group.List
import Mathlib.Algebra.Order.Ring.Nat
import CSystems.MemoryPool.Integrity

open clib.heap clib.run

namespace csystems.memory_pool

/-- The bytes that the blocks in use take at most, with headers and slack, for what the
client asked for. -/
def demand (live : List (Nat × Nat)) : Nat := (live.map fun l => l.2 + 2 * BLOCK_SIZE).sum

section Cells

/-- Between two free blocks there is one in use. -/
theorem Coalesced.count_free_le {cells : List cell_t} (h : Coalesced cells) :
    cells.countP cell_t.free ≤ (cells.countP fun c => !c.free) + 1 := by
  suffices hhead : cells.countP cell_t.free ≤
      (cells.countP fun c => !c.free) + if cells.head?.any cell_t.free then 1 else 0 by
    split at hhead <;> omega
  induction cells with
  | nil => simp
  | cons c cells ih =>
    obtain ⟨hnext, hrest⟩ := List.isChain_cons.mp h
    have hle := ih hrest
    cases hfree : c.free with
    | false =>
      have hbound : (if cells.head?.any cell_t.free then 1 else 0) ≤ 1 := by split <;> decide
      simp only [List.countP_cons, hfree, Bool.false_eq_true, if_false, Nat.add_zero, Bool.not_false, if_true,
        List.head?_cons, Option.any_some]
      omega
    | true =>
      have hused : cells.head?.any cell_t.free = false := by
        cases hcells : cells.head? with
        | none => rfl
        | some d =>
          have hnot := hnext d hcells
          rw [Option.any_some, Bool.eq_false_iff]
          exact fun hd => hnot ⟨hfree, hd⟩
      rw [hused] at hle
      simp only [List.countP_cons, hfree, if_true, Bool.not_true, Bool.false_eq_true, if_false, Nat.add_zero,
        List.head?_cons, Option.any_some]
      exact Nat.add_le_add_right hle 1

/-- Blocks of which the free ones are too small take what is in use, and less than a
header and the request for each free one. -/
theorem total_le_of_small {cells : List cell_t} {n : Nat} (hsmall : ∀ c ∈ cells, c.free = true → c.size < n) (o : Nat) :
    total cells + cells.countP cell_t.free ≤
      (((placed o cells).filter fun b => !b.free).map fun b => BLOCK_SIZE + b.size).sum +
      cells.countP cell_t.free * (BLOCK_SIZE + n) := by
  induction cells generalizing o with
  | nil => simp [total]
  | cons c cells ih =>
    have hle := ih (fun d hd => hsmall d (List.mem_cons_of_mem c hd)) (o + BLOCK_SIZE + c.size)
    rw [total, placed, List.countP_cons]
    cases hfree : c.free with
    | false =>
      rw [List.filter_cons_of_pos (by simp), List.map_cons, List.sum_cons]
      simp only [Bool.false_eq_true, if_false, Nat.add_zero]
      omega
    | true =>
      have hsize := hsmall c List.mem_cons_self hfree
      rw [List.filter_cons_of_neg (by simp)]
      simp only [if_true, Nat.add_mul, Nat.one_mul] at hle ⊢
      omega

theorem length_used (cells : List cell_t) (o : Nat) :
    ((placed o cells).filter fun b => !b.free).length = cells.countP fun c => !c.free := by
  induction cells generalizing o with
  | nil => rfl
  | cons c cells ih =>
    rw [placed, List.filter_cons, List.countP_cons, ← ih (o + BLOCK_SIZE + c.size)]
    split <;> rfl

/-- `PoolAllocate` fails only where every free block is too small. -/
theorem Represents.allocate_none_iff {pool : pool_t} {cells : List cell_t} (h : Represents pool cells) (n : Nat) :
    PoolAllocate pool n = some (pool, none) ↔ ∀ c ∈ cells, c.free = true → c.size < n := by
  constructor
  · intro hnone c hc hfree
    by_contra hlarge
    have hfind := h.laid.find_cell_eq n h.length_lt_fuel
    rw [h.first_eq] at hfind
    obtain ⟨pre, post, rfl⟩ := List.append_of_mem hc
    have hsome : ((placed 0 (pre ++ c :: post)).find? fun b => b.free && decide (b.size ≥ n)).isSome := by
      rw [List.find?_isSome]
      refine ⟨{ start := total pre, size := c.size, free := c.free }, ?_, by simp [hfree, Nat.le_of_not_lt hlarge]⟩
      simp [placed_append, placed]
    obtain ⟨b, hb⟩ := Option.isSome_iff_exists.mp hsome
    rw [hb, Option.map_some] at hfind
    rw [PoolAllocate, hfind, Option.bind_eq_bind, Option.bind_some] at hnone
    obtain ⟨d, -, hrest⟩ := Option.bind_eq_some_iff.mp hnone
    split at hrest
    all_goals
      obtain ⟨memory, -, hpair⟩ := Option.bind_eq_some_iff.mp hrest
      exact Option.some_ne_none _ (Prod.mk.inj (Option.some.inj hpair)).2
  · intro hsmall
    obtain hnone | ⟨pre, c, post, pool', rfl, hfree, hle, -, -⟩ := h.allocate n
    · exact hnone
    · have hlt := hsmall c (by simp) hfree
      omega

end Cells

section Runs

variable {size : UInt64} {c : client_t} {cells : List cell_t} {owned : List (placed_t × Nat)}

/-- Along every sequence of calls no block in use is much larger than what it was
handed out for. -/
theorem run_snug (hsize : BLOCK_SIZE ≤ size.toNat) (calls : List call_t) :
    ∃ c cells owned, run size calls = some c ∧ Holds c size.toNat cells owned ∧
      ∀ o ∈ owned, o.1.size ≤ o.2 + BLOCK_SIZE := by
  have hruns : ∃ c, run size calls = some c ∧
      ∃ cells owned, Holds c size.toNat cells owned ∧ ∀ o ∈ owned, o.1.size ≤ o.2 + BLOCK_SIZE := by
    obtain ⟨cells, hinit⟩ := holds_create hsize
    refine foldlM_history (fun _ c => ∃ cells owned, Holds c size.toNat cells owned ∧
      ∀ o ∈ owned, o.1.size ≤ o.2 + BLOCK_SIZE) ⟨cells, [], hinit, by simp⟩ ?_
    rintro - k c - ⟨cells, owned, h, hsnug⟩
    cases k with
    | allocate n =>
      obtain ⟨c', cells', owned', hcall, h', hcases⟩ := h.allocate n
      refine ⟨c', hcall, cells', owned', h', ?_⟩
      obtain rfl | ⟨b, rfl, hslack⟩ := hcases
      · exact hsnug
      · exact List.forall_mem_cons.mpr ⟨hslack, hsnug⟩
    | free index =>
      obtain ⟨c', cells', owned', hcall, h', hsubset⟩ := h.free index
      exact ⟨c', hcall, cells', owned', h', fun o ho => hsnug o (hsubset ho)⟩
  obtain ⟨c, hrun, cells, owned, h, hsnug⟩ := hruns
  exact ⟨c, cells, owned, hrun, h, hsnug⟩

/-- The blocks in use take no more than the demand. -/
theorem Holds.used_le_demand (h : Holds c size.toNat cells owned) (hsnug : ∀ o ∈ owned, o.1.size ≤ o.2 + BLOCK_SIZE) :
    ((used cells).map fun b => BLOCK_SIZE + b.size).sum ≤ demand c.live := by
  have hsum := (h.blocks.map fun b => BLOCK_SIZE + b.size).sum_eq
  rw [← hsum, demand, h.live, List.map_map, List.map_map]
  refine List.sum_le_sum fun o ho => ?_
  have hslack := hsnug o ho
  simp only [Function.comp_apply, pointer]
  omega

theorem Holds.count_used (h : Holds c size.toNat cells owned) : (cells.countP fun c => !c.free) = c.live.length := by
  have hlength := h.blocks.length_eq
  rw [used, length_used, List.length_map] at hlength
  rw [h.live, List.length_map, hlength]

end Runs

/-- What the pool guarantees after every sequence of calls, however it is fragmented by
then. A request is turned down exactly where every free block is too small for it; and
that cannot be as long as the bytes in demand leave a header and the request for each
gap that the live blocks can make. -/
theorem allocation_guaranteed (size : UInt64) (hsize : BLOCK_SIZE ≤ size.toNat) (calls : List call_t) (n : UInt64) :
    ∃ c c' blocks, run size calls = some c ∧ block_list c.pool = some blocks ∧
      run size (calls ++ [.allocate n]) = some c' ∧
      (c'.live = c.live ↔ ∀ b ∈ blocks, b.free = true → b.size < n.toNat) ∧
      (demand c.live + (c.live.length + 1) * (BLOCK_SIZE + n.toNat) ≤ size.toNat →
        ∃ ptr, c'.live = (ptr, n.toNat) :: c.live) := by
  obtain ⟨c, cells, owned, hrun, h, hsnug⟩ := run_snug hsize calls
  have hblocks := h.represents.block_list_eq
  have hnext : run size (calls ++ [.allocate n]) = call c (.allocate n) := by
    rw [run, List.foldlM_append, ← run, hrun]
    simp
  have hsmall : (∀ b ∈ placed 0 cells, b.free = true → b.size < n.toNat) ↔
      ∀ d ∈ cells, d.free = true → d.size < n.toNat := by
    constructor
    · intro hall d hd hfree
      obtain ⟨pre, post, rfl⟩ := List.append_of_mem hd
      refine hall { start := total pre, size := d.size, free := d.free } ?_ hfree
      simp [placed_append, placed]
    · intro hall b hb hfree
      obtain ⟨pre, post, rfl, -⟩ := exists_of_mem_placed hb
      exact hall { size := b.size, free := b.free } (by simp) hfree
  rw [← h.represents.allocate_none_iff] at hsmall
  obtain hnone | ⟨pre, d, post, pool', rfl, hfree, hle, hsome, hrep, -⟩ := h.represents.allocate n.toNat
  · have hcall : call c (.allocate n) = some c := by simp [call, hnone]
    refine ⟨c, c, placed 0 cells, hrun, hblocks, hnext.trans hcall, iff_of_true rfl (hsmall.mpr hnone), fun hroom => ?_⟩
    have htotal := total_le_of_small (h.represents.allocate_none_iff n.toNat |>.mp hnone) 0
    have hgaps := h.represents.coalesced.count_free_le
    have hdemand := h.used_le_demand hsnug
    have hmul := Nat.mul_le_mul_right (BLOCK_SIZE + n.toNat) hgaps
    rw [h.count_used] at hmul hgaps
    rw [h.represents.size, h.size, ← used] at htotal
    have hblock : BLOCK_SIZE = 24 := rfl
    by_cases hzero : cells.countP cell_t.free = 0
    · rw [hzero, Nat.zero_mul] at htotal
      have hpos : 0 < (c.live.length + 1) * (BLOCK_SIZE + n.toNat) := Nat.mul_pos (Nat.succ_pos _) (by omega)
      omega
    · omega
  · have hcall : call c (.allocate n) =
        some { pool := pool', live := (total pre + BLOCK_SIZE, n.toNat) :: c.live } := by
      simp [call, hsome]
    refine ⟨c, _, placed 0 (pre ++ d :: post), hrun, hblocks, hnext.trans hcall, iff_of_false ?_ ?_, fun _ => ⟨_, rfl⟩⟩
    · exact List.cons_ne_self _ _
    · rw [hsmall, hsome]
      intro heq
      exact absurd (Prod.mk.inj (Option.some.inj heq)).2 (by simp)

theorem allocation_guaranteed_third : ∃ c c' blocks, run 256 [.allocate 8, .allocate 16, .free 1] = some c ∧
    block_list c.pool = some blocks ∧ run 256 ([.allocate 8, .allocate 16, .free 1] ++ [.allocate 64]) = some c' ∧
    (c'.live = c.live ↔ ∀ b ∈ blocks, b.free = true → b.size < 64) ∧
    (demand c.live + (c.live.length + 1) * (BLOCK_SIZE + 64) ≤ 256 → ∃ ptr, c'.live = (ptr, 64) :: c.live) :=
  allocation_guaranteed 256 (by decide) [.allocate 8, .allocate 16, .free 1] 64

end csystems.memory_pool
