import Mathlib.Data.List.InsertIdx
import CSystems.Lib.Run
import CSystems.MemoryPool.Operations

open clib.run

namespace csystems.memory_pool

/-- The blocks tile `size` bytes in address order: each starts right after the
payload of the one before it. -/
structure Tiles (blocks : List placed_t) (size : Nat) : Prop where
  start : blocks.head?.map placed_t.start = some 0
  next : blocks.IsChain fun b d => d.start = b.start + BLOCK_SIZE + b.size
  sum : (blocks.map fun b => BLOCK_SIZE + b.size).sum = size

/-- The bytes of the two payloads do not overlap. -/
def DisjointPayloads (b d : placed_t) : Prop :=
  b.start + BLOCK_SIZE + b.size ≤ d.start + BLOCK_SIZE ∨ d.start + BLOCK_SIZE + d.size ≤ b.start + BLOCK_SIZE

/-- The pointer handed out for a block of which `n` bytes were asked for. -/
def pointer (o : placed_t × Nat) : Nat × Nat := (o.1.start + BLOCK_SIZE, o.2)

/-- The client holds exactly the blocks in use, each at least as large as it
asked for. -/
structure Holds (c : client_t) (size : Nat) (cells : List cell_t) (owned : List (placed_t × Nat)) : Prop where
  represents : Represents c.pool cells
  size : c.pool.PoolSize = size
  live : c.live = owned.map pointer
  enough : ∀ o ∈ owned, o.2 ≤ o.1.size
  blocks : (owned.map Prod.fst).Perm (used cells)

section Placed

variable {cells : List cell_t} {o : Nat}

private theorem placed_next (cells : List cell_t) (o : Nat) :
    (placed o cells).IsChain fun b d => d.start = b.start + BLOCK_SIZE + b.size := by
  induction cells generalizing o with
  | nil => exact List.IsChain.nil
  | cons c cells ih =>
    rw [placed, List.isChain_cons]
    refine ⟨?_, ih _⟩
    intro d hd
    cases cells with
    | nil => cases hd
    | cons e cells =>
      obtain rfl : _ = d := by simpa [placed] using hd
      rfl

private theorem sum_placed (cells : List cell_t) (o : Nat) :
    ((placed o cells).map fun b => BLOCK_SIZE + b.size).sum = total cells := by
  induction cells generalizing o with
  | nil => rfl
  | cons c cells ih => rw [placed, List.map_cons, List.sum_cons, ih, total]

private theorem coalesced_placed (h : Coalesced cells) (o : Nat) :
    (placed o cells).IsChain fun b d => ¬ (b.free = true ∧ d.free = true) := by
  induction cells generalizing o with
  | nil => exact List.IsChain.nil
  | cons c cells ih =>
    obtain ⟨hhead, htail⟩ := List.isChain_cons.mp h
    rw [placed, List.isChain_cons]
    refine ⟨?_, ih htail _⟩
    intro d hd
    cases cells with
    | nil => cases hd
    | cons e cells =>
      obtain rfl : _ = d := by simpa [placed] using hd
      exact hhead e rfl

private theorem disjoint_placed (cells : List cell_t) (o : Nat) : (placed o cells).Pairwise DisjointPayloads := by
  induction cells generalizing o with
  | nil => exact List.Pairwise.nil
  | cons c cells ih =>
    rw [placed, List.pairwise_cons]
    refine ⟨?_, ih _⟩
    intro d hd
    have hbounds := placed_bounds hd
    refine Or.inl ?_
    dsimp only
    omega

/-- Free blocks that are not neighbours of each other are one block. -/
private theorem eq_singleton_of_used (hne : cells ≠ []) (hcoalesced : Coalesced cells) (hused : used cells = []) :
    cells = [{ size := total cells - BLOCK_SIZE, free := true }] := by
  have hfree : ∀ b ∈ placed 0 cells, b.free = true := by
    intro b hb
    have hnot := List.filter_eq_nil_iff.mp hused b hb
    simpa using hnot
  match cells, hne with
  | [c], _ =>
    have hc := hfree { start := 0, size := c.size, free := c.free } (by simp [placed])
    cases c with
    | mk size free =>
      obtain rfl : free = true := hc
      simp [total]
  | c :: d :: rest, _ =>
    have hc := hfree { start := 0, size := c.size, free := c.free } (by simp [placed])
    have hd := hfree { start := 0 + BLOCK_SIZE + c.size, size := d.size, free := d.free } (by simp [placed])
    exact absurd ⟨hc, hd⟩ (List.isChain_cons_cons.mp hcoalesced).1

end Placed

section Calls

variable {c : client_t} {size : Nat} {cells : List cell_t} {owned : List (placed_t × Nat)}

private theorem used_append {pre post : List cell_t} :
    used (pre ++ post) = used pre ++ (placed (total pre) post).filter fun b => !b.free := by
  rw [used, placed_append, List.filter_append, Nat.zero_add]
  rfl

/-- Taking a block out of the free block `c` adds it to the blocks in use. -/
private theorem used_taken (pre post : List cell_t) {d : cell_t} {n : Nat} (hfree : d.free = true) (hn : n ≤ d.size) :
    ∃ b : placed_t, b.start = total pre ∧ n ≤ b.size ∧ b.size ≤ n + BLOCK_SIZE ∧
      (used (pre ++ taken d.size n ++ post)).Perm (b :: used (pre ++ d :: post)) := by
  have hplace : (placed (total (pre ++ taken d.size n)) post) = placed (total pre + BLOCK_SIZE + d.size) post := by
    rw [total_append, total_taken, Nat.add_assoc]
  rw [used_append, used_append, used_append, hplace, placed, List.filter_cons_of_neg (by simp [hfree])]
  unfold taken
  split_ifs with hsplit
  · refine ⟨{ start := total pre, size := n, free := false }, rfl, Nat.le_refl n, Nat.le_add_right n BLOCK_SIZE, ?_⟩
    simp only [placed, Bool.not_false, List.filter_cons_of_pos, Bool.not_true, Bool.false_eq_true,
      not_false_eq_true, List.filter_cons_of_neg, List.filter_nil, List.append_assoc]
    exact List.perm_middle
  · refine ⟨{ start := total pre, size := d.size, free := false }, rfl, hn, Nat.le_of_not_lt hsplit, ?_⟩
    simp only [placed, Bool.not_false, List.filter_cons_of_pos, List.filter_nil, List.append_assoc]
    exact List.perm_middle

/-- `PoolAllocate` by the client. A block that it gets has at most the room of another
header to spare. -/
theorem Holds.allocate (h : Holds c size cells owned) (n : UInt64) :
    ∃ c' cells' owned', call c (.allocate n) = some c' ∧ Holds c' size cells' owned' ∧
      (owned' = owned ∨ ∃ b, owned' = (b, n.toNat) :: owned ∧ b.size ≤ n.toNat + BLOCK_SIZE) := by
  rcases h.represents.allocate n.toNat with hnone | ⟨pre, d, post, pool', rfl, hfree, hn, hrun, hrep, hsize⟩
  · refine ⟨c, cells, owned, ?_, h, Or.inl rfl⟩
    simp [call, hnone]
  · obtain ⟨b, hstart, hb, hslack, hperm⟩ := used_taken pre post hfree hn
    refine ⟨{ pool := pool', live := (total pre + BLOCK_SIZE, n.toNat) :: c.live }, _, (b, n.toNat) :: owned, ?_,
      ⟨hrep, ?_, ?_, ?_, ?_⟩, Or.inr ⟨b, rfl, hslack⟩⟩
    · simp [call, hrun]
    · dsimp only
      rw [hsize, h.size]
    · rw [List.map_cons, ← h.live, pointer, hstart]
    · intro o ho
      rcases List.mem_cons.mp ho with rfl | ho
      · exact hb
      · exact h.enough o ho
    · rw [List.map_cons]
      exact (h.blocks.cons b).trans hperm.symm

/-- `PoolFree` of a pointer the client holds, or of `NULL`. -/
theorem Holds.free (h : Holds c size cells owned) (index : Nat) :
    ∃ c' cells' owned', call c (.free index) = some c' ∧ Holds c' size cells' owned' ∧ owned' ⊆ owned := by
  have hget : c.live[index]?.map Prod.fst = owned[index]?.map fun o => o.1.start + BLOCK_SIZE := by
    rw [h.live, List.getElem?_map, Option.map_map]
    rfl
  by_cases hlt : index < owned.length
  · have hmem : owned[index].1 ∈ used cells :=
      h.blocks.mem_iff.mp (List.mem_map.mpr ⟨owned[index], List.getElem_mem hlt, rfl⟩)
    obtain ⟨pool', cells', hrun, hrep, hperm, hsize⟩ := h.represents.release hmem
    refine ⟨{ pool := pool', live := c.live.eraseIdx index }, cells', owned.eraseIdx index, ?_, ⟨hrep, ?_, ?_, ?_, ?_⟩,
      List.eraseIdx_subset⟩
    · simp only [call, hget, List.getElem?_eq_getElem hlt, Option.map_some, hrun, Option.bind_eq_bind,
        Option.bind_some]
    · dsimp only
      rw [hsize, h.size]
    · dsimp only
      rw [h.live, List.eraseIdx_map]
    · intro o ho
      exact h.enough o (List.mem_of_mem_eraseIdx ho)
    · have hsplit := (List.getElem_cons_eraseIdx_perm hlt).map Prod.fst
      rw [List.map_cons] at hsplit
      exact ((hsplit.trans h.blocks).trans hperm).cons_inv
  · refine ⟨c, cells, owned, ?_, h, List.Subset.refl owned⟩
    have hlive : c.live.eraseIdx index = c.live := by
      apply List.eraseIdx_of_length_le
      rw [h.live, List.length_map]
      omega
    simp [call, hget, List.getElem?_eq_none (Nat.le_of_not_lt hlt), PoolFree, hlive]

theorem holds_create {n : UInt64} (hn : BLOCK_SIZE ≤ n.toNat) :
    ∃ cells, Holds { pool := PoolInit n.toNat, live := [] } n.toNat cells [] := by
  refine ⟨_, PoolInit_represents hn n.toNat_lt, rfl, rfl, ?_, ?_⟩
  · intro o ho
    cases ho
  · simp [used, placed]

/-- Along every sequence of calls the client holds exactly the blocks in use. -/
theorem run_holds {n : UInt64} (hn : BLOCK_SIZE ≤ n.toNat) (calls : List call_t) :
    ∃ c cells owned, run n calls = some c ∧ Holds c n.toNat cells owned := by
  have hruns : ∃ c, run n calls = some c ∧ ∃ cells owned, Holds c n.toNat cells owned := by
    obtain ⟨cells, hinit⟩ := holds_create hn
    refine foldlM_history (fun _ c => ∃ cells owned, Holds c n.toNat cells owned) ⟨cells, [], hinit⟩ ?_
    rintro - k c - ⟨cells, owned, h⟩
    obtain ⟨c', cells', owned', hcall, h'⟩ : ∃ c' cells' owned', call c k = some c' ∧ Holds c' n.toNat cells' owned' := by
      cases k with
      | allocate n =>
        obtain ⟨c', cells', owned', hcall, h', -⟩ := h.allocate n
        exact ⟨c', cells', owned', hcall, h'⟩
      | free index =>
        obtain ⟨c', cells', owned', hcall, h', -⟩ := h.free index
        exact ⟨c', cells', owned', hcall, h'⟩
    exact ⟨c', hcall, cells', owned', h'⟩
  obtain ⟨c, hrun, cells, owned, h⟩ := hruns
  exact ⟨c, cells, owned, hrun, h⟩

end Calls

/-- After every sequence of calls the blocks tile the pool, and the payloads
handed out are disjoint and large enough. No two neighbouring blocks are free,
so the pool is one free block again when everything has been freed. -/
theorem pool_integrity (size : UInt64) (hsize : BLOCK_SIZE ≤ size.toNat) (calls : List call_t) :
    ∃ (c : client_t) (blocks : List placed_t) (owned : List (placed_t × Nat)), run size calls = some c ∧ block_list c.pool = some blocks ∧
      c.pool.PoolSize = size.toNat ∧ Tiles blocks size.toNat ∧
      c.live = owned.map pointer ∧ (owned.map Prod.fst).Perm (blocks.filter fun b => !b.free) ∧
      (∀ o ∈ owned, o.2 ≤ o.1.size ∧ o.1.start + BLOCK_SIZE + o.1.size ≤ size.toNat) ∧
      (owned.map Prod.fst).Pairwise DisjointPayloads ∧
      blocks.IsChain (fun b d => ¬ (b.free = true ∧ d.free = true)) ∧
      (c.live = [] → blocks = [{ start := 0, size := size.toNat - BLOCK_SIZE, free := true }]) := by
  obtain ⟨c, cells, owned, hrun, h⟩ := run_holds hsize calls
  have hrep := h.represents
  have htotal : total cells = size.toNat := by rw [hrep.size, h.size]
  refine ⟨c, placed 0 cells, owned, hrun, hrep.block_list_eq, h.size, ⟨?_, placed_next cells 0, ?_⟩, h.live, h.blocks,
    ?_, ?_, coalesced_placed hrep.coalesced 0, ?_⟩
  · cases hcells : cells with
    | nil => exact absurd hcells hrep.nonempty
    | cons d rest => rfl
  · rw [sum_placed, htotal]
  · intro o ho
    have hmem : o.1 ∈ used cells := h.blocks.mem_iff.mp (List.mem_map.mpr ⟨o, ho, rfl⟩)
    have hbounds := placed_bounds (List.mem_of_mem_filter hmem)
    rw [htotal, Nat.zero_add] at hbounds
    exact ⟨h.enough o ho, hbounds.2⟩
  · refine (h.blocks.pairwise_iff ?_).mpr ((disjoint_placed cells 0).filter _)
    intro b d hbd
    exact hbd.symm
  · intro hlive
    have howned : owned = [] := by simpa [h.live] using hlive
    have hused : used cells = [] := by
      have hperm := h.blocks
      rw [howned] at hperm
      exact hperm.symm.eq_nil
    rw [eq_singleton_of_used hrep.nonempty hrep.coalesced hused, htotal]
    rfl

theorem pool_integrity_demo :
    ∃ (c : client_t) (blocks : List placed_t) (owned : List (placed_t × Nat)), run 128 [.allocate 8, .allocate 40, .free 1, .allocate 0, .free 5] = some c ∧
      block_list c.pool = some blocks ∧
      c.pool.PoolSize = 128 ∧ Tiles blocks 128 ∧
      c.live = owned.map pointer ∧ (owned.map Prod.fst).Perm (blocks.filter fun b => !b.free) ∧
      (∀ o ∈ owned, o.2 ≤ o.1.size ∧ o.1.start + BLOCK_SIZE + o.1.size ≤ 128) ∧
      (owned.map Prod.fst).Pairwise DisjointPayloads ∧
      blocks.IsChain (fun b d => ¬ (b.free = true ∧ d.free = true)) ∧
      (c.live = [] → blocks = [{ start := 0, size := 104, free := true }]) :=
  pool_integrity 128 (by decide) [.allocate 8, .allocate 40, .free 1, .allocate 0, .free 5]

end csystems.memory_pool
