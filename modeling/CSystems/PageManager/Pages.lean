import Mathlib.Algebra.BigOperators.Fin
import Mathlib.Order.Interval.Finset.Nat
import CSystems.Lib.CArray
import CSystems.Lib.Bytes
import CSystems.Lib.Run

open clib.cint clib.run clib.scan

namespace csystems.page_manager

def TOTAL_PAGES : Nat := 16

/-- An entry of the page table. -/
inductive status_t where
  | FREE
  | USED
  deriving DecidableEq, Repr

abbrev page_table_t := Vector status_t TOTAL_PAGES

/-- The lines that the operations print. -/
inductive message_t where
  | invalid_number
  | not_enough
  | allocated (n start : Nat)
  | invalid_range
  | already_free (page : Nat)
  | freed (n start : Nat)
  | page_table (pages : page_table_t) (used : Nat)
  deriving DecidableEq

def init_pages : page_table_t := Vector.replicate TOTAL_PAGES .FREE

/-- The count that `print_page_table` prints. -/
def used (page_table : page_table_t) : Nat := page_table.toList.countP (· = .USED)

def print_page_table (page_table : page_table_t) : message_t := .page_table page_table (used page_table)

/-- The loop of `find_free_block`, `remaining` pages from `i` on. -/
def find_loop (page_table : page_table_t) (n : Int) : Nat → Nat → Int → Option Int
  | 0, _, _ => some (-1)
  | remaining + 1, i, count => do
    let page ← page_table[i]?
    if page = .FREE then
      if count + 1 = n then some (i - n + 1) else find_loop page_table n remaining (i + 1) (count + 1)
    else find_loop page_table n remaining (i + 1) 0

def find_free_block (page_table : page_table_t) (n : Int) : Option Int := find_loop page_table n TOTAL_PAGES 0 0

/-- The loop of `allocate_pages`, `remaining` pages from `i` on. -/
def use_loop : Nat → Nat → page_table_t → Option page_table_t
  | 0, _, page_table => some page_table
  | remaining + 1, i, page_table =>
    if h : i < TOTAL_PAGES then use_loop remaining (i + 1) (page_table.set i .USED h) else none

def allocate_pages (n : Int) (page_table : page_table_t) : Option (page_table_t × List message_t) :=
  if n ≤ 0 ∨ n > TOTAL_PAGES then some (page_table, [.invalid_number])
  else do
    let start ← find_free_block page_table n
    if start = -1 then some (page_table, [.not_enough])
    else
      let page_table ← use_loop n.toNat start.toNat page_table
      some (page_table, [.allocated n.toNat start.toNat, print_page_table page_table])

/-- The loop of `free_pages`, `remaining` pages from `i` on, with its warnings. -/
def free_loop : Nat → Nat → page_table_t → Option (page_table_t × List message_t)
  | 0, _, page_table => some (page_table, [])
  | remaining + 1, i, page_table =>
    if h : i < TOTAL_PAGES then do
      let (page_table', warnings) ← free_loop remaining (i + 1) (page_table.set i .FREE h)
      some (page_table', if page_table[i] = .FREE then .already_free i :: warnings else warnings)
    else none

def free_pages (start n : Int) (page_table : page_table_t) : Option (page_table_t × List message_t) :=
  if start < 0 ∨ start ≥ TOTAL_PAGES ∨ n ≤ 0 then some (page_table, [.invalid_range])
  else do
    let stop ← int (start + n)
    if stop > TOTAL_PAGES then some (page_table, [.invalid_range])
    else
      let (page_table, warnings) ← free_loop n.toNat start.toNat page_table
      some (page_table, warnings ++ [.freed n.toNat start.toNat, print_page_table page_table])

/-- There are `n` free pages from page `start` on. -/
def Room (page_table : page_table_t) (n start : Nat) : Prop :=
  start + n ≤ TOTAL_PAGES ∧ ∀ i : Fin TOTAL_PAGES, start ≤ i.val → i.val < start + n → page_table.get i = .FREE

section Loops

variable {page_table : page_table_t}

/-- The count is that of the free pages just before `i`, as far as they go. -/
theorem find_loop_spec {n remaining i count : Nat} (hlength : i + remaining = TOTAL_PAGES) (hcount : count < n)
    (hle : count ≤ i) (hrun : ∀ j : Fin TOTAL_PAGES, i - count ≤ j.val → j.val < i → page_table.get j = .FREE)
    (hstop : ∀ j : Fin TOTAL_PAGES, j.val + count + 1 = i → page_table.get j = .USED)
    (hnone : ∀ start, start + n ≤ i → ¬ Room page_table n start) :
    ∃ result, find_loop page_table n remaining i count = some result ∧
      (result = -1 ∧ (∀ start, ¬ Room page_table n start) ∨
        ∃ start : Nat, result = start ∧ Room page_table n start ∧ ∀ before < start, ¬ Room page_table n before) := by
  induction remaining generalizing i count with
  | zero => exact ⟨-1, rfl, Or.inl ⟨rfl, fun start hroom => hnone start (by have hend := hroom.1; omega) hroom⟩⟩
  | succ remaining ih =>
    have hi : i < TOTAL_PAGES := by omega
    have hload : page_table[i]? = some (page_table.get ⟨i, hi⟩) := Vector.getElem?_eq_getElem hi
    rw [find_loop, hload, Option.bind_eq_bind, Option.bind_some]
    cases hpage : page_table.get ⟨i, hi⟩ with
    | FREE =>
      have hfree : ∀ j : Fin TOTAL_PAGES, i - count ≤ j.val → j.val < i + 1 → page_table.get j = .FREE := by
        intro j hlow hhigh
        by_cases hlast : j.val = i
        · obtain rfl : j = ⟨i, hi⟩ := Fin.ext hlast
          exact hpage
        · exact hrun j hlow (by omega)
      rw [if_pos rfl]
      by_cases hfound : count + 1 = n
      · rw [if_pos (by omega)]
        refine ⟨_, rfl, Or.inr ⟨i - count, by omega, ⟨by omega, fun j hlow hhigh => hfree j hlow (by omega)⟩, ?_⟩⟩
        exact fun before hbefore => hnone before (by omega)
      · rw [if_neg (by omega)]
        have hcast : (count : Int) + 1 = (count + 1 : Nat) := rfl
        rw [hcast]
        refine ih (by omega) (by omega) (by omega) (fun j hlow hhigh => hfree j (by omega) hhigh) ?_ ?_
        · exact fun j hj => hstop j (by omega)
        · intro start hstart hroom
          by_cases hlast : start + n ≤ i
          · exact hnone start hlast hroom
          · -- the page before the run would have to be free
            have hbefore : i - count - 1 < TOTAL_PAGES := by omega
            have hused := hstop ⟨i - count - 1, hbefore⟩ (by dsimp only; omega)
            rw [hroom.2 ⟨i - count - 1, hbefore⟩ (by dsimp only; omega) (by dsimp only; omega)] at hused
            cases hused
    | USED =>
      have hcast : (0 : Int) = (0 : Nat) := rfl
      rw [if_neg (by decide), hcast]
      refine ih (by omega) (by omega) (Nat.zero_le _) (fun j hlow hhigh => by omega) ?_ ?_
      · intro j hj
        obtain rfl : j = ⟨i, hi⟩ := Fin.ext (by dsimp only; omega)
        exact hpage
      · intro start hstart hroom
        by_cases hlast : start + n ≤ i
        · exact hnone start hlast hroom
        · rw [hroom.2 ⟨i, hi⟩ (by dsimp only; omega) (by dsimp only; omega)] at hpage
          cases hpage

/-- `find_free_block` finds the first place with room, if there is one. -/
theorem find_free_block_spec (page_table : page_table_t) {n : Nat} (hn : 0 < n) :
    ∃ result, find_free_block page_table n = some result ∧
      (result = -1 ∧ (∀ start, ¬ Room page_table n start) ∨
        ∃ start : Nat, result = start ∧ Room page_table n start ∧ ∀ before < start, ¬ Room page_table n before) :=
  find_loop_spec (Nat.zero_add _) hn (Nat.le_refl 0) (fun j _ hhigh => absurd hhigh (Nat.not_lt_zero _))
    (fun j hj => by omega) (fun start hstart => by omega)

theorem use_loop_spec (page_table : page_table_t) {remaining i : Nat} (hend : i + remaining ≤ TOTAL_PAGES) :
    ∃ page_table', use_loop remaining i page_table = some page_table' ∧
      ∀ j : Fin TOTAL_PAGES, page_table'.get j =
        if i ≤ j.val ∧ j.val < i + remaining then .USED else page_table.get j := by
  induction remaining generalizing i page_table with
  | zero => exact ⟨page_table, rfl, fun j => (if_neg (by omega)).symm⟩
  | succ remaining ih =>
    have hi : i < TOTAL_PAGES := by omega
    obtain ⟨page_table', hrun, hget⟩ := @ih (page_table.set i .USED hi) (i + 1) (by omega)
    refine ⟨page_table', by rw [use_loop, dif_pos hi, hrun], fun j => ?_⟩
    have hset := get_set_fin page_table ⟨i, hi⟩ j .USED
    rw [hget, hset]
    by_cases hj : (⟨i, hi⟩ : Fin TOTAL_PAGES) = j
    · obtain rfl := hj
      rw [if_pos rfl, ite_self, if_pos (by dsimp only; omega)]
    · have hne : j.val ≠ i := fun heq => hj (Fin.ext heq.symm)
      rw [if_neg hj]
      exact if_congr (by omega) rfl rfl

/-- The warnings are for the pages that were free already. -/
theorem free_loop_spec (page_table : page_table_t) {remaining i : Nat} (hend : i + remaining ≤ TOTAL_PAGES) :
    ∃ page_table' warnings, free_loop remaining i page_table = some (page_table', warnings) ∧
      (∀ j : Fin TOTAL_PAGES, page_table'.get j =
        if i ≤ j.val ∧ j.val < i + remaining then .FREE else page_table.get j) ∧
      ((∀ j : Fin TOTAL_PAGES, i ≤ j.val → j.val < i + remaining → page_table.get j = .USED) → warnings = []) := by
  induction remaining generalizing i page_table with
  | zero => exact ⟨page_table, [], rfl, fun j => (if_neg (by omega)).symm, fun _ => rfl⟩
  | succ remaining ih =>
    have hi : i < TOTAL_PAGES := by omega
    have hset (j : Fin TOTAL_PAGES) := get_set_fin page_table ⟨i, hi⟩ j .FREE
    obtain ⟨page_table', warnings, hrun, hget, hquiet⟩ := @ih (page_table.set i .FREE hi) (i + 1) (by omega)
    refine ⟨page_table', _, by rw [free_loop, dif_pos hi, hrun]; rfl, fun j => ?_, fun hused => ?_⟩
    · rw [hget, hset]
      by_cases hj : (⟨i, hi⟩ : Fin TOTAL_PAGES) = j
      · obtain rfl := hj
        rw [if_pos rfl, ite_self, if_pos (by dsimp only; omega)]
      · have hne : j.val ≠ i := fun heq => hj (Fin.ext heq.symm)
        rw [if_neg hj]
        exact if_congr (by omega) rfl rfl
    · have hfirst : page_table[i] = .USED := hused ⟨i, hi⟩ (Nat.le_refl i) (by dsimp only; omega)
      rw [hfirst, if_neg (by decide)]
      refine hquiet fun j hlow hhigh => ?_
      have hne : (⟨i, hi⟩ : Fin TOTAL_PAGES) ≠ j := fun heq => by
        obtain rfl := heq
        dsimp only at hlow
        omega
      rw [hset, if_neg hne]
      exact hused j (by omega) (by omega)

end Loops

section Client

/-- The block that an allocation tells of. -/
def allocated_block : List message_t → Option (Nat × Nat)
  | .allocated n start :: _ => some (start, n)
  | _ => none

/-- The user's side: the blocks that were announced and not freed, and what was printed. -/
structure client_t where
  page_table : page_table_t
  live : List (Nat × Nat)
  output : List message_t

/-- The requests of a user who frees blocks that were announced, by their place in
`live`. -/
inductive call_t where
  | allocate (n : Int)
  | free (index : Nat)
  deriving DecidableEq

def call (c : client_t) : call_t → Option client_t
  | .allocate n => do
    let (page_table, messages) ← allocate_pages n c.page_table
    some { page_table := page_table
           live := (allocated_block messages).toList ++ c.live
           output := c.output ++ messages }
  | .free index =>
    match c.live[index]? with
    | none => some c
    | some block => do
      let (page_table, messages) ← free_pages block.1 block.2 c.page_table
      some { page_table := page_table, live := c.live.eraseIdx index, output := c.output ++ messages }

def run (calls : List call_t) : Option client_t :=
  calls.foldlM call { page_table := init_pages, live := [], output := [] }

/-- The page is one of the block. -/
def covers (page : Nat) (block : Nat × Nat) : Bool := block.1 ≤ page && page < block.1 + block.2

/-- Every used page belongs to one live block, and no free page to any. -/
structure Owned (c : client_t) : Prop where
  once : ∀ i : Fin TOTAL_PAGES, c.live.countP (covers i.val) = if c.page_table.get i = .USED then 1 else 0
  within : ∀ block ∈ c.live, 0 < block.2 ∧ block.1 + block.2 ≤ TOTAL_PAGES
  no_warning : ∀ page, .already_free page ∉ c.output
  in_range : .invalid_range ∉ c.output

theorem covers_iff (page : Nat) (block : Nat × Nat) :
    covers page block = true ↔ block.1 ≤ page ∧ page < block.1 + block.2 := by simp [covers]

/-- Requests that are not for a number of pages are turned down. -/
theorem allocate_pages_invalid {n : Int} (hn : n ≤ 0 ∨ n > TOTAL_PAGES) (page_table : page_table_t) :
    allocate_pages n page_table = some (page_table, [.invalid_number]) := if_pos hn

/-- `allocate_pages` takes the first place with room, if there is one. -/
theorem allocate_pages_cases {n : Nat} (hn : 0 < n) (hle : n ≤ TOTAL_PAGES) (page_table : page_table_t) :
    ((∀ start, ¬ Room page_table n start) ∧ allocate_pages n page_table = some (page_table, [.not_enough])) ∨
    ∃ start page_table', Room page_table n start ∧ (∀ before < start, ¬ Room page_table n before) ∧
      allocate_pages n page_table = some (page_table', [.allocated n start, print_page_table page_table']) ∧
      ∀ i : Fin TOTAL_PAGES, page_table'.get i = if covers i.val (start, n) then .USED else page_table.get i := by
  have hvalid : ¬ ((n : Int) ≤ 0 ∨ (n : Int) > TOTAL_PAGES) := by omega
  obtain ⟨result, hfind, ⟨rfl, hnone⟩ | ⟨start, rfl, hroom, hfirst⟩⟩ := find_free_block_spec page_table hn
  · refine Or.inl ⟨hnone, ?_⟩
    rw [allocate_pages, if_neg hvalid, hfind]
    rfl
  · obtain ⟨page_table', hrun, hget⟩ := use_loop_spec page_table hroom.1
    refine Or.inr ⟨start, page_table', hroom, hfirst, ?_, fun i => ?_⟩
    · have hstart : (start : Int) ≠ -1 := by omega
      rw [allocate_pages, if_neg hvalid, hfind, Option.bind_eq_bind, Option.bind_some, if_neg hstart, Int.toNat_natCast,
        Int.toNat_natCast, hrun]
      rfl
    · have hcovers : (start ≤ i.val ∧ i.val < start + n) ↔ covers i.val (start, n) = true :=
        (covers_iff i.val (start, n)).symm
      rw [hget i]
      exact if_congr hcovers rfl rfl

/-- Freeing used pages prints no warning. -/
theorem free_pages_used {start n : Nat} (hn : 0 < n) (hend : start + n ≤ TOTAL_PAGES) {page_table : page_table_t}
    (hused : ∀ i : Fin TOTAL_PAGES, covers i.val (start, n) = true → page_table.get i = .USED) :
    ∃ page_table', free_pages start n page_table = some (page_table', [.freed n start, print_page_table page_table']) ∧
      ∀ i : Fin TOTAL_PAGES, page_table'.get i = if covers i.val (start, n) then .FREE else page_table.get i := by
  have hpages : TOTAL_PAGES = 16 := rfl
  have hvalid : ¬ ((start : Int) < 0 ∨ (start : Int) ≥ TOTAL_PAGES ∨ (n : Int) ≤ 0) := by omega
  have hstop : int ((start : Int) + n) = some ((start : Int) + n) := int_eq (by omega) (by omega)
  have hfits : ¬ (start : Int) + n > TOTAL_PAGES := by omega
  obtain ⟨page_table', warnings, hrun, hget, hquiet⟩ := free_loop_spec page_table hend
  obtain rfl := hquiet fun j hlow hhigh => hused j ((covers_iff j.val (start, n)).mpr ⟨hlow, hhigh⟩)
  refine ⟨page_table', ?_, fun i => ?_⟩
  · rw [free_pages, if_neg hvalid, hstop, Option.bind_eq_bind, Option.bind_some, if_neg hfits, Int.toNat_natCast,
      Int.toNat_natCast, hrun]
    rfl
  · have hcovers : (start ≤ i.val ∧ i.val < start + n) ↔ covers i.val (start, n) = true :=
      (covers_iff i.val (start, n)).symm
    rw [hget i]
    exact if_congr hcovers rfl rfl

theorem Owned.allocate {c : client_t} (h : Owned c) (n : Int) : ∃ c', call c (.allocate n) = some c' ∧ Owned c' := by
  by_cases hvalid : n ≤ 0 ∨ n > TOTAL_PAGES
  · refine ⟨{ c with output := c.output ++ [.invalid_number] }, ?_, h.once, h.within, ?_, ?_⟩
    · rw [call, allocate_pages_invalid hvalid]
      rfl
    · simpa using h.no_warning
    · simpa using h.in_range
  · obtain ⟨m, rfl⟩ := Int.eq_ofNat_of_zero_le (show 0 ≤ n by omega)
    obtain ⟨-, heq⟩ | ⟨start, page_table', hroom, -, heq, hget⟩ :=
      allocate_pages_cases (n := m) (by omega) (by omega) c.page_table
    · refine ⟨{ c with output := c.output ++ [.not_enough] }, ?_, h.once, h.within, ?_, ?_⟩
      · rw [call, heq]
        rfl
      · simpa using h.no_warning
      · simpa using h.in_range
    · refine ⟨⟨page_table', (start, m) :: c.live, c.output ++ [.allocated m start, print_page_table page_table']⟩, ?_,
        fun i => ?_, ?_, ?_, ?_⟩
      · rw [call, heq]
        rfl
      · have hold := h.once i
        rw [List.countP_cons, hget i, hold]
        cases hcovers : covers i.val (start, m) with
        | true =>
          obtain ⟨hlow, hhigh⟩ := (covers_iff i.val (start, m)).mp hcovers
          rw [hroom.2 i hlow hhigh]
          rfl
        | false => rfl
      · exact List.forall_mem_cons.mpr ⟨⟨by omega, hroom.1⟩, h.within⟩
      · simpa [print_page_table] using h.no_warning
      · simpa [print_page_table] using h.in_range

theorem Owned.free {c : client_t} (h : Owned c) (index : Nat) : ∃ c', call c (.free index) = some c' ∧ Owned c' := by
  by_cases hindex : index < c.live.length
  · have hget := List.getElem?_eq_getElem hindex
    obtain ⟨hpos, hend⟩ := h.within _ (List.getElem_mem hindex)
    have hcount (i : Fin TOTAL_PAGES) : c.live.countP (covers i.val) =
        (if covers i.val c.live[index] then 1 else 0) + (c.live.eraseIdx index).countP (covers i.val) := by
      rw [← (List.getElem_cons_eraseIdx_perm hindex).countP_eq, List.countP_cons, Nat.add_comm]
    have hused (i : Fin TOTAL_PAGES) (hcovers : covers i.val c.live[index] = true) : c.page_table.get i = .USED := by
      have hone := hcount i
      rw [h.once i, hcovers] at hone
      by_contra hfree
      rw [if_neg hfree, if_pos rfl] at hone
      omega
    obtain ⟨page_table', heq, hget'⟩ := free_pages_used hpos hend hused
    refine ⟨⟨page_table', c.live.eraseIdx index,
      c.output ++ [.freed c.live[index].2 c.live[index].1, print_page_table page_table']⟩, ?_, fun i => ?_,
      fun block hblock => h.within block (List.mem_of_mem_eraseIdx hblock), ?_, ?_⟩
    · simp only [call, hget, heq, Option.bind_eq_bind, Option.bind_some]
    · have hone := hcount i
      rw [h.once i] at hone
      rw [hget' i]
      cases hcovers : covers i.val c.live[index] with
      | true =>
        rw [hused i hcovers, hcovers] at hone
        simp only [if_true] at hone ⊢
        rw [if_neg (by decide)]
        omega
      | false =>
        rw [hcovers] at hone
        simp only [Bool.false_eq_true, if_false] at hone ⊢
        omega
    · simpa [print_page_table] using h.no_warning
    · simpa [print_page_table] using h.in_range
  · refine ⟨c, ?_, h⟩
    rw [call, List.getElem?_eq_none (Nat.le_of_not_lt hindex)]

theorem run_owned (calls : List call_t) : ∃ c, run calls = some c ∧ Owned c := by
  refine foldlM_history (fun _ c => Owned c) ⟨fun i => ?_, by simp, by simp, by simp⟩ ?_
  · have hfree : init_pages.get i = .FREE := by
      revert i
      decide
    rw [hfree]
    rfl
  · rintro - k c - h
    cases k with
    | allocate n => exact h.allocate n
    | free index => exact h.free index

section Count

private theorem countP_eq_sum {α : Type} (p : α → Bool) (xs : List α) :
    xs.countP p = (xs.map fun x => if p x then 1 else 0).sum := by
  induction xs with
  | nil => rfl
  | cons x xs ih => rw [List.countP_cons, ih, List.map_cons, List.sum_cons, Nat.add_comm]

theorem used_eq_sum (page_table : page_table_t) :
    used page_table = ∑ i : Fin TOTAL_PAGES, if page_table.get i = .USED then 1 else 0 := by
  have hlist : page_table.toList = List.ofFn page_table.get := by
    refine List.ext_getElem (by simp) fun i hi hi' => ?_
    rw [List.getElem_ofFn, Vector.getElem_toList]
    rfl
  rw [used, countP_eq_sum, hlist, List.map_ofFn, List.sum_ofFn]
  simp

theorem size_eq_sum {block : Nat × Nat} (hend : block.1 + block.2 ≤ TOTAL_PAGES) :
    block.2 = ∑ i : Fin TOTAL_PAGES, if covers i.val block then 1 else 0 := by
  have hpages : (Finset.range TOTAL_PAGES).filter (fun i => covers i block = true) =
      Finset.Ico block.1 (block.1 + block.2) := by
    ext i
    rw [Finset.mem_filter, Finset.mem_range, Finset.mem_Ico, covers_iff]
    omega
  rw [Fin.sum_univ_eq_sum_range (fun i => if covers i block = true then 1 else 0) TOTAL_PAGES, ← Finset.card_filter,
    hpages, Nat.card_Ico, Nat.add_sub_cancel_left]

/-- The used pages are those of the live blocks. -/
theorem Owned.used_eq {c : client_t} (h : Owned c) : used c.page_table = (c.live.map Prod.snd).sum := by
  have hcount (live : List (Nat × Nat)) (hwithin : ∀ block ∈ live, 0 < block.2 ∧ block.1 + block.2 ≤ TOTAL_PAGES) :
      ∑ i : Fin TOTAL_PAGES, live.countP (covers i.val) = (live.map Prod.snd).sum := by
    induction live with
    | nil => simp
    | cons block live ih =>
      obtain ⟨hblock, hrest⟩ := List.forall_mem_cons.mp hwithin
      simp only [List.countP_cons, Finset.sum_add_distrib, ih hrest, List.map_cons, List.sum_cons,
        ← size_eq_sum hblock.2, Nat.add_comm]
  rw [used_eq_sum, ← hcount c.live h.within]
  exact Finset.sum_congr rfl fun i _ => (h.once i).symm

end Count

/-- After every sequence of allocations and of frees of announced blocks: a used page is
in exactly one live block and a free page in none, so the count that is printed is the
sum of the live blocks; no page was ever free already; and the next request is turned
down exactly where no place has room, and else gets the first place that has. -/
theorem pages_owned_once (calls : List call_t) :
    ∃ c, run calls = some c ∧
      (∀ i : Fin TOTAL_PAGES, c.live.countP (covers i.val) = if c.page_table.get i = .USED then 1 else 0) ∧
      used c.page_table = (c.live.map Prod.snd).sum ∧
      (∀ page, .already_free page ∉ c.output) ∧ .invalid_range ∉ c.output ∧
      ∀ n, 0 < n → n ≤ TOTAL_PAGES → ∃ c', run (calls ++ [.allocate n]) = some c' ∧
        (c'.live = c.live ↔ ∀ start, ¬ Room c.page_table n start) ∧
        ∀ start, Room c.page_table n start → (∀ before < start, ¬ Room c.page_table n before) →
          c'.live = (start, n) :: c.live := by
  obtain ⟨c, hrun, h⟩ := run_owned calls
  refine ⟨c, hrun, h.once, h.used_eq, h.no_warning, h.in_range, fun n hn hle => ?_⟩
  have hnext : run (calls ++ [.allocate n]) = call c (.allocate n) := by
    rw [run, List.foldlM_append, ← run, hrun]
    simp
  obtain ⟨hnone, heq⟩ | ⟨start, page_table', hroom, hfirst, heq, -⟩ := allocate_pages_cases hn hle c.page_table
  · refine ⟨{ c with output := c.output ++ [.not_enough] }, ?_, iff_of_true rfl hnone,
      fun start hroom => absurd hroom (hnone start)⟩
    rw [hnext, call, heq]
    rfl
  · refine ⟨⟨page_table', (start, n) :: c.live, c.output ++ [.allocated n start, print_page_table page_table']⟩, ?_, ?_,
      fun other hother hleast => ?_⟩
    · rw [hnext, call, heq]
      rfl
    · exact iff_of_false (List.cons_ne_self _ _) fun hnone => hnone start hroom
    · obtain hlt | heq | hgt := Nat.lt_trichotomy start other
      · exact absurd hroom (hleast start hlt)
      · rw [heq]
      · exact absurd hother (hfirst other hgt)

end Client

end csystems.page_manager
