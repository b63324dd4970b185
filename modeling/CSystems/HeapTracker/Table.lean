import CSystems.Lib.CString
import CSystems.Lib.Run

open clib.run clib.string

namespace csystems.heap_tracker

def MAX_ALLOCATIONS : Nat := 1000

/-- `NULL`. -/
def NULL : UInt64 := 0

structure Allocation where
  ptr : UInt64
  size : UInt64
  tag : Vector UInt8 100

/-- A block of the allocator, with its size in bytes. -/
structure block_t where
  address : UInt64
  size : UInt64
  deriving DecidableEq

/-- The static variables, with the blocks that `malloc` handed out and `free` did
not get back. -/
structure state_t where
  allocations : Vector Allocation MAX_ALLOCATIONS
  AllocationCount : Nat
  live : List block_t

def initial : state_t where
  allocations := Vector.replicate MAX_ALLOCATIONS ⟨NULL, 0, Vector.replicate 100 0⟩
  AllocationCount := 0
  live := []

/-- The blocks without the one at the pointer. -/
def released (ptr : UInt64) (blocks : List block_t) : List block_t := blocks.filter fun block => block.address ≠ ptr

/-- `malloc` that answers with `ptr`. -/
def malloc (ptr size : UInt64) (live : List block_t) : List block_t :=
  if ptr = NULL then live else ⟨ptr, size⟩ :: live

/-- `free`, which is only defined on live blocks and `NULL`. -/
def free (ptr : UInt64) (live : List block_t) : Option (List block_t) :=
  if ptr = NULL then some live
  else if ptr ∈ live.map block_t.address then some (released ptr live)
  else none

/-- The operator `!` on a pointer. -/
def not_ptr (ptr : UInt64) : UInt64 := if ptr = NULL then 1 else 0

/-- `HeapAllocate` when `malloc` answers with `ptr`. -/
def HeapAllocate (ptr size : UInt64) (tag : List UInt8) (s : state_t) : state_t × UInt64 :=
  let s := { s with live := malloc ptr size s.live }
  -- `!ptr == NULL` compares `!ptr`
  if not_ptr ptr = NULL then (s, NULL)
  else if h : s.AllocationCount < MAX_ALLOCATIONS then
    let tag := (strncpy s.allocations[s.AllocationCount].tag tag 31).set 64 0
    ({ s with
      allocations := s.allocations.set s.AllocationCount ⟨ptr, size, tag⟩
      AllocationCount := s.AllocationCount + 1 }, ptr)
  else (s, ptr)

/-- The loop of `HeapFree` from entry `i` on. -/
def free_loop (ptr : UInt64) (s : state_t) (i : Nat) : Option state_t :=
  if i < s.AllocationCount then do
    let allocation ← s.allocations[i]?
    if allocation.ptr = ptr then
      let live ← free ptr s.live
      let last ← s.allocations[s.AllocationCount - 1]?
      some { allocations := s.allocations.setIfInBounds i last
             AllocationCount := s.AllocationCount - 1
             live := live }
    else free_loop ptr s (i + 1)
  else some s
termination_by s.AllocationCount - i

def HeapFree (ptr : UInt64) (s : state_t) : Option state_t := free_loop ptr s 0

/-- A call, with the answer of `malloc`. -/
inductive call_t where
  | HeapAllocate (size : UInt64) (tag : List UInt8) (answer : UInt64)
  | HeapFree (ptr : UInt64)

/-- A call, with the pointer that an allocation returns. -/
def call (s : state_t) : call_t → Option (state_t × Option UInt64)
  | .HeapAllocate size tag answer =>
    let (s, ptr) := HeapAllocate answer size tag s
    some (s, some ptr)
  | .HeapFree ptr => (HeapFree ptr s).map (·, none)

/-- The entries in use. -/
def state_t.entries (s : state_t) : List Allocation := s.allocations.toList.take s.AllocationCount

/-- What the entries in use say about blocks. -/
def state_t.tracked (s : state_t) : List block_t := s.entries.map fun a => ⟨a.ptr, a.size⟩

/-- The entries are the live blocks, each once. -/
def TableExact (s : state_t) : Prop := s.tracked.Perm s.live

/-- What a call should do: an allocation returns what `malloc` answered, and `HeapFree`
releases a block and removes its entry exactly when the block is live. -/
def Meets (s : state_t) (c : call_t) (s' : state_t) (result : Option UInt64) : Prop :=
  TableExact s' ∧
    match c with
    | .HeapAllocate _ _ answer => result = some answer
    | .HeapFree ptr =>
      if ptr ∈ s.live.map block_t.address then
        s'.live = released ptr s.live ∧ s'.tracked.Perm (released ptr s.tracked)
      else s'.live = s.live ∧ s'.tracked = s.tracked

/-- Every call of the sequence goes through and does what it should. -/
def AllMeet : state_t → List call_t → Prop
  | _, [] => True
  | s, c :: calls => ∃ s' result, call s c = some (s', result) ∧ Meets s c s' result ∧ AllMeet s' calls

def call_t.IsFree : call_t → Prop
  | .HeapAllocate _ _ _ => False
  | .HeapFree _ => True

section Step

variable {s : state_t}

theorem not_ptr_eq_null_iff (ptr : UInt64) : not_ptr ptr = NULL ↔ ptr ≠ NULL := by
  by_cases hptr : ptr = NULL
  · rw [not_ptr, if_pos hptr]
    exact iff_of_false (by decide) (not_not_intro hptr)
  · rw [not_ptr, if_neg hptr]
    exact iff_of_true rfl hptr

/-- A block that `malloc` hands out is lost. -/
theorem HeapAllocate_of_ne {answer : UInt64} (hanswer : answer ≠ NULL) (size : UInt64) (tag : List UInt8) :
    HeapAllocate answer size tag s = ({ s with live := ⟨answer, size⟩ :: s.live }, NULL) := by
  rw [HeapAllocate, if_pos ((not_ptr_eq_null_iff answer).mpr hanswer), malloc, if_neg hanswer]

/-- An entry is made when `malloc` fails. -/
theorem HeapAllocate_null (hroom : s.AllocationCount < MAX_ALLOCATIONS) (size : UInt64) (tag : List UInt8) :
    ∃ tag', HeapAllocate NULL size tag s =
      ({ s with
        allocations := s.allocations.set s.AllocationCount ⟨NULL, size, tag'⟩
        AllocationCount := s.AllocationCount + 1 }, NULL) := by
  rw [HeapAllocate, if_neg (mt (not_ptr_eq_null_iff NULL).mp (not_not_intro rfl)), dif_pos hroom]
  exact ⟨_, rfl⟩

theorem HeapAllocate_null_full (hfull : ¬s.AllocationCount < MAX_ALLOCATIONS) (size : UInt64) (tag : List UInt8) :
    HeapAllocate NULL size tag s = (s, NULL) := by
  rw [HeapAllocate, if_neg (mt (not_ptr_eq_null_iff NULL).mp (not_not_intro rfl)), dif_neg hfull]
  rfl

end Step

/-- No entry is for a block. -/
structure NullOnly (s : state_t) : Prop where
  count_le : s.AllocationCount ≤ MAX_ALLOCATIONS
  null : ∀ i < s.AllocationCount, ∀ a, s.allocations[i]? = some a → a.ptr = NULL

section NullOnly

variable {s : state_t}

theorem initial_null_only : NullOnly initial := ⟨Nat.zero_le _, fun i hi => absurd hi (Nat.not_lt_zero i)⟩

/-- Every allocation returns `NULL`, also where `malloc` has a block. -/
theorem NullOnly.HeapAllocate (h : NullOnly s) (answer size : UInt64) (tag : List UInt8) :
    ∃ s', HeapAllocate answer size tag s = (s', NULL) ∧ NullOnly s' ∧ s'.live = malloc answer size s.live := by
  by_cases hanswer : answer = NULL
  · subst hanswer
    by_cases hroom : s.AllocationCount < MAX_ALLOCATIONS
    · obtain ⟨tag', hallocate⟩ := HeapAllocate_null hroom size tag
      refine ⟨_, hallocate, ⟨hroom, ?_⟩, rfl⟩
      intro i hi a ha
      dsimp only at hi ha
      rw [Vector.getElem?_set] at ha
      split at ha
      · rw [← Option.some.inj ha]
      · exact h.null i (by omega) a ha
    · exact ⟨s, HeapAllocate_null_full hroom size tag, h, rfl⟩
  · refine ⟨_, HeapAllocate_of_ne hanswer size tag, ⟨h.count_le, h.null⟩, ?_⟩
    rw [malloc, if_neg hanswer]

/-- `free` is only ever called with `NULL`. -/
theorem NullOnly.free_loop (h : NullOnly s) (ptr : UInt64) (i : Nat) :
    ∃ s', free_loop ptr s i = some s' ∧ NullOnly s' ∧ s'.live = s.live := by
  have hget {j : Nat} (hj : j < s.AllocationCount) : ∃ a, s.allocations[j]? = some a ∧ a.ptr = NULL := by
    have hlt : j < MAX_ALLOCATIONS := Nat.lt_of_lt_of_le hj h.count_le
    exact ⟨s.allocations[j], Vector.getElem?_eq_getElem hlt, h.null j hj _ (Vector.getElem?_eq_getElem hlt)⟩
  generalize hk : s.AllocationCount - i = k
  induction k generalizing i with
  | zero =>
    rw [heap_tracker.free_loop, if_neg (by omega)]
    exact ⟨s, rfl, h, rfl⟩
  | succ k ih =>
    obtain ⟨a, ha, hnull⟩ := hget (show i < s.AllocationCount by omega)
    rw [heap_tracker.free_loop, if_pos (by omega), ha, Option.bind_eq_bind, Option.bind_some]
    split
    · next hptr =>
      obtain ⟨last, hlast, hlast_null⟩ := hget (show s.AllocationCount - 1 < s.AllocationCount by omega)
      have hfree : free ptr s.live = some s.live := if_pos (hptr.symm.trans hnull)
      rw [hfree, hlast]
      refine ⟨_, rfl, ⟨?_, ?_⟩, rfl⟩
      · have hle := h.count_le
        dsimp only
        omega
      · intro j hj b hb
        dsimp only at hj hb
        rw [Vector.getElem?_setIfInBounds] at hb
        split at hb
        · split at hb
          · rwa [← Option.some.inj hb]
          · cases hb
        · exact h.null j (by omega) b hb
    · exact ih (i + 1) (by omega)

/-- What a call does to the blocks that are live. -/
def call_t.hand_out (live : List block_t) : call_t → List block_t
  | .HeapAllocate size _ answer => malloc answer size live
  | .HeapFree _ => live

theorem NullOnly.call (h : NullOnly s) (c : call_t) :
    ∃ s' result, call s c = some (s', result) ∧ NullOnly s' ∧ s'.live = c.hand_out s.live ∧
      ∀ ptr, result = some ptr → ptr = NULL := by
  cases c with
  | HeapAllocate size tag answer =>
    obtain ⟨s', hallocate, hnull, hlive⟩ := h.HeapAllocate answer size tag
    exact ⟨s', some NULL, by rw [heap_tracker.call, hallocate], hnull, hlive,
      fun _ hptr => (Option.some.inj hptr).symm⟩
  | HeapFree ptr =>
    obtain ⟨s', hfree, hnull, hlive⟩ := h.free_loop ptr 0
    exact ⟨s', none, by rw [heap_tracker.call, HeapFree, hfree]; rfl, hnull, hlive, nofun⟩

end NullOnly

/-- In every run all that `malloc` hands out stays live, and no allocation returns it. -/
theorem exec_null_only (calls : List call_t) :
    ∃ s results, exec call initial calls = some (s, results) ∧ NullOnly s ∧
      s.live = calls.foldl call_t.hand_out [] ∧ ∀ ptr, some ptr ∈ results → ptr = NULL := by
  suffices hrun : ∀ s, NullOnly s → ∃ s' results, exec call s calls = some (s', results) ∧ NullOnly s' ∧
      s'.live = calls.foldl call_t.hand_out s.live ∧ ∀ ptr, some ptr ∈ results → ptr = NULL from
    hrun initial initial_null_only
  induction calls with
  | nil => exact fun s h => ⟨s, [], rfl, h, rfl, nofun⟩
  | cons c calls ih =>
    intro s h
    obtain ⟨s₁, result, hcall, h₁, hlive, hresult⟩ := h.call c
    obtain ⟨s₂, results, hexec, h₂, hlive₂, hresults⟩ := ih s₁ h₁
    refine ⟨s₂, result :: results, by rw [exec_cons hcall, hexec]; rfl, h₂, by rw [hlive₂, hlive]; rfl, ?_⟩
    intro ptr hptr
    rcases List.mem_cons.mp hptr with heq | hmem
    · exact hresult ptr heq.symm
    · exact hresults ptr hmem

section Meets

variable {s : state_t}

/-- Freeing where nothing was allocated does what it should, which is nothing. -/
theorem meets_free (hcount : s.AllocationCount = 0) (hlive : s.live = []) (ptr : UInt64) :
    call s (.HeapFree ptr) = some (s, none) ∧ Meets s (.HeapFree ptr) s none := by
  have htracked : s.tracked = [] := by rw [state_t.tracked, state_t.entries, hcount, List.take_zero, List.map_nil]
  refine ⟨?_, ?_, ?_⟩
  · rw [call, HeapFree, free_loop, if_neg (by omega)]
    rfl
  · rw [TableExact, htracked, hlive]
  · dsimp only
    rw [hlive, if_neg (by simp)]
    exact ⟨rfl, rfl⟩

/-- The first allocation loses its block or, when there is none, makes an entry for it. -/
theorem not_meets_allocate (hcount : s.AllocationCount = 0) (hlive : s.live = []) {size answer : UInt64}
    {tag : List UInt8} {s' : state_t} {result : Option UInt64}
    (hcall : call s (.HeapAllocate size tag answer) = some (s', result)) :
    ¬Meets s (.HeapAllocate size tag answer) s' result := by
  rintro ⟨htable, hresult⟩
  by_cases hanswer : answer = NULL
  · subst hanswer
    obtain ⟨tag', hallocate⟩ := HeapAllocate_null (s := s) (by rw [hcount]; decide) size tag
    rw [call, hallocate] at hcall
    obtain ⟨rfl, -⟩ := Prod.mk.inj (Option.some.inj hcall)
    have hlength := htable.length_eq
    simp [state_t.tracked, state_t.entries, hcount, hlive, MAX_ALLOCATIONS] at hlength
  · rw [call, HeapAllocate_of_ne hanswer] at hcall
    obtain ⟨-, rfl⟩ := Prod.mk.inj (Option.some.inj hcall)
    exact hanswer (Option.some.inj hresult).symm

end Meets

/-- Whatever `malloc` answers, the tracker works exactly as long as nothing is allocated. -/
theorem all_meet_iff (calls : List call_t) : AllMeet initial calls ↔ ∀ c ∈ calls, c.IsFree := by
  have hcount : initial.AllocationCount = 0 := rfl
  have hlive : initial.live = [] := rfl
  generalize initial = s at hcount hlive
  induction calls with
  | nil => exact iff_of_true trivial nofun
  | cons c calls ih =>
    rw [List.forall_mem_cons, AllMeet]
    cases c with
    | HeapAllocate size tag answer =>
      refine iff_of_false ?_ fun hfree => hfree.1
      rintro ⟨s', result, hcall, hmeets, -⟩
      exact not_meets_allocate hcount hlive hcall hmeets
    | HeapFree ptr =>
      obtain ⟨hcall, hmeets⟩ := meets_free hcount hlive ptr
      constructor
      · rintro ⟨s', result, hcall', -, hrest⟩
        obtain ⟨rfl, -⟩ := Prod.mk.inj (Option.some.inj (hcall.symm.trans hcall'))
        exact ⟨trivial, ih.mp hrest⟩
      · rintro ⟨-, hfree⟩
        exact ⟨s, none, hcall, hmeets, ih.mpr hfree⟩

/-- One allocation of eight bytes, for which `malloc` has a block at 4096. -/
theorem HeapAllocate_loses :
    (call initial (.HeapAllocate 8 [] 4096)).map Prod.snd = some (some NULL) ∧
      ¬AllMeet initial [.HeapAllocate 8 [] 4096] := by
  refine ⟨by decide, ?_⟩
  rintro ⟨s', result, hcall, hmeets, -⟩
  exact not_meets_allocate rfl rfl hcall hmeets

end csystems.heap_tracker
