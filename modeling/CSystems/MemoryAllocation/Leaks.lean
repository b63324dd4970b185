import Mathlib.Algebra.Order.Ring.Int
import Mathlib.Data.List.Induction
import CSystems.Lib.Run
import CSystems.MemoryAllocation.Tracker

open clib.run

namespace csystems.memory_allocation

/-- The blocks of the nodes that are not marked as freed. -/
def unfreed (head : List MemoryNode) : List block_t :=
  (head.filter fun node => !node.is_freed).map fun node => { address := node.address, size := node.size.toNat }

/-- Of the nodes of one address, only the newest may not be marked as freed. -/
def OlderFreed (head : List MemoryNode) : Prop :=
  head.Pairwise fun newer older => newer.address = older.address → older.is_freed = true

section Nodes

variable {head : List MemoryNode} {ptr : UInt64} {live : List block_t}

theorem unfreed_cons (node : MemoryNode) (head : List MemoryNode) :
    unfreed (node :: head) =
      if node.is_freed then unfreed head
      else { address := node.address, size := node.size.toNat } :: unfreed head := by
  unfold unfreed
  cases hfreed : node.is_freed <;> simp [hfreed]

theorem mem_unfreed {block : block_t} (h : block ∈ unfreed head) :
    ∃ node ∈ head, node.is_freed = false ∧ node.address = block.address := by
  obtain ⟨node, hnode, rfl⟩ := List.mem_map.mp h
  obtain ⟨hmem, hfreed⟩ := List.mem_filter.mp hnode
  exact ⟨node, hmem, by simpa using hfreed, rfl⟩

private theorem released_eq_self (hnone : ¬ Live live ptr) : released ptr live = live := by
  rw [released, List.filter_eq_self]
  intro block hblock
  have hne : block.address ≠ ptr := fun heq => hnone (List.mem_map.mpr ⟨block, hblock, heq⟩)
  simpa using hne

/-- A node newer than all others of its address is the only unfreed one. -/
private theorem not_live_tail {node : MemoryNode}
    (hnewer : ∀ older ∈ head, node.address = older.address → older.is_freed = true) :
    ¬ Live (unfreed head) node.address := by
  intro hlive
  obtain ⟨block, hblock, haddress⟩ := List.mem_map.mp hlive
  obtain ⟨older, holder, hfreed, heq⟩ := mem_unfreed hblock
  have htrue := hnewer older holder (haddress.symm.trans heq.symm)
  rw [hfreed] at htrue
  cases htrue

/-- Marking the node that is found frees the block at the address. -/
theorem unfreed_set_freed (hfreed : OlderFreed head) :
    unfreed (set_freed ptr head) = released ptr (unfreed head) := by
  induction head with
  | nil => rfl
  | cons node head ih =>
    obtain ⟨hnewer, hrest⟩ := List.pairwise_cons.mp hfreed
    rw [set_freed, unfreed_cons]
    by_cases haddress : node.address = ptr
    · subst haddress
      have hself := released_eq_self (not_live_tail hnewer)
      rw [if_pos rfl, unfreed_cons, if_pos rfl]
      split
      · exact hself.symm
      · rw [released, List.filter_cons_of_neg (by simp)]
        exact hself.symm
    · rw [if_neg haddress, unfreed_cons, ih hrest]
      split
      · rfl
      · rw [released, released, List.filter_cons_of_pos (by simpa using haddress)]

private theorem mem_set_freed {older : MemoryNode} (h : older ∈ set_freed ptr head) :
    ∃ node ∈ head, older.address = node.address ∧ (node.is_freed = true → older.is_freed = true) := by
  induction head with
  | nil => cases h
  | cons node head ih =>
    rw [set_freed] at h
    split at h
    · rcases List.mem_cons.mp h with rfl | h
      · exact ⟨node, List.mem_cons_self, rfl, fun _ => rfl⟩
      · exact ⟨older, List.mem_cons_of_mem _ h, rfl, id⟩
    · rcases List.mem_cons.mp h with rfl | h
      · exact ⟨older, List.mem_cons_self, rfl, id⟩
      · obtain ⟨node', hmem, hsame⟩ := ih h
        exact ⟨node', List.mem_cons_of_mem _ hmem, hsame⟩

theorem OlderFreed.set_freed (h : OlderFreed head) : OlderFreed (set_freed ptr head) := by
  induction head with
  | nil => exact h
  | cons node head ih =>
    obtain ⟨hnewer, hrest⟩ := List.pairwise_cons.mp h
    rw [memory_allocation.set_freed]
    split
    · exact List.pairwise_cons.mpr ⟨hnewer, hrest⟩
    · refine List.pairwise_cons.mpr ⟨?_, ih hrest⟩
      intro older holder haddress
      obtain ⟨node', hmem, hsame, hkept⟩ := mem_set_freed holder
      exact hkept (hnewer node' hmem (haddress.trans hsame))

/-- The newest node of an address is unfreed exactly if some node of it is. -/
theorem find_unfreed_iff (h : OlderFreed head) :
    (∃ node, head.find? (fun curr => decide (curr.address = ptr)) = some node ∧ node.is_freed = false) ↔
      Live (unfreed head) ptr := by
  induction head with
  | nil => simp [Live, unfreed]
  | cons node head ih =>
    obtain ⟨hnewer, hrest⟩ := List.pairwise_cons.mp h
    rw [unfreed_cons]
    by_cases haddress : node.address = ptr
    · subst haddress
      have hnot := not_live_tail hnewer
      rw [List.find?_cons_of_pos (by simp)]
      cases hfreed : node.is_freed with
      | true => simp [hfreed, hnot]
      | false => simp [hfreed, Live]
    · rw [List.find?_cons_of_neg (by simpa using haddress), ih hrest]
      split
      · rfl
      · simp [Live, Ne.symm haddress]

/-- No address has two unfreed nodes. -/
theorem OlderFreed.nodup (h : OlderFreed head) : ((unfreed head).map block_t.address).Nodup := by
  induction head with
  | nil => exact List.nodup_nil
  | cons node head ih =>
    obtain ⟨hnewer, hrest⟩ := List.pairwise_cons.mp h
    rw [unfreed_cons]
    split
    · exact ih hrest
    · exact List.nodup_cons.mpr ⟨not_live_tail hnewer, ih hrest⟩

end Nodes

/-- The unfreed nodes are the live blocks. -/
structure Tracked (head : List MemoryNode) (live : List block_t) : Prop where
  older_freed : OlderFreed head
  exact : (unfreed head).Perm live
  not_null : ¬ Live live NULL

section Tracked

variable {head : List MemoryNode} {live : List block_t}

theorem Tracked.live_iff (h : Tracked head live) (ptr : UInt64) : Live (unfreed head) ptr ↔ Live live ptr :=
  (h.exact.map block_t.address).mem_iff

theorem Tracked.obtain {ptr size : UInt64} {bytes : Nat} (h : Tracked head live) (hnull : ptr ≠ NULL)
    (hnew : ¬ Live live ptr) (hsize : size.toNat = bytes) :
    Tracked ({ address := ptr, size := size, is_freed := false } :: head) (obtained ptr bytes live) := by
  subst hsize
  rw [obtained, if_neg hnull]
  refine ⟨List.pairwise_cons.mpr ⟨?_, h.older_freed⟩, ?_, ?_⟩
  · intro older holder haddress
    by_contra hfreed
    refine hnew ((h.live_iff ptr).mp ?_)
    refine List.mem_map.mpr ⟨{ address := older.address, size := older.size.toNat }, ?_, haddress.symm⟩
    exact List.mem_map.mpr ⟨older, List.mem_filter.mpr ⟨holder, by simpa using hfreed⟩, rfl⟩
  · rw [unfreed_cons]
    exact h.exact.cons _
  · intro hlive
    rcases List.mem_cons.mp hlive with heq | hold
    · exact hnull heq.symm
    · exact h.not_null hold

private theorem live_released {ptr ptr' : UInt64} : Live (released ptr live) ptr' ↔ ptr' ≠ ptr ∧ Live live ptr' := by
  simp only [Live, released, List.mem_map, List.mem_filter, decide_eq_true_eq]
  constructor
  · rintro ⟨block, ⟨hblock, hne⟩, rfl⟩
    exact ⟨hne, block, hblock, rfl⟩
  · rintro ⟨hne, block, hblock, rfl⟩
    exact ⟨block, ⟨hblock, hne⟩, rfl⟩

theorem Tracked.release (h : Tracked head live) (ptr : UInt64) :
    Tracked (set_freed ptr head) (released ptr live) := by
  refine ⟨h.older_freed.set_freed, ?_, ?_⟩
  · rw [unfreed_set_freed h.older_freed]
    exact h.exact.filter _
  · intro hlive
    exact h.not_null (live_released.mp hlive).2

end Tracked

section Log

variable {out : outcome_t} {g : globals_t}

@[simp]
theorem head_LogEvent (action : action_t) (address size : UInt64) :
    (LogEvent out action address size g).head = g.head := by
  unfold LogEvent
  split
  · rfl
  · split <;> rfl

@[simp]
theorem isSome_LogEvent (action : action_t) (address size : UInt64) :
    (LogEvent out action address size g).logFile.isSome = (g.logFile.isSome || out.fopen) := by
  unfold LogEvent
  cases hlog : g.logFile with
  | some lines => rfl
  | none => cases hopen : out.fopen <;> simp [hlog]

end Log

section Step

variable {s : system_t} {e : event_t}

theorem AddAllocation_eq {out : outcome_t} (hnode : out.node = true) (address size : UInt64) (g : globals_t) :
    AddAllocation out address size g =
      { g with head := { address := address, size := size, is_freed := false } :: g.head } := if_pos hnode

/-- Freeing is decided by whether the block is live. -/
theorem FindeValue_live (h : Tracked s.tracker.head s.live) (ptr : UInt64) :
    (∃ node, FindeValue ptr s.tracker = some node ∧ node.is_freed = false) ↔ Live s.live ptr :=
  (find_unfreed_iff h.older_freed).trans (h.live_iff ptr)

theorem TrackFree_of_live (h : Tracked s.tracker.head s.live) (out : outcome_t) {ptr : UInt64}
    (hlive : Live s.live ptr) :
    (TrackFree out ptr s.tracker).1.head = set_freed ptr s.tracker.head ∧
    (TrackFree out ptr s.tracker).2 = (0, some ptr) := by
  obtain ⟨node, hfind, hfreed⟩ := (FindeValue_live h ptr).mpr hlive
  have hnull : ptr ≠ NULL := by
    rintro rfl
    exact h.not_null hlive
  simp [TrackFree, hnull, hfind, hfreed]

theorem TrackFree_of_not_live (h : Tracked s.tracker.head s.live) (out : outcome_t) {ptr : UInt64}
    (hlive : ¬ Live s.live ptr) :
    (TrackFree out ptr s.tracker).1.head = s.tracker.head ∧ (TrackFree out ptr s.tracker).2 = (1, none) := by
  unfold TrackFree
  split
  · exact ⟨head_LogEvent _ _ _, rfl⟩
  · cases hfind : FindeValue ptr s.tracker with
    | none => exact ⟨head_LogEvent _ _ _, rfl⟩
    | some node =>
      have hfreed : node.is_freed = true := by
        by_contra hnot
        exact hlive ((FindeValue_live h ptr).mp ⟨node, hfind, by simpa using hnot⟩)
      simp [hfreed]

theorem Tracked.step (h : Tracked s.tracker.head s.live) (hlegal : Legal s e) :
    Tracked (step s e).tracker.head (step s e).live := by
  obtain ⟨call, out⟩ := e
  obtain ⟨hnode, hlegal⟩ := hlegal
  have hnode : out.node = true := hnode
  cases call with
  | TrackMalloc size =>
    simp only [memory_allocation.step, TrackMalloc]
    split
    · simpa [obtained] using h
    · split
      · next hptr =>
        simp only [head_LogEvent, AddAllocation_eq hnode]
        exact h.obtain hptr hlegal rfl
      · next hptr =>
        rw [not_not] at hptr
        simpa [obtained, hptr] using h
  | TrackCalloc num size =>
    simp only [memory_allocation.step, TrackCalloc]
    split
    · simpa [obtained] using h
    · split
      · next hptr =>
        simp only [head_LogEvent, AddAllocation_eq hnode]
        refine h.obtain hptr hlegal.1 ?_
        rw [UInt64.toNat_mul, Nat.mod_eq_of_lt (hlegal.2 hptr)]
      · next hptr =>
        rw [not_not] at hptr
        simpa [obtained, hptr] using h
  | TrackRealloc ptr size =>
    obtain ⟨hlive, hanswer⟩ := hlegal
    have hanswer : out.answer = ptr ∨ ¬ Live s.live out.answer := hanswer
    obtain ⟨node, hfind, -⟩ := (FindeValue_live h ptr).mpr hlive
    simp only [memory_allocation.step, TrackRealloc, hfind]
    split
    · simpa using h
    · split
      · next hptr =>
        simp only [head_LogEvent, AddAllocation_eq hnode]
        refine (h.release ptr).obtain hptr ?_ rfl
        rw [live_released]
        rintro ⟨hne, hold⟩
        rcases hanswer with heq | hnew
        · exact hne heq
        · exact hnew hold
      · next hptr =>
        rw [not_not] at hptr
        simpa [hptr] using h
  | TrackFree ptr =>
    have hstep : memory_allocation.step s ⟨.TrackFree ptr, out⟩ =
      { tracker := (TrackFree out ptr s.tracker).1
        live := (TrackFree out ptr s.tracker).2.2.elim s.live fun ptr => released ptr s.live } := rfl
    rw [hstep]
    by_cases hlive : Live s.live ptr
    · obtain ⟨hhead, hresult⟩ := TrackFree_of_live h out hlive
      rw [hhead, hresult]
      exact h.release ptr
    · obtain ⟨hhead, hresult⟩ := TrackFree_of_not_live h out hlive
      rw [hhead, hresult]
      exact h

/-- A call opens the log file if it can. -/
theorem isSome_step (hlegal : Legal s e) :
    (step s e).tracker.logFile.isSome = (s.tracker.logFile.isSome || e.out.fopen) := by
  obtain ⟨call, out⟩ := e
  have hnode : out.node = true := hlegal.1
  cases call with
  | TrackMalloc size =>
    simp only [memory_allocation.step, TrackMalloc, AddAllocation_eq hnode]
    split
    · exact isSome_LogEvent _ _ _
    · split <;> exact isSome_LogEvent _ _ _
  | TrackCalloc num size =>
    simp only [memory_allocation.step, TrackCalloc, AddAllocation_eq hnode]
    split
    · exact isSome_LogEvent _ _ _
    · split <;> exact isSome_LogEvent _ _ _
  | TrackRealloc ptr size =>
    simp only [memory_allocation.step, TrackRealloc, AddAllocation_eq hnode]
    split
    · exact isSome_LogEvent _ _ _
    · split
      · cases hfind : FindeValue ptr s.tracker <;> exact isSome_LogEvent _ _ _
      · exact isSome_LogEvent _ _ _
  | TrackFree ptr =>
    simp only [memory_allocation.step, TrackFree]
    split
    · exact isSome_LogEvent _ _ _
    · cases hfind : FindeValue ptr s.tracker with
      | none => exact isSome_LogEvent _ _ _
      | some node =>
        dsimp only
        split <;> exact isSome_LogEvent _ _ _

end Step

/-- What every legal run keeps. -/
theorem run_tracked {events : List event_t} (hlegal : AllSteps step Legal start events) :
    Tracked (run events).tracker.head (run events).live := by
  refine @AllSteps.invariant _ _ step Legal (fun s => Tracked s.tracker.head s.live) ?_ _ _ ?_ hlegal
  · intro s e hs he
    exact hs.step he
  · refine ⟨List.Pairwise.nil, List.Perm.refl _, ?_⟩
    intro hlive
    cases hlive

theorem run_isSome {events : List event_t} (hlegal : AllSteps step Legal start events) :
    (run events).tracker.logFile.isSome = events.any fun e => e.out.fopen := by
  induction events using List.reverseRecOn with
  | nil => rfl
  | append_singleton events e ih =>
    obtain ⟨hfirst, hlast, -⟩ := AllSteps.append_iff.mp hlegal
    have hstep : run (events ++ [e]) = step (run events) e := by simp [run]
    have hopen : (step (run events) e).tracker.logFile.isSome =
        ((run events).tracker.logFile.isSome || e.out.fopen) :=
      isSome_step hlast
    rw [hstep, hopen, ih hfirst, List.any_append]
    simp

/-- The total of the unfreed nodes, which wraps around. -/
theorem leak_loop_total (head : List MemoryNode) (total : UInt64) :
    (leak_loop head total).2 = total + UInt64.ofNat ((unfreed head).map block_t.size).sum := by
  induction head generalizing total with
  | nil => simp [leak_loop, unfreed]
  | cons node head ih =>
    rw [leak_loop, unfreed_cons]
    split
    · exact ih total
    · rw [List.map_cons, List.sum_cons, UInt64.ofNat_add, UInt64.ofNat_toNat, ← UInt64.add_assoc]
      exact ih (total + node.size)

/-- `MemoryLeaks` succeeds and ends its report with the total, in 64 bits. -/
def Reports (g : globals_t) (total : Nat) : Prop :=
  ∃ lines, (MemoryLeaks g).1.logFile = some (lines ++ [.total_leaked (UInt64.ofNat total)]) ∧ (MemoryLeaks g).2 = 0

/-- In every legal run the unfreed nodes are the live blocks, each once.
`MemoryLeaks` reports their total as soon as a call has been able to open the
log file and until then does nothing but fail, and `TrackFree` releases its argument
exactly if it is one of them. -/
theorem tracker_knows_live_blocks (events : List event_t) (hlegal : AllSteps step Legal start events) :
    (unfreed (run events).tracker.head).Perm (run events).live ∧
    ((run events).live.map block_t.address).Nodup ∧
    ((∃ e ∈ events, e.out.fopen = true) → Reports (run events).tracker ((run events).live.map block_t.size).sum) ∧
    ((∀ e ∈ events, e.out.fopen = false) → MemoryLeaks (run events).tracker = ((run events).tracker, 1)) ∧
    ∀ out ptr, (TrackFree out ptr (run events).tracker).2 =
      if Live (run events).live ptr then (0, some ptr) else (1, none) := by
  have htracked := run_tracked hlegal
  refine ⟨htracked.exact, ?_, ?_, ?_, ?_⟩
  · exact (htracked.exact.map block_t.address).nodup_iff.mp htracked.older_freed.nodup
  · rintro ⟨e, he, hopen⟩
    have hsome : (run events).tracker.logFile.isSome = true := by
      rw [run_isSome hlegal]
      exact List.any_eq_true.mpr ⟨e, he, hopen⟩
    obtain ⟨lines, hlines⟩ := Option.isSome_iff_exists.mp hsome
    have htotal := leak_loop_total (run events).tracker.head 0
    rw [UInt64.zero_add, (htracked.exact.map block_t.size).sum_nat] at htotal
    refine ⟨lines ++ [.memory_leak] ++ (leak_loop (run events).tracker.head 0).1, ?_⟩
    rw [← htotal]
    simp only [MemoryLeaks, hlines, and_self]
  · intro hnever
    have hclosed : (run events).tracker.logFile.isSome = false := by
      rw [run_isSome hlegal, List.any_eq_false]
      exact fun e he => by rw [hnever e he]; exact Bool.false_ne_true
    rw [MemoryLeaks, Option.isSome_eq_false_iff.mp hclosed |> Option.isNone_iff_eq_none.mp]
  · intro out ptr
    split
    · next hlive => exact (TrackFree_of_live htracked out hlive).2
    · next hlive => exact (TrackFree_of_not_live htracked out hlive).2

/-- A block is resized in place, released, and its address used again. -/
def reused : List event_t :=
  [⟨.TrackMalloc 8, ⟨4096, true, false⟩⟩, ⟨.TrackRealloc 4096 16, ⟨4096, true, true⟩⟩, ⟨.TrackFree 4096, ⟨0, true, true⟩⟩,
    ⟨.TrackCalloc 3 8, ⟨4096, true, true⟩⟩]

theorem tracker_knows_live_blocks_reused :
    (unfreed (run reused).tracker.head).Perm (run reused).live ∧
    (run reused).live = [{ address := 4096, size := 24 }] ∧
    Reports (run reused).tracker 24 := by
  obtain ⟨hexact, -, hreport, -⟩ := tracker_knows_live_blocks reused (by decide)
  exact ⟨hexact, by decide, hreport ⟨⟨.TrackRealloc 4096 16, ⟨4096, true, true⟩⟩, by decide, rfl⟩⟩

/-- A block is obtained while the log file cannot be opened. -/
def unlogged : List event_t := [⟨.TrackMalloc 8, ⟨4096, true, false⟩⟩]

/-- `MemoryLeaks` reports no total before the log file is open: not after no
calls, and not after a call that could not open it. -/
theorem leaks_not_reported :
    MemoryLeaks (run []).tracker = ((run []).tracker, 1) ∧ (run []).tracker.logFile = none ∧
    AllSteps step Legal start unlogged ∧ (run unlogged).live = [{ address := 4096, size := 8 }] ∧
    MemoryLeaks (run unlogged).tracker = ((run unlogged).tracker, 1) ∧ (run unlogged).tracker.logFile = none ∧
    ¬ ∀ events, AllSteps step Legal start events →
      Reports (run events).tracker ((run events).live.map block_t.size).sum := by
  refine ⟨rfl, rfl, by decide, by decide, by decide, by decide, ?_⟩
  intro hall
  obtain ⟨lines, hlines, -⟩ := hall [] trivial
  cases hlines

end csystems.memory_allocation
