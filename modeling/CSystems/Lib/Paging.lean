import Mathlib.Data.Finset.Card
import Mathlib.Data.List.Induction
import CSystems.Lib.LastUse

open clib.last_use

namespace clib.paging

/-! Page faults of a replacement policy, against the fewest possible. -/

variable {α : Type} [DecidableEq α]

/-- A way to serve requests with `k` frames: which pages are in them when, and how
often the requested one is not. At a request no other page is brought in, but any may
be given up, also with the later requests in mind. -/
inductive Serves (k : Nat) : Finset α → List α → Finset α → Nat → Prop where
  | nil (frames : Finset α) : Serves k frames [] frames 0
  | cons {frames next last : Finset α} {page : α} {requests : List α} {faults : Nat}
    (hstep : next ⊆ insert page frames) (hpage : page ∈ next) (hcard : next.card ≤ k)
    (hrest : Serves k next requests last faults) :
    Serves k frames (page :: requests) last (faults + if page ∈ frames then 0 else 1)

section Serves

variable {k n : Nat} {frames last : Finset α} {requests more : List α}

theorem Serves.append_split (h : Serves k frames (requests ++ more) last n) :
    ∃ middle n₁ n₂, Serves k frames requests middle n₁ ∧ Serves k middle more last n₂ ∧ n = n₁ + n₂ := by
  induction requests generalizing frames n with
  | nil => exact ⟨frames, 0, n, .nil frames, h, (Nat.zero_add n).symm⟩
  | cons page requests ih =>
    obtain _ | ⟨hstep, hpage, hcard, hrest⟩ := h
    obtain ⟨middle, n₁, n₂, hfirst, hsecond, rfl⟩ := ih hrest
    exact ⟨middle, _, n₂, .cons hstep hpage hcard hfirst, hsecond, by omega⟩

theorem Serves.card_le (h : Serves k frames requests last n) (hcard : frames.card ≤ k) : last.card ≤ k := by
  induction h with
  | nil frames => exact hcard
  | cons hstep hpage hnext hrest ih => exact ih hnext

/-- Every page that is requested and not in a frame at first costs a fault. -/
theorem Serves.card_sdiff_le (h : Serves k frames requests last n) : (requests.toFinset \ frames).card ≤ n := by
  induction h with
  | nil frames => simp
  | @cons frames next last page requests faults hstep hpage hcard hrest ih =>
    rw [List.toFinset_cons]
    split
    · next hmem =>
      have hsubset : next ⊆ frames := hstep.trans (Finset.insert_subset hmem (Finset.Subset.refl _))
      rw [Finset.insert_sdiff_of_mem _ hmem]
      exact (Finset.card_le_card (Finset.sdiff_subset_sdiff (Finset.Subset.refl _) hsubset)).trans ih
    · have hsubset : insert page requests.toFinset \ frames ⊆ insert page (requests.toFinset \ next) := by
        intro other hother
        obtain ⟨hrequested, hnot⟩ := Finset.mem_sdiff.mp hother
        by_cases heq : other = page
        · exact Finset.mem_insert.mpr (Or.inl heq)
        · refine Finset.mem_insert_of_mem (Finset.mem_sdiff.mpr ⟨Finset.mem_of_mem_insert_of_ne hrequested heq, ?_⟩)
          exact fun hnext => hnot (Finset.mem_of_mem_insert_of_ne (hstep hnext) heq)
      have hle := (Finset.card_le_card hsubset).trans (Finset.card_insert_le _ _)
      omega

/-- More pages than frames, from a request on, cost a fault after it. -/
theorem Serves.pos (h : Serves k frames requests last n) (hcard : frames.card ≤ k) {page : α} (hpage : page ∈ frames)
    (hmany : k < (page :: requests).toFinset.card) : 0 < n := by
  have hle := h.card_sdiff_le
  have hdiff := Finset.le_card_sdiff frames (page :: requests).toFinset
  rw [List.toFinset_cons, Finset.insert_sdiff_of_mem _ hpage] at hdiff
  rw [List.toFinset_cons] at hmany
  omega

end Serves

section Policy

variable {miss : List α → α → Bool} {k : Nat}

/-- How often a policy faults on the requests of a window, where `miss` tells on which
page it would fault after which requests. -/
def faults (miss : List α → α → Bool) : List α → List α → Nat
  | _, [] => 0
  | past, page :: window => (if miss past page then 1 else 0) + faults miss (past ++ [page]) window

omit [DecidableEq α] in
theorem faults_append (past first second : List α) :
    faults miss past (first ++ second) = faults miss past first + faults miss (past ++ first) second := by
  induction first generalizing past with
  | nil => simp [faults]
  | cons page first ih =>
    rw [List.cons_append, faults, faults, ih, List.append_assoc, List.singleton_append, Nat.add_assoc]

omit [DecidableEq α] in
theorem faults_concat (past window : List α) (page : α) :
    faults miss past (window ++ [page]) =
      faults miss past window + if miss (past ++ window) page then 1 else 0 := by
  rw [faults_append, faults, faults, Nat.add_zero]

/-- In a window of no more distinct pages than frames there are no more faults than
frames. -/
def Conservative (k : Nat) (miss : List α → α → Bool) : Prop :=
  ∀ past window, window.toFinset.card ≤ k → faults miss past window ≤ k

/-- It is enough that no page is lost after a fault on it, before more pages than there
are frames have been requested. -/
theorem conservative_of_keeps
    (hkeeps : ∀ past page window, miss past page = true → (page :: window).toFinset.card ≤ k →
      miss (past ++ page :: window) page = false) : Conservative k miss := by
  suffices h : ∀ past window, window.toFinset.card ≤ k → ∃ faulted : Finset α, faulted.card = faults miss past window ∧
      ∀ page ∈ faulted, ∃ before after, window = before ++ page :: after ∧ miss (past ++ before) page = true by
    intro past window hcard
    obtain ⟨faulted, heq, hall⟩ := h past window hcard
    rw [← heq]
    refine (Finset.card_le_card fun page hpage => ?_).trans hcard
    obtain ⟨before, after, rfl, -⟩ := hall page hpage
    simp
  intro past window
  induction window using List.reverseRecOn with
  | nil => exact fun _ => ⟨∅, rfl, by simp⟩
  | append_singleton window page ih =>
    intro hcard
    have hsubset : window.toFinset ⊆ (window ++ [page]).toFinset := by
      rw [List.toFinset_append]
      exact Finset.subset_union_left
    obtain ⟨faulted, heq, hall⟩ := ih ((Finset.card_le_card hsubset).trans hcard)
    have hbefore (other : α) (hother : other ∈ faulted) :
        ∃ before after, window ++ [page] = before ++ other :: after ∧ miss (past ++ before) other = true := by
      obtain ⟨before, after, rfl, hmiss⟩ := hall other hother
      exact ⟨before, after ++ [page], by simp, hmiss⟩
    rw [faults_concat]
    split
    · next hmiss =>
      have hnew : page ∉ faulted := by
        intro hmem
        obtain ⟨before, after, rfl, hfirst⟩ := hall page hmem
        have hle : (page :: after).toFinset.card ≤ k := by
          refine (Finset.card_le_card fun other hother => ?_).trans hcard
          simp only [List.mem_toFinset, List.mem_cons, List.mem_append] at hother ⊢
          tauto
        have hkept := hkeeps (past ++ before) page after hfirst hle
        rw [List.append_assoc, hmiss] at hkept
        cases hkept
      refine ⟨insert page faulted, by rw [Finset.card_insert_of_notMem hnew, heq], fun other hother => ?_⟩
      obtain rfl | hother := Finset.mem_insert.mp hother
      · exact ⟨window, [], rfl, hmiss⟩
      · exact hbefore other hother
    · exact ⟨faulted, by rw [heq, Nat.add_zero], hbefore⟩

omit [DecidableEq α] in
/-- The first prefix that lacks what the empty one has. -/
theorem exists_first_not {P : List α → Prop} {xs : List α} (hnil : P []) (hnot : ¬ P xs) :
    ∃ front x back, xs = front ++ x :: back ∧ P front ∧ ¬ P (front ++ [x]) := by
  induction xs using List.reverseRecOn with
  | nil => exact absurd hnil hnot
  | append_singleton xs x ih =>
    by_cases hxs : P xs
    · exact ⟨xs, x, [], rfl, hxs, hnot⟩
    · obtain ⟨front, y, back, rfl, hfront, hy⟩ := ih hxs
      exact ⟨front, y, back ++ [x], by simp, hfront, hy⟩

variable {n : Nat} {frames last : Finset α} {requests : List α}

/-- The faults from a request on that the other policy has just served. The requests
are cut where as many distinct pages have come as there are frames: on each piece the
policy faults at most `k` times, and the other one at least once before the next. -/
theorem Conservative.faults_le_of_mem (h : Conservative k miss) (hserves : Serves k frames requests last n)
    (hcard : frames.card ≤ k) {page : α} (hpage : page ∈ frames) (past : List α) :
    faults miss past (page :: requests) ≤ k * (n + 1) := by
  induction hlength : requests.length using Nat.strongRecOn generalizing requests frames page past n with
  | ind length ih =>
    by_cases hfew : (page :: requests).toFinset.card ≤ k
    · exact (h past _ hfew).trans (Nat.le_mul_of_pos_right k (Nat.succ_pos n))
    · have hone : (page :: ([] : List α)).toFinset.card ≤ k := (Finset.card_pos.mpr ⟨page, hpage⟩).trans_le hcard
      obtain ⟨front, next, back, rfl, hfront, hmany⟩ :=
        exists_first_not (P := fun xs => (page :: xs).toFinset.card ≤ k) hone hfew
      have hsplit : front ++ next :: back = (front ++ [next]) ++ back := by simp
      rw [hsplit] at hserves
      obtain ⟨middle, n₁, n₂, hfirst, hsecond, rfl⟩ := hserves.append_split
      have hpos := hfirst.pos hcard hpage (Nat.lt_of_not_le hmany)
      have hnext : next ∈ middle := by
        obtain ⟨_, _, _, -, hlast, -⟩ := hfirst.append_split
        obtain _ | ⟨-, hmem, -, hnil⟩ := hlast
        cases hnil
        exact hmem
      have hrest := ih back.length (by simp [← hlength]; omega) hsecond (hfirst.card_le hcard) hnext
        (past ++ page :: front) rfl
      have hpiece := h past _ hfront
      calc faults miss past (page :: (front ++ next :: back))
          = faults miss past (page :: front) + faults miss (past ++ page :: front) (next :: back) :=
            faults_append past (page :: front) (next :: back)
        _ ≤ k + k * (n₂ + 1) := Nat.add_le_add hpiece hrest
        _ = k * (1 + n₂ + 1) := by rw [Nat.add_assoc, Nat.mul_add k 1, Nat.mul_one]
        _ ≤ k * (n₁ + n₂ + 1) := Nat.mul_le_mul_left k (by omega)

/-- A conservative policy faults at most `k` times as often as any other way to serve
the requests with `k` frames, and `k` times more. -/
theorem Conservative.competitive (h : Conservative k miss) (hserves : Serves k frames requests last n)
    (past : List α) : faults miss past requests ≤ k * (n + 1) := by
  cases hserves with
  | nil frames => simp [faults]
  | @cons frames next last page requests n hstep hpage hcard hrest =>
    have hle := h.faults_le_of_mem hrest hcard hpage past
    exact hle.trans (Nat.mul_le_mul_left k (by omega))

end Policy

section Recency

/-- The policy that gives up the page requested least recently. -/
def lru_miss (k : Nat) (past : List α) (page : α) : Bool := decide (page ∉ (most_recent past).take k)

/-- The pages of the last requests come before the others. -/
theorem mem_take_of_mem_window {k : Nat} {past window : List α} {page : α} (hmem : page ∈ window)
    (hcard : window.toFinset.card ≤ k) : page ∈ (most_recent (past ++ window)).take k := by
  have hsuffix : window.dedup <:+ (past ++ window).dedup := by
    rw [List.dedup_append]
    exact List.suffix_union_right ..
  have hprefix : most_recent window <+: most_recent (past ++ window) := List.reverse_prefix.mpr hsuffix
  have hlength : (most_recent window).length ≤ k := by
    rwa [length_most_recent, ← List.card_toFinset]
  rw [← List.take_of_length_le hlength] at hprefix
  have htake := hprefix.take k
  rw [List.take_take, Nat.min_self, List.take_of_length_le hlength] at htake
  exact htake.subset (mem_most_recent.mpr hmem)

theorem lru_conservative (k : Nat) : Conservative k (lru_miss (α := α) k) := by
  refine conservative_of_keeps fun past page window _ hcard => ?_
  have hmem : page ∈ (most_recent (past ++ page :: window)).take k := mem_take_of_mem_window List.mem_cons_self hcard
  simp [lru_miss, hmem]

end Recency

end clib.paging
