import Mathlib.Algebra.Order.Ring.Int
import Mathlib.Data.Fintype.Card
import CSystems.Lib.Bytes
import CSystems.Lib.LastUse
import CSystems.Lib.Run
import CSystems.Lib.CArray
import CSystems.PageCache.Arc

open clib.cint clib.last_use clib.run clib.scan

namespace csystems.page_cache

/-- `MAX_FRAMES` as the length of an array. -/
abbrev FRAMES : Nat := MAX_FRAMES.toNat

/-- The first frame that holds the page. -/
def findPage {n : Nat} (buffer : Vector Int32 n) (page : Int32) : Option (Fin n) :=
  buffer.findFinIdx? fun frame => frame == page

/-- The local variables of `simulateLRU`. -/
structure lru_t where
  buffer : Vector Int32 FRAMES
  time : Vector Int32 FRAMES
  hits : Int32
  misses : Int32
  counter : Int32
  deriving DecidableEq, Repr

def lru_init : lru_t where
  buffer := Vector.replicate FRAMES (-1)
  time := Vector.replicate FRAMES (-1)
  hits := 0
  misses := 0
  counter := 0

/-- The scan for the first frame of the smallest time. -/
def oldest (time : Vector Int32 FRAMES) : Fin FRAMES :=
  ((List.finRange FRAMES).drop 1).foldl (fun lru j => if time.get j < time.get lru then j else lru) ⟨0, by decide⟩

/-- `time[pos] = ++counter`. -/
def stamp (s : lru_t) (pos : Fin FRAMES) : lru_t :=
  { s with time := s.time.set pos.val (s.counter + 1) pos.isLt, counter := s.counter + 1 }

/-- One iteration of the loop of `simulateLRU`. -/
def lru_request (s : lru_t) (page : Int32) : lru_t :=
  match findPage s.buffer page with
  | some pos => stamp { s with hits := s.hits + 1 } pos
  | none =>
    let s := { s with misses := s.misses + 1 }
    match findPage s.buffer (-1) with
    | some empty => stamp { s with buffer := s.buffer.set empty.val page empty.isLt } empty
    | none =>
      let lru := oldest s.time
      stamp { s with buffer := s.buffer.set lru.val page lru.isLt } lru

def simulateLRU (pages : List Int32) : lru_t := pages.foldl lru_request lru_init

theorem findPage_eq_some {n : Nat} {buffer : Vector Int32 n} {page : Int32} {pos : Fin n}
    (h : findPage buffer page = some pos) : buffer.get pos = page := by
  simpa using (findFinIdx?_eq_some_iff.mp h).1

theorem findPage_eq_none_iff {n : Nat} {buffer : Vector Int32 n} {page : Int32} :
    findPage buffer page = none ↔ ∀ i : Fin n, buffer.get i ≠ page := by
  rw [findPage, findFinIdx?_eq_none_iff]
  simp

private theorem foldl_oldest {time : Vector Int32 FRAMES} (frames : List (Fin FRAMES)) (lru : Fin FRAMES) :
    time.get (frames.foldl (fun lru j => if time.get j < time.get lru then j else lru) lru) ≤ time.get lru ∧
      ∀ j ∈ frames, time.get (frames.foldl (fun lru j => if time.get j < time.get lru then j else lru) lru) ≤
        time.get j := by
  induction frames generalizing lru with
  | nil => exact ⟨Int32.le_refl _, by simp⟩
  | cons i frames ih =>
    rw [List.foldl_cons]
    obtain ⟨hle, hall⟩ := ih (if time.get i < time.get lru then i else lru)
    have hboth : time.get (if time.get i < time.get lru then i else lru) ≤ time.get lru ∧
        time.get (if time.get i < time.get lru then i else lru) ≤ time.get i := by
      split
      · next hlt => exact ⟨Int32.le_of_lt hlt, Int32.le_refl _⟩
      · next hnot => exact ⟨Int32.le_refl _, Int32.not_lt.mp hnot⟩
    refine ⟨Int32.le_trans hle hboth.1, ?_⟩
    intro j hj
    obtain rfl | hj := List.mem_cons.mp hj
    · exact Int32.le_trans hle hboth.2
    · exact hall j hj

theorem oldest_le (time : Vector Int32 FRAMES) (j : Fin FRAMES) : time.get (oldest time) ≤ time.get j := by
  obtain ⟨hfirst, hrest⟩ := @foldl_oldest time ((List.finRange FRAMES).drop 1) ⟨0, by decide⟩
  have hframes : List.finRange FRAMES = ⟨0, by decide⟩ :: (List.finRange FRAMES).drop 1 := rfl
  have hj : j ∈ List.finRange FRAMES := List.mem_finRange j
  rw [hframes] at hj
  obtain rfl | hj := List.mem_cons.mp hj
  · exact hfirst
  · exact hrest j hj

/-- The frames in use, most recently used first, hold the most recently requested
pages. -/
structure Recorded (requested : List Int32) (s : lru_t) (order : List (Fin FRAMES)) : Prop where
  nodup : order.Nodup
  pages : order.map s.buffer.get = (most_recent requested).take FRAMES
  newest_first : order.Pairwise fun i j => s.time.get j < s.time.get i
  times : ∀ i, (s.time.get i).toInt ≤ s.counter.toInt
  empty : ∀ i, i ∉ order → s.buffer.get i = -1
  counter : s.counter.toInt = requested.length

section Recorded

variable {requested : List Int32} {s : lru_t} {order : List (Fin FRAMES)} (h : Recorded requested s order)

include h

theorem Recorded.mem_iff (hreal : -1 ∉ requested) {i : Fin FRAMES} : i ∈ order ↔ s.buffer.get i ≠ -1 := by
  constructor
  · intro hi heq
    have hmem : s.buffer.get i ∈ (most_recent requested).take FRAMES := by
      rw [← h.pages]
      exact List.mem_map_of_mem hi
    exact hreal (heq ▸ mem_most_recent.mp (List.mem_of_mem_take hmem))
  · intro hne
    by_contra hnot
    exact hne (h.empty i hnot)

/-- A page other than `-1` is resident exactly if it is a most recent one. -/
theorem Recorded.resident_iff {page : Int32} (hpage : page ≠ -1) :
    (∃ i, s.buffer.get i = page) ↔ page ∈ (most_recent requested).take FRAMES := by
  rw [← h.pages, List.mem_map]
  constructor
  · rintro ⟨i, rfl⟩
    refine ⟨i, ?_, rfl⟩
    by_contra hnot
    exact hpage (h.empty i hnot)
  · rintro ⟨i, -, heq⟩
    exact ⟨i, heq⟩

theorem Recorded.once (hreal : -1 ∉ requested) {i j : Fin FRAMES} (hi : s.buffer.get i ≠ -1)
    (heq : s.buffer.get i = s.buffer.get j) : i = j := by
  have hnodup : (order.map s.buffer.get).Nodup := by
    rw [h.pages]
    exact (nodup_most_recent requested).sublist (List.take_sublist _ _)
  exact List.inj_on_of_nodup_map hnodup ((h.mem_iff hreal).mpr hi) ((h.mem_iff hreal).mpr (heq ▸ hi)) heq

/-- Stamping a frame that now holds the requested page moves the frame to the front. -/
theorem Recorded.promote {pos : Fin FRAMES} {page : Int32} (hlength : requested.length < 2147483647)
    (hpages : page :: (order.erase pos).map s.buffer.get = (most_recent (requested ++ [page])).take FRAMES)
    (hits misses : Int32) :
    Recorded (requested ++ [page])
      (stamp { s with buffer := s.buffer.set pos.val page pos.isLt, hits := hits, misses := misses } pos)
      (pos :: order.erase pos) := by
  have hcounter := h.counter
  have hnext : (s.counter + 1).toInt = s.counter.toInt + 1 := toInt_succ (by omega)
  have hnot : pos ∉ order.erase pos := h.nodup.not_mem_erase
  have hne {i : Fin FRAMES} (hi : i ∈ order.erase pos) : pos ≠ i := by
    rintro rfl
    exact hnot hi
  refine ⟨List.nodup_cons.mpr ⟨hnot, h.nodup.erase pos⟩, ?_, ?_, ?_, ?_, ?_⟩
  · rw [List.map_cons, ← hpages]
    refine congrArg₂ _ (by simp [stamp, get_set_fin]) (List.map_congr_left fun i hi => ?_)
    simp [stamp, get_set_fin, hne hi]
  · refine List.pairwise_cons.mpr ⟨fun i hi => ?_, ?_⟩
    · have hle := h.times i
      simp only [stamp, get_set_fin, if_neg (hne hi), if_true]
      rw [Int32.lt_iff_toInt_lt]
      omega
    · refine (h.newest_first.sublist List.erase_sublist).imp_of_mem fun hi hj hlt => ?_
      simpa only [stamp, get_set_fin, if_neg (hne hi), if_neg (hne hj)] using hlt
  · intro i
    have hle := h.times i
    simp only [stamp, get_set_fin]
    split <;> omega
  · intro i hi
    rw [List.mem_cons, not_or] at hi
    have hold : i ∉ order := fun hmem => hi.2 ((List.mem_erase_of_ne hi.1).mpr hmem)
    simpa [stamp, get_set_fin, Ne.symm hi.1] using h.empty i hold
  · rw [List.length_append, List.length_singleton]
    simp only [stamp]
    omega

/-- A hit moves its frame to the front. -/
theorem Recorded.hit {pos : Fin FRAMES} {page : Int32} (hpos : s.buffer.get pos = page) (hmem : pos ∈ order) :
    page :: (order.erase pos).map s.buffer.get = (most_recent (requested ++ [page])).take FRAMES := by
  have hpage : page ∈ (most_recent requested).take FRAMES := by
    rw [← h.pages, ← hpos]
    exact List.mem_map_of_mem hmem
  have hnodup : (order.map s.buffer.get).Nodup := by
    rw [h.pages]
    exact (nodup_most_recent requested).sublist (List.take_sublist _ _)
  have herase : (order.erase pos).map s.buffer.get = (order.map s.buffer.get).erase page := by
    obtain ⟨front, back, rfl⟩ := List.append_of_mem hmem
    have hfront : pos ∉ front := fun hin => (List.disjoint_of_nodup_append h.nodup) hin (by simp)
    have hpages : page ∉ front.map s.buffer.get := by
      rw [List.map_append] at hnodup
      exact fun hin => (List.disjoint_of_nodup_append hnodup) hin (by simp [hpos])
    rw [List.erase_append_right _ hfront, List.erase_cons_head, List.map_append, List.map_append, List.map_cons,
      hpos, List.erase_append_right _ hpages, List.erase_cons_head]
  rw [herase, h.pages]
  exact (take_most_recent_of_mem hpage).symm

/-- A miss puts the requested page in front of all but the last of the pages. -/
theorem Recorded.miss {page : Int32} (hmiss : ∀ i, s.buffer.get i ≠ page) :
    (most_recent (requested ++ [page])).take FRAMES = page :: (order.map s.buffer.get).take 2 := by
  have hpage : page ∉ (most_recent requested).take FRAMES := by
    rw [← h.pages, List.mem_map]
    rintro ⟨i, -, heq⟩
    exact hmiss i heq
  have hnext := take_most_recent_of_notMem (notMem_take_of_notMem_take_succ hpage)
  rw [h.pages, List.take_take]
  exact hnext

/-- The frame of the smallest time is the last one in use when all are. -/
theorem Recorded.oldest_eq {front : List (Fin FRAMES)} {last : Fin FRAMES} (horder : order = front ++ [last])
    (hall : ∀ i, i ∈ order) : oldest s.time = last := by
  have hnewest := h.newest_first
  subst horder
  rcases List.mem_append.mp (hall (oldest s.time)) with hin | hin
  · have hlt := (List.pairwise_append.mp hnewest).2.2 _ hin last (by simp)
    exact absurd (oldest_le s.time last) (Int32.not_le.mpr hlt)
  · exact List.mem_singleton.mp hin

/-- One request keeps the frames and times in step with the history. -/
theorem Recorded.request (hreal : -1 ∉ requested) {page : Int32} (hpage : page ≠ -1)
    (hlength : requested.length < 2147483647) :
    ∃ order', Recorded (requested ++ [page]) (lru_request s page) order' := by
  unfold lru_request
  cases hfind : findPage s.buffer page with
  | some pos =>
    have hpos := findPage_eq_some hfind
    have hmem : pos ∈ order := (h.mem_iff hreal).mpr (hpos ▸ hpage)
    have hnext := h.promote hlength (h.hit hpos hmem) (s.hits + 1) s.misses
    rw [← hpos, set_get_fin, hpos] at hnext
    exact ⟨_, hnext⟩
  | none =>
    have hmiss := findPage_eq_none_iff.mp hfind
    dsimp only
    cases hempty : findPage s.buffer (-1) with
    | some empty =>
      have hnot : empty ∉ order := fun hin => (h.mem_iff hreal).mp hin (findPage_eq_some hempty)
      have hfew : order.length ≤ 2 := by
        have hle := (List.nodup_cons.mpr ⟨hnot, h.nodup⟩).length_le_card
        rw [Fintype.card_fin, List.length_cons] at hle
        exact Nat.le_of_succ_le_succ hle
      refine ⟨_, h.promote hlength ?_ s.hits (s.misses + 1)⟩
      rw [h.miss hmiss, List.erase_of_not_mem hnot, List.take_of_length_le (by simpa using hfew)]
    | none =>
      have hall (i : Fin FRAMES) : i ∈ order := (h.mem_iff hreal).mpr (findPage_eq_none_iff.mp hempty i)
      have hfull : order.length = 3 := by
        have hcard := List.toFinset_card_of_nodup h.nodup
        have huniv : order.toFinset = Finset.univ := by
          ext i
          simp [hall i]
        rw [huniv, Finset.card_univ, Fintype.card_fin] at hcard
        exact hcard.symm
      obtain ⟨front, last, horder⟩ := List.eq_nil_or_concat order |>.resolve_left (by rintro rfl; simp at hfull)
      rw [List.concat_eq_append] at horder
      have hlast : last ∉ front := fun hin => by
        have hnodup := h.nodup
        rw [horder] at hnodup
        exact (List.disjoint_of_nodup_append hnodup) hin (by simp)
      have herase : order.erase last = front := by
        rw [horder, List.erase_append_right _ hlast, List.erase_cons_head, List.append_nil]
      have hfront : front.length = 2 := by
        rw [horder, List.length_append, List.length_singleton] at hfull
        omega
      dsimp only
      rw [h.oldest_eq horder hall]
      refine ⟨_, h.promote hlength ?_ s.hits (s.misses + 1)⟩
      rw [h.miss hmiss, herase, horder, List.map_append, List.take_left' (by simpa using hfront)]

end Recorded

theorem lru_init_recorded : Recorded [] lru_init [] := by
  refine ⟨List.nodup_nil, rfl, List.Pairwise.nil, ?_, ?_, rfl⟩
  · decide
  · decide

/-- Which counter a request advances. -/
theorem lru_request_counts (s : lru_t) (page : Int32) :
    ((∃ i, s.buffer.get i = page) ∧ (lru_request s page).hits = s.hits + 1 ∧ (lru_request s page).misses = s.misses) ∨
    ((¬ ∃ i, s.buffer.get i = page) ∧ (lru_request s page).hits = s.hits ∧
      (lru_request s page).misses = s.misses + 1) := by
  unfold lru_request
  cases hfind : findPage s.buffer page with
  | some pos => exact Or.inl ⟨⟨pos, findPage_eq_some hfind⟩, rfl, rfl⟩
  | none =>
    refine Or.inr ⟨fun ⟨i, hi⟩ => findPage_eq_none_iff.mp hfind i hi, ?_⟩
    dsimp only
    cases findPage s.buffer (-1) <;> exact ⟨rfl, rfl⟩

/-- The state after a history of requests, with its two counters. -/
structure Simulated (requested : List Int32) (s : lru_t) : Prop where
  recorded : ∃ order, Recorded requested s order
  real : -1 ∉ requested
  hits_nonneg : 0 ≤ s.hits.toInt
  misses_nonneg : 0 ≤ s.misses.toInt
  total : s.hits.toInt + s.misses.toInt = requested.length

theorem Simulated.request {requested : List Int32} {s : lru_t} (h : Simulated requested s) {page : Int32}
    (hpage : page ≠ -1) (hlength : requested.length < 2147483647) :
    Simulated (requested ++ [page]) (lru_request s page) := by
  obtain ⟨⟨order, hrecorded⟩, hreal, hhits, hmisses, htotal⟩ := h
  have hnext := hrecorded.request hreal hpage hlength
  have hreal : -1 ∉ requested ++ [page] := by simpa using ⟨hreal, Ne.symm hpage⟩
  rcases lru_request_counts s page with ⟨-, hhits', hmisses'⟩ | ⟨-, hhits', hmisses'⟩
  · have hadd : (s.hits + 1).toInt = s.hits.toInt + 1 := toInt_succ (by omega)
    refine ⟨hnext, hreal, ?_, ?_, ?_⟩
    · rw [hhits', hadd]
      omega
    · rwa [hmisses']
    · rw [hhits', hmisses', hadd, List.length_append, List.length_singleton]
      omega
  · have hadd : (s.misses + 1).toInt = s.misses.toInt + 1 := toInt_succ (by omega)
    refine ⟨hnext, hreal, ?_, ?_, ?_⟩
    · rwa [hhits']
    · rw [hmisses', hadd]
      omega
    · rw [hhits', hmisses', hadd, List.length_append, List.length_singleton]
      omega

theorem simulateLRU_simulated {requested : List Int32} (hpages : ∀ page ∈ requested, page ≠ -1)
    (hlength : requested.length < 2 ^ 31) : Simulated requested (simulateLRU requested) := by
  have hstep : ∀ past s page, page ≠ -1 → (past.length < 2 ^ 31 → Simulated past s) →
      ((past ++ [page]).length < 2 ^ 31 → Simulated (past ++ [page]) (lru_request s page)) := by
    intro past s page hpage h hnext
    rw [List.length_append, List.length_singleton] at hnext
    exact (h (by omega)).request hpage (by omega)
  have hinit : Simulated [] lru_init := ⟨⟨[], lru_init_recorded⟩, by simp, by decide, by decide, rfl⟩
  exact foldl_history hstep (fun _ => hinit) hpages hlength

/-- The frames hold these pages, each one in a frame of its own. -/
structure Resident (buffer : Vector Int32 FRAMES) (pages : List Int32) : Prop where
  iff_mem : ∀ page, page ≠ -1 → ((∃ i, buffer.get i = page) ↔ page ∈ pages)
  once : ∀ i j, buffer.get i ≠ -1 → buffer.get i = buffer.get j → i = j

/-- `simulateLRU` is exact: after each request the most recently requested pages are
resident, as many as there are frames or distinct pages; the request is a hit if and
only if its page was one of them before; and every request is counted once. -/
theorem simulateLRU_exact (references : List Int32) (hpages : ∀ page ∈ references, page ≠ -1)
    (hlength : references.length < 2 ^ 31) (requested : List Int32) (page : Int32)
    (hnow : requested ++ [page] <+: references) :
    Resident (simulateLRU (requested ++ [page])).buffer ((most_recent (requested ++ [page])).take FRAMES) ∧
    ((most_recent (requested ++ [page])).take FRAMES).length = min FRAMES (requested ++ [page]).dedup.length ∧
    (simulateLRU (requested ++ [page])).hits =
      (simulateLRU requested).hits + (if page ∈ (most_recent requested).take FRAMES then 1 else 0) ∧
    (simulateLRU (requested ++ [page])).misses =
      (simulateLRU requested).misses + (if page ∈ (most_recent requested).take FRAMES then 0 else 1) ∧
    (simulateLRU (requested ++ [page])).hits.toInt + (simulateLRU (requested ++ [page])).misses.toInt =
      (requested ++ [page]).length := by
  have hsubset : ∀ p ∈ requested ++ [page], p ≠ -1 := fun p hp => hpages p (hnow.subset hp)
  have hle := hnow.length_le
  have hbefore : Simulated requested (simulateLRU requested) := by
    refine simulateLRU_simulated (fun p hp => hsubset p (by simp [hp])) ?_
    rw [List.length_append, List.length_singleton] at hle
    omega
  have hafter := simulateLRU_simulated hsubset (by omega)
  obtain ⟨order, hrecorded⟩ := hafter.recorded
  obtain ⟨order', hrecorded'⟩ := hbefore.recorded
  have hpage := hrecorded'.resident_iff (hsubset page (by simp))
  have hstep : simulateLRU (requested ++ [page]) = lru_request (simulateLRU requested) page := by
    simp [simulateLRU]
  refine ⟨⟨fun p hp => hrecorded.resident_iff hp, fun i j => hrecorded.once hafter.real⟩, ?_, ?_, ?_, hafter.total⟩
  · rw [List.length_take, length_most_recent]
  · rw [hstep]
    rcases lru_request_counts (simulateLRU requested) page with ⟨hhit, hhits, -⟩ | ⟨hmiss, hhits, -⟩
    · rw [if_pos (hpage.mp hhit), hhits]
    · rw [if_neg (hpage.not.mp hmiss), hhits, Int32.add_zero]
  · rw [hstep]
    rcases lru_request_counts (simulateLRU requested) page with ⟨hhit, -, hmisses⟩ | ⟨hmiss, -, hmisses⟩
    · rw [if_pos (hpage.mp hhit), hmisses, Int32.add_zero]
    · rw [if_neg (hpage.not.mp hmiss), hmisses]

/-- The last request of the string the program simulates, an eviction. -/
theorem simulateLRU_exact_pages :
    Resident (simulateLRU ([1, 2, 3, 1, 2, 3, 1, 4, 2, 5, 1] ++ [2])).buffer
      ((most_recent ([1, 2, 3, 1, 2, 3, 1, 4, 2, 5, 1] ++ [2])).take FRAMES) :=
  (simulateLRU_exact [1, 2, 3, 1, 2, 3, 1, 4, 2, 5, 1, 2] (by simp) (by decide) [1, 2, 3, 1, 2, 3, 1, 4, 2, 5, 1] 2
    (List.prefix_refl _)).1

end csystems.page_cache
