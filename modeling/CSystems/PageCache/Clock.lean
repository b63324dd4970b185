import Mathlib.Data.Nat.ModEq
import CSystems.Lib.Run
import CSystems.PageCache.Lru

open clib.run clib.scan

namespace csystems.page_cache

/-- The element at an index of an array, if the index is within the array. -/
def load {α : Type} {n : Nat} (xs : Vector α n) (i : Nat) : Option α := xs[i]?

/-- Overwrites the element at an index, if the index is within the array. -/
def store {α : Type} {n : Nat} (xs : Vector α n) (i : Nat) (x : α) : Option (Vector α n) :=
  if h : i < n then some (xs.set i x h) else none

/-- The local variables of `simulateClock`. -/
structure clock_t where
  buffer : Vector Int32 FRAMES
  refBit : Vector Int32 FRAMES
  pointer : Nat
  hits : Int32
  misses : Int32
  deriving DecidableEq, Repr

def clock_init : clock_t where
  buffer := Vector.replicate FRAMES (-1)
  refBit := Vector.replicate FRAMES 0
  pointer := 0
  hits := 0
  misses := 0

/-- The search for the page, `remaining` frames from `j` on. It has no result if it
leaves the array. -/
def search {n : Nat} (buffer : Vector Int32 n) (page : Int32) : Nat → Nat → Option (Option Nat)
  | 0, _ => some none
  | remaining + 1, j => do
    let frame ← load buffer j
    if frame = page then some (some j) else search buffer page remaining (j + 1)

/-- One iteration of the miss loop: it replaces the page in the frame at the pointer
and breaks, or takes away the second chance of that frame. -/
def replace_step (page : Int32) (s : clock_t) : Option (Bool × clock_t) := do
  let bit ← load s.refBit s.pointer
  if bit = 0 then
    let buffer ← store s.buffer s.pointer page
    let refBit ← store s.refBit s.pointer 1
    some (true, { s with buffer := buffer, refBit := refBit, pointer := (s.pointer + 1) % FRAMES })
  else
    let refBit ← store s.refBit s.pointer 0
    some (false, { s with refBit := refBit, pointer := (s.pointer + 1) % FRAMES })

/-- The miss loop, cut off after a number of iterations. -/
def replace_loop (page : Int32) : Nat → clock_t → Option clock_t
  | 0, _ => none
  | iterations + 1, s => do
    let (done, s) ← replace_step page s
    if done then some s else replace_loop page iterations s

/-- One iteration of the loop of `simulateClock` whose search runs over `bound` frames. -/
def clock_request (bound : Nat) (s : clock_t) (page : Int32) : Option clock_t := do
  let found ← search s.buffer page bound 0
  match found with
  | some j =>
    let refBit ← store s.refBit j 1
    some { s with refBit := refBit, hits := s.hits + 1 }
  | none => replace_loop page (FRAMES + 1) { s with misses := s.misses + 1 }

/-- `simulateClock` over a reference string. -/
def simulateClock (pages : List Int32) : Option clock_t := pages.foldlM (clock_request FRAMES) clock_init

@[simp] theorem load_fin {α : Type} {n : Nat} (xs : Vector α n) (i : Fin n) : load xs i = some (xs.get i) := by
  rw [load, Vector.getElem?_eq_getElem i.isLt]
  rfl

@[simp] theorem store_fin {α : Type} {n : Nat} (xs : Vector α n) (i : Fin n) (x : α) :
    store xs i x = some (xs.set i.val x i.isLt) := dif_pos i.isLt

theorem load_eq_none {α : Type} {n : Nat} (xs : Vector α n) {i : Nat} (h : n ≤ i) : load xs i = none := by
  rw [load, Vector.getElem?_eq_none h]

/-- A search within the array finds the first frame of the page. -/
theorem search_eq {n : Nat} (buffer : Vector Int32 n) (page : Int32) {remaining j : Nat} (h : j + remaining = n)
    (hbefore : ∀ i : Fin n, i.val < j → buffer.get i ≠ page) :
    search buffer page remaining j = some ((findPage buffer page).map Fin.val) := by
  induction remaining generalizing j with
  | zero =>
    have hnone : findPage buffer page = none := findPage_eq_none_iff.mpr fun i => hbefore i (by omega)
    rw [hnone]
    rfl
  | succ remaining ih =>
    have hj : j < n := by omega
    rw [search, load_fin buffer ⟨j, hj⟩]
    by_cases hframe : buffer.get ⟨j, hj⟩ = page
    · have hfound : findPage buffer page = some ⟨j, hj⟩ := by
        rw [findPage, findFinIdx?_eq_some_iff]
        exact ⟨by simpa using hframe, fun i hi => by simpa using hbefore i hi⟩
      simp [hframe, hfound]
    · have hrest : ∀ i : Fin n, i.val < j + 1 → buffer.get i ≠ page := by
        intro i hi
        by_cases hij : i.val = j
        · have heq : i = ⟨j, hj⟩ := Fin.ext hij
          rwa [heq]
        · exact hbefore i (by omega)
      simpa [hframe] using ih (by omega) hrest

/-- The frame that the pointer reaches from `pointer` in so many steps. -/
def ahead (pointer steps : Nat) : Fin FRAMES := ⟨(pointer + steps) % FRAMES, Nat.mod_lt _ (by decide)⟩

/-- The state after the pointer has passed over `d` frames. -/
def passed (d : Nat) (s : clock_t) : clock_t :=
  { s with
    refBit := Vector.ofFn fun i => if ∃ j < d, ahead s.pointer j = i then 0 else s.refBit.get i
    pointer := (s.pointer + d) % FRAMES }

/-- The state after the page has replaced the one `d` frames ahead. -/
def replaced (page : Int32) (d : Nat) (s : clock_t) : clock_t :=
  { s with
    buffer := s.buffer.set (ahead s.pointer d).val page (ahead s.pointer d).isLt
    refBit := (passed d s).refBit.set (ahead s.pointer d).val 1 (ahead s.pointer d).isLt
    pointer := (s.pointer + (d + 1)) % FRAMES }

@[simp] theorem refBit_passed (d : Nat) (s : clock_t) (i : Fin FRAMES) :
    (passed d s).refBit.get i = if ∃ j < d, ahead s.pointer j = i then 0 else s.refBit.get i :=
  Vector.getElem_ofFn i.isLt

theorem ahead_inj {pointer j d : Nat} (hj : j < FRAMES) (hd : d < FRAMES) (h : ahead pointer j = ahead pointer d) :
    j = d := by
  have hmod : (pointer + j) % FRAMES = (pointer + d) % FRAMES := congrArg Fin.val h
  have hcancel : j % FRAMES = d % FRAMES := Nat.ModEq.add_left_cancel' pointer hmod
  rwa [Nat.mod_eq_of_lt hj, Nat.mod_eq_of_lt hd] at hcancel

theorem exists_ahead {pointer : Nat} (hpointer : pointer < FRAMES) (i : Fin FRAMES) :
    ∃ j < FRAMES, ahead pointer j = i := by
  refine ⟨(i.val + (FRAMES - pointer)) % FRAMES, Nat.mod_lt _ (by decide), Fin.ext ?_⟩
  simp only [ahead, Nat.add_mod_mod]
  rw [show pointer + (i.val + (FRAMES - pointer)) = i.val + FRAMES by omega, Nat.add_mod_right,
    Nat.mod_eq_of_lt i.isLt]

section Loop

variable {s : clock_t} {page : Int32} {d : Nat}

/-- What the next iteration does depends on the bit of the frame `d` ahead. -/
theorem replace_step_passed (s : clock_t) (page : Int32) (d : Nat) :
    replace_step page (passed d s) = if (passed d s).refBit.get (ahead s.pointer d) = 0 then
      some (true, replaced page d s) else some (false, passed (d + 1) s) := by
  have hpointer : (passed d s).pointer = (ahead s.pointer d).val := rfl
  have hnext : ((passed d s).pointer + 1) % FRAMES = (s.pointer + (d + 1)) % FRAMES := by
    simp only [passed, Nat.mod_add_mod, Nat.add_assoc]
  unfold replace_step
  rw [hnext, hpointer]
  simp only [load_fin, store_fin, Option.bind_eq_bind, Option.bind_some]
  split
  · rfl
  · have hbits : (passed d s).refBit.set (ahead s.pointer d).val 0 (ahead s.pointer d).isLt =
        (passed (d + 1) s).refBit := by
      refine ext_fin fun i => ?_
      rw [get_set_fin, refBit_passed, refBit_passed]
      by_cases hi : ahead s.pointer d = i
      · rw [if_pos hi, if_pos ⟨d, Nat.lt_succ_self d, hi⟩]
      · have hiff : (∃ j < d + 1, ahead s.pointer j = i) ↔ ∃ j < d, ahead s.pointer j = i := by
          constructor
          · rintro ⟨j, hj, heq⟩
            have hjd : j ≠ d := by
              rintro rfl
              exact hi heq
            exact ⟨j, by omega, heq⟩
          · rintro ⟨j, hj, heq⟩
            exact ⟨j, by omega, heq⟩
        rw [if_neg hi]
        simp only [hiff]
    rw [hbits]
    rfl

/-- How far the pointer goes: past frames whose bits are set, to one whose bit is not
set, or once around. -/
def Reaches (s : clock_t) (d : Nat) : Prop :=
  d ≤ FRAMES ∧ (∀ j < d, s.refBit.get (ahead s.pointer j) ≠ 0) ∧ (d < FRAMES → s.refBit.get (ahead s.pointer d) = 0)

theorem exists_reaches (s : clock_t) : ∃ d, Reaches s d := by
  suffices h : ∀ k ≤ FRAMES, (∃ d, Reaches s d) ∨ ∀ j < k, s.refBit.get (ahead s.pointer j) ≠ 0 by
    obtain hreaches | hall := h FRAMES (Nat.le_refl _)
    · exact hreaches
    · exact ⟨FRAMES, Nat.le_refl _, hall, fun hlt => absurd hlt (Nat.lt_irrefl _)⟩
  intro k hk
  induction k with
  | zero => exact Or.inr fun j hj => absurd hj (Nat.not_lt_zero j)
  | succ k ih =>
    obtain hreaches | hall := ih (by omega)
    · exact Or.inl hreaches
    · by_cases hbit : s.refBit.get (ahead s.pointer k) = 0
      · exact Or.inl ⟨k, by omega, hall, fun _ => hbit⟩
      · refine Or.inr fun j hj => ?_
        obtain hlt | rfl := Nat.lt_succ_iff_lt_or_eq.mp hj
        · exact hall j hlt
        · exact hbit

/-- The loop replaces the page in the frame it reaches, in one iteration more than the
frames it passes over. -/
theorem replace_loop_eq (hpointer : s.pointer < FRAMES) (h : Reaches s d) (more : Nat) :
    replace_loop page (d + 1 + more) s = some (replaced page d s) := by
  obtain ⟨hle, hset, hclear⟩ := h
  have hfrom : ∀ m e, e + m = d → replace_loop page (m + 1 + more) (passed e s) = some (replaced page d s) := by
    intro m
    induction m with
    | zero =>
      intro e he
      obtain rfl : e = d := he
      have hbit : (passed e s).refBit.get (ahead s.pointer e) = 0 := by
        rw [refBit_passed]
        by_cases hlt : e < FRAMES
        · split
          · rfl
          · exact hclear hlt
        · -- the pointer is back where it started, and has passed over that frame
          obtain rfl : e = FRAMES := by omega
          have haround : ahead s.pointer 0 = ahead s.pointer FRAMES := Fin.ext (by simp [ahead])
          exact if_pos ⟨0, by decide, haround⟩
      rw [show 0 + 1 + more = more + 1 by omega, replace_loop, replace_step_passed, if_pos hbit]
      rfl
    | succ m ih =>
      intro e he
      have hbit : (passed e s).refBit.get (ahead s.pointer e) ≠ 0 := by
        rw [refBit_passed, if_neg]
        · exact hset e (by omega)
        · rintro ⟨j, hj, heq⟩
          have heq := ahead_inj (by omega) (by omega) heq
          omega
      rw [show m + 1 + 1 + more = m + 1 + more + 1 by omega, replace_loop, replace_step_passed, if_neg hbit]
      exact ih (e + 1) (by omega)
  have hstart : passed 0 s = s := by
    have hbits : (passed 0 s).refBit = s.refBit := ext_fin fun i => by simp
    have hmod : (s.pointer + 0) % FRAMES = s.pointer := Nat.mod_eq_of_lt hpointer
    have hfields : passed 0 s = { s with refBit := (passed 0 s).refBit, pointer := (s.pointer + 0) % FRAMES } := rfl
    rw [hfields, hbits, hmod]
  rw [← hfrom d 0 (Nat.zero_add d), hstart]

end Loop

/-- What every reachable state satisfies: the pointer is within the frames, a bit is
set or not, and no page is in two frames. -/
structure Sound (s : clock_t) : Prop where
  pointer_lt : s.pointer < FRAMES
  bits : ∀ i, s.refBit.get i = 0 ∨ s.refBit.get i = 1
  once : ∀ i j, s.buffer.get i ≠ -1 → s.buffer.get i = s.buffer.get j → i = j

theorem clock_init_sound : Sound clock_init := ⟨by decide, by decide, by decide⟩

/-- The first frame from the pointer on whose bit is not set, or the one at the
pointer if all bits are set. -/
def Victim (s : clock_t) (v : Fin FRAMES) : Prop :=
  (∃ d < FRAMES, v = ahead s.pointer d ∧ s.refBit.get v = 0 ∧ ∀ j < d, s.refBit.get (ahead s.pointer j) = 1) ∨
    (v.val = s.pointer ∧ ∀ i, s.refBit.get i = 1)

/-- All bits from the pointer up to and including this frame are set. -/
def PassedOver (s : clock_t) (i : Fin FRAMES) : Prop :=
  ∃ d < FRAMES, i = ahead s.pointer d ∧ ∀ j ≤ d, s.refBit.get (ahead s.pointer j) = 1

/-- A replacement in one frame, with a second chance for the frames passed over. -/
structure SecondChance (page : Int32) (s s' : clock_t) (v : Fin FRAMES) : Prop where
  victim : Victim s v
  loaded : s'.buffer = s.buffer.set v.val page v.isLt
  referenced : s'.refBit.get v = 1
  cleared : ∀ i, i ≠ v → PassedOver s i → s'.refBit.get i = 0
  kept : ∀ i, i ≠ v → ¬ PassedOver s i → s'.refBit.get i = s.refBit.get i
  pointer : s'.pointer = (v.val + 1) % FRAMES

/-- A request of a resident page only marks its frame. -/
theorem clock_request_hit {s : clock_t} {page : Int32} {pos : Fin FRAMES}
    (hfind : findPage s.buffer page = some pos) :
    clock_request FRAMES s page =
      some { s with refBit := s.refBit.set pos.val 1 pos.isLt, hits := s.hits + 1 } := by
  rw [clock_request, search_eq s.buffer page (Nat.zero_add _) (by simp), hfind]
  simp

section Sound

variable {s : clock_t} {page : Int32} (h : Sound s)

include h

theorem Sound.bit_of_ne {i : Fin FRAMES} (hbit : s.refBit.get i ≠ 0) : s.refBit.get i = 1 :=
  (h.bits i).resolve_left hbit

theorem Sound.secondChance {d : Nat} (hreaches : Reaches s d) :
    SecondChance page s (replaced page d s) (ahead s.pointer d) := by
  obtain ⟨hle, hset, hclear⟩ := hreaches
  have hpassed (i : Fin FRAMES) : (∃ j < d, ahead s.pointer j = i) ↔ PassedOver s i := by
    constructor
    · rintro ⟨j, hj, rfl⟩
      exact ⟨j, by omega, rfl, fun k hk => h.bit_of_ne (hset k (by omega))⟩
    · rintro ⟨j, hj, rfl, hall⟩
      refine ⟨j, ?_, rfl⟩
      by_contra hnot
      have hzero := hclear (by omega)
      rw [hall d (by omega)] at hzero
      exact absurd hzero (by decide)
  refine ⟨?_, rfl, ?_, ?_, ?_, ?_⟩
  · by_cases hlt : d < FRAMES
    · exact Or.inl ⟨d, hlt, rfl, hclear hlt, fun j hj => h.bit_of_ne (hset j hj)⟩
    · obtain rfl : d = FRAMES := by omega
      refine Or.inr ⟨?_, fun i => ?_⟩
      · simp only [ahead, Nat.add_mod_right, Nat.mod_eq_of_lt h.pointer_lt]
      · obtain ⟨j, hj, rfl⟩ := exists_ahead h.pointer_lt i
        exact h.bit_of_ne (hset j hj)
  · simp [replaced, get_set_fin]
  · intro i hi hover
    rw [replaced, get_set_fin, if_neg (Ne.symm hi), refBit_passed, if_pos ((hpassed i).mpr hover)]
  · intro i hi hover
    rw [replaced, get_set_fin, if_neg (Ne.symm hi), refBit_passed, if_neg fun hex => hover ((hpassed i).mp hex)]
  · simp only [replaced, ahead, Nat.mod_add_mod, Nat.add_assoc]

/-- A request of another page replaces one, within `FRAMES + 1` iterations. -/
theorem Sound.request_miss (hmiss : ∀ i, s.buffer.get i ≠ page) :
    ∃ d, Reaches s d ∧ clock_request FRAMES s page = some (replaced page d { s with misses := s.misses + 1 }) ∧
      replace_loop page (FRAMES + 1) { s with misses := s.misses + 1 } =
        some (replaced page d { s with misses := s.misses + 1 }) := by
  obtain ⟨d, hreaches⟩ := exists_reaches s
  have hloop : replace_loop page (d + 1 + (FRAMES - d)) { s with misses := s.misses + 1 } =
      some (replaced page d { s with misses := s.misses + 1 }) := by
    apply replace_loop_eq
    · exact h.pointer_lt
    · exact hreaches
  have hle := hreaches.1
  rw [show d + 1 + (FRAMES - d) = FRAMES + 1 by omega] at hloop
  refine ⟨d, hreaches, ?_, hloop⟩
  rw [clock_request, search_eq s.buffer page (Nat.zero_add _) (by simp), findPage_eq_none_iff.mpr hmiss]
  exact hloop

/-- Every request keeps the state sound and leaves its page in a frame. -/
theorem Sound.request (page : Int32) :
    ∃ s', clock_request FRAMES s page = some s' ∧ Sound s' ∧ ∃ i, s'.buffer.get i = page := by
  cases hfind : findPage s.buffer page with
  | some pos =>
    refine ⟨_, clock_request_hit hfind, ⟨h.pointer_lt, fun i => ?_, h.once⟩, pos, findPage_eq_some hfind⟩
    rw [get_set_fin]
    split
    · exact Or.inr rfl
    · exact h.bits i
  | none =>
    have hmiss := findPage_eq_none_iff.mp hfind
    obtain ⟨d, hreaches, heq, -⟩ := h.request_miss hmiss
    refine ⟨_, heq, ⟨Nat.mod_lt _ (by decide), fun i => ?_, fun i j hi hij => ?_⟩, ahead s.pointer d, ?_⟩
    · rw [replaced, get_set_fin]
      split
      · exact Or.inr rfl
      · rw [refBit_passed]
        split
        · exact Or.inl rfl
        · exact h.bits i
    · simp only [replaced, get_set_fin] at hi hij
      by_cases hvi : ahead s.pointer d = i <;> by_cases hvj : ahead s.pointer d = j
      · exact hvi.symm.trans hvj
      · rw [if_pos hvi, if_neg hvj] at hij
        exact absurd hij.symm (hmiss j)
      · rw [if_neg hvi, if_pos hvj] at hij
        exact absurd hij (hmiss i)
      · rw [if_neg hvi] at hi hij
        rw [if_neg hvj] at hij
        exact h.once i j hi hij
    · simp [replaced, get_set_fin]

end Sound

/-- The page is in the frame, marked, and the pointer has just left the frame. -/
structure Loaded (page : Int32) (s : clock_t) (v : Fin FRAMES) : Prop where
  holds : s.buffer.get v = page
  marked : s.refBit.get v = 1
  left : s.pointer = (v.val + 1) % FRAMES

section Loaded

variable {page : Int32} {s : clock_t} {v : Fin FRAMES} (h : Loaded page s v)

include h

/-- A frame that was just loaded is not the one the pointer reaches next. -/
theorem Loaded.not_reached {d : Nat} (hreaches : Reaches s d) : ahead s.pointer d ≠ v := by
  intro heq
  obtain ⟨hle, -, hclear⟩ := hreaches
  by_cases hlt : d < FRAMES
  · have hzero := hclear hlt
    rw [heq, h.marked] at hzero
    exact absurd hzero (by decide)
  · obtain rfl : d = FRAMES := by omega
    have hval : (s.pointer + FRAMES) % FRAMES = v.val := congrArg Fin.val heq
    have hv : v.val < 3 := v.isLt
    rw [h.left, Nat.add_mod_right, Nat.mod_mod] at hval
    change (v.val + 1) % 3 = v.val at hval
    omega

/-- The page survives further hits and the next miss. -/
theorem Loaded.request (hsound : Sound s) (other : Int32) :
    ∃ s', clock_request FRAMES s other = some s' ∧ s'.buffer.get v = page ∧
      ((∃ i, s.buffer.get i = other) → Loaded page s' v) := by
  cases hfind : findPage s.buffer other with
  | some pos =>
    refine ⟨_, clock_request_hit hfind, h.holds, fun _ => ⟨h.holds, ?_, h.left⟩⟩
    rw [get_set_fin]
    split
    · rfl
    · exact h.marked
  | none =>
    have hmiss := findPage_eq_none_iff.mp hfind
    obtain ⟨d, hreaches, heq, -⟩ := hsound.request_miss hmiss
    refine ⟨_, heq, ?_, fun ⟨i, hi⟩ => absurd hi (hmiss i)⟩
    rw [replaced, get_set_fin, if_neg (h.not_reached hreaches)]
    exact h.holds

end Loaded

theorem simulateClock_append (requested : List Int32) (page : Int32) :
    simulateClock (requested ++ [page]) = (simulateClock requested).bind fun s => clock_request FRAMES s page := by
  simp [simulateClock]

/-- Every run has a result, and it is sound. -/
theorem simulateClock_sound (requested : List Int32) : ∃ s, simulateClock requested = some s ∧ Sound s := by
  induction requested using List.reverseRecOn with
  | nil => exact ⟨clock_init, rfl, clock_init_sound⟩
  | append_singleton requested page ih =>
    obtain ⟨s, hs, hsound⟩ := ih
    obtain ⟨s', hs', hsound', -⟩ := hsound.request page
    exact ⟨s', by rw [simulateClock_append, hs, Option.bind_some, hs'], hsound'⟩

/-- The page is resident after this history. -/
def ResidentAfter (history : List Int32) (page : Int32) : Prop :=
  ∃ s, simulateClock history = some s ∧ ∃ i, s.buffer.get i = page

/-- A page that a miss has loaded stays loaded during the hits after it. -/
theorem loaded_after_hits {past between : List Int32} {page : Int32} (hmiss : ¬ ResidentAfter past page)
    (hhits : ∀ front other back, between = front ++ other :: back → ResidentAfter (past ++ page :: front) other) :
    ∃ s v, simulateClock (past ++ page :: between) = some s ∧ Sound s ∧ Loaded page s v := by
  induction between using List.reverseRecOn with
  | nil =>
    obtain ⟨s, hs, hsound⟩ := simulateClock_sound past
    have habsent : ∀ i, s.buffer.get i ≠ page := fun i hi => hmiss ⟨s, hs, i, hi⟩
    obtain ⟨d, hreaches, heq, -⟩ := hsound.request_miss habsent
    obtain ⟨s', hs', hsound', -⟩ := hsound.request page
    obtain rfl := Option.some.inj (heq.symm.trans hs')
    refine ⟨_, ahead s.pointer d, by rw [simulateClock_append, hs, Option.bind_some, heq], hsound', ?_, ?_, ?_⟩
    · simp [replaced, get_set_fin]
    · simp [replaced, get_set_fin]
    · simp only [replaced, ahead, Nat.mod_add_mod, Nat.add_assoc]
  | append_singleton between other ih =>
    obtain ⟨s, v, hs, hsound, hloaded⟩ := ih fun front q back hsplit =>
      hhits front q (back ++ [other]) (by simp [hsplit])
    obtain ⟨s₀, hs₀, hresident⟩ := hhits between other [] rfl
    obtain rfl := Option.some.inj (hs.symm.trans hs₀)
    obtain ⟨s', hs', hsound', -⟩ := hsound.request other
    obtain ⟨s₁, hs₁, -, hkept⟩ := hloaded.request hsound other
    obtain rfl := Option.some.inj (hs'.symm.trans hs₁)
    refine ⟨s', v, ?_, hsound', hkept hresident⟩
    rw [← List.cons_append, ← List.append_assoc, simulateClock_append, hs, Option.bind_some, hs']

/-- `simulateClock` is second-chance replacement. After any history: a miss ends
within `FRAMES + 1` iterations, in the frame that the clock rule chooses and with the
bits it leaves; no page is in two frames; the requested page is resident; and the page
that one miss loads survives the next miss, whatever hits come in between. -/
theorem simulateClock_second_chance (requested : List Int32) (page : Int32) :
    ∃ s s', simulateClock requested = some s ∧ simulateClock (requested ++ [page]) = some s' ∧
      ((∀ i, s.buffer.get i ≠ page) →
        replace_loop page (FRAMES + 1) { s with misses := s.misses + 1 } = some s' ∧
        ∃ v, SecondChance page s s' v) ∧
      (∀ i j, s'.buffer.get i ≠ -1 → s'.buffer.get i = s'.buffer.get j → i = j) ∧
      (∃ i, s'.buffer.get i = page) ∧
      ∀ past loaded between, requested = past ++ loaded :: between → ¬ ResidentAfter past loaded →
        (∀ front other back, between = front ++ other :: back → ResidentAfter (past ++ loaded :: front) other) →
        (∀ i, s.buffer.get i ≠ page) → ∃ i, s'.buffer.get i = loaded := by
  obtain ⟨s, hs, hsound⟩ := simulateClock_sound requested
  obtain ⟨s', hs', hsound', hresident⟩ := hsound.request page
  have hrun : simulateClock (requested ++ [page]) = some s' := by rw [simulateClock_append, hs, Option.bind_some, hs']
  refine ⟨s, s', hs, hrun, fun hmiss => ?_, hsound'.once, hresident, ?_⟩
  · obtain ⟨d, hreaches, heq, hloop⟩ := hsound.request_miss hmiss
    have hcounted : Sound { s with misses := s.misses + 1 } := ⟨hsound.pointer_lt, hsound.bits, hsound.once⟩
    have hchance : SecondChance page _ _ _ := hcounted.secondChance hreaches
    rw [Option.some.inj (hs'.symm.trans heq)]
    exact ⟨hloop, _, hchance.victim, hchance.loaded, hchance.referenced, hchance.cleared, hchance.kept,
      hchance.pointer⟩
  · rintro past loaded between rfl hmiss hhits -
    obtain ⟨s₀, v, hs₀, -, hloaded⟩ := loaded_after_hits hmiss hhits
    obtain rfl := Option.some.inj (hs.symm.trans hs₀)
    obtain ⟨s₁, hs₁, hsurvives, -⟩ := hloaded.request hsound page
    obtain rfl := Option.some.inj (hs'.symm.trans hs₁)
    exact ⟨v, hsurvives⟩

end csystems.page_cache
