import Mathlib.Data.List.Basic

namespace csystems.page_cache

def MAX_FRAMES : Int := 3

/-- The global lists and counters of the ARC simulation. Each list is the pages
of its nodes, in the order of their `next` links. -/
structure arc_t where
  T1 : List Int32
  T2 : List Int32
  B1 : List Int32
  B2 : List Int32
  p : Int
  hitsARC : Nat
  missesARC : Nat
  deriving DecidableEq, Repr

/-- The globals at program start. -/
def arc_init : arc_t := { T1 := [], T2 := [], B1 := [], B2 := [], p := 0, hitsARC := 0, missesARC := 0 }

/-- What a request prints: a hit, or a miss that found the page in `B1`, in `B2`
or in no list. -/
inductive outcome_t where
  | hit
  | miss_b1
  | miss_b2
  | miss_new
  deriving DecidableEq, Repr

def outcome_t.is_hit : outcome_t → Bool
  | .hit => true
  | _ => false

def contains : List Int32 → Int32 → Bool
  | [], _ => false
  | cur :: next, page => if cur = page then true else contains next page

/-- Unlinks the first node of the page. -/
def removeNode : List Int32 → Int32 → List Int32
  | [], _ => []
  | cur :: next, page => if cur = page then next else cur :: removeNode next page

def addToFront (list : List Int32) (page : Int32) : List Int32 := page :: list

def length (list : List Int32) : Int := list.length

/-- Takes the last node off the list; an empty list answers `-1`. -/
def removeLRU : List Int32 → Int32 × List Int32
  | [] => (-1, [])
  | [page] => (page, [])
  | cur :: next :: rest =>
    let (page, list) := removeLRU (next :: rest)
    (page, cur :: list)

/-- The test of `replaceARC` that decides from which list it evicts. -/
def evicts_T1 (s : arc_t) : Bool :=
  length s.T1 ≥ 1 && (length s.T1 > s.p || (contains s.B2 0 && length s.T1 = s.p))

def replaceARC (s : arc_t) : arc_t :=
  if evicts_T1 s then
    let (old, T1) := removeLRU s.T1
    { s with T1 := T1, B1 := addToFront s.B1 old }
  else
    let (old, T2) := removeLRU s.T2
    { s with T2 := T2, B2 := addToFront s.B2 old }

/-- The target after a hit in the ghost list `B1`. -/
def p_after_b1 (s : arc_t) : Int :=
  if s.p + (if length s.B2 > 0 then 1 else 0) < MAX_FRAMES then s.p + 1 else MAX_FRAMES

/-- The target after a hit in the ghost list `B2`. -/
def p_after_b2 (s : arc_t) : Int :=
  if s.p - (if length s.B1 > 0 then 1 else 0) > 0 then s.p - 1 else 0

def hit_T1 (s : arc_t) (page : Int32) : arc_t :=
  { s with T1 := removeNode s.T1 page, T2 := addToFront s.T2 page, hitsARC := s.hitsARC + 1 }

def hit_T2 (s : arc_t) (page : Int32) : arc_t :=
  { s with T2 := addToFront (removeNode s.T2 page) page, hitsARC := s.hitsARC + 1 }

def miss_B1 (s : arc_t) (page : Int32) : arc_t :=
  let s := replaceARC { s with p := p_after_b1 s, missesARC := s.missesARC + 1 }
  { s with B1 := removeNode s.B1 page, T2 := addToFront s.T2 page }

def miss_B2 (s : arc_t) (page : Int32) : arc_t :=
  let s := replaceARC { s with p := p_after_b2 s, missesARC := s.missesARC + 1 }
  { s with B2 := removeNode s.B2 page, T2 := addToFront s.T2 page }

def miss_new (s : arc_t) (page : Int32) : arc_t :=
  let s := { s with missesARC := s.missesARC + 1 }
  let s := if length s.T1 + length s.T2 ≥ MAX_FRAMES then replaceARC s else s
  { s with T1 := addToFront s.T1 page }

/-- One iteration of the loop of `simulateARC`. -/
def request (s : arc_t) (page : Int32) : outcome_t × arc_t :=
  if contains s.T1 page || contains s.T2 page then
    (.hit, if contains s.T1 page then hit_T1 s page else hit_T2 s page)
  else if contains s.B1 page then (.miss_b1, miss_B1 s page)
  else if contains s.B2 page then (.miss_b2, miss_B2 s page)
  else (.miss_new, miss_new s page)

/-- The loop of `simulateARC` over a reference string: what each request prints
and the globals it leaves. -/
def simulate : arc_t → List Int32 → List outcome_t × arc_t
  | s, [] => ([], s)
  | s, page :: pages =>
    let (outcome, s) := request s page
    let (outcomes, s) := simulate s pages
    (outcome :: outcomes, s)

def simulateARC (pages : List Int32) : List outcome_t × arc_t := simulate arc_init pages

@[simp] theorem contains_iff {list : List Int32} {page : Int32} : contains list page = true ↔ page ∈ list := by
  induction list with
  | nil => simp [contains]
  | cons cur next ih =>
    rw [contains, List.mem_cons]
    by_cases hcur : cur = page
    · simp [hcur]
    · simp [hcur, ih, Ne.symm hcur]

@[simp] theorem removeNode_eq (list : List Int32) (page : Int32) : removeNode list page = list.erase page := by
  induction list with
  | nil => rfl
  | cons cur next ih =>
    rw [removeNode, List.erase_cons, ih]
    simp only [beq_iff_eq]

/-- `removeLRU` takes off the last page of a list that has one. -/
@[simp] theorem removeLRU_append (list : List Int32) (page : Int32) : removeLRU (list ++ [page]) = (page, list) := by
  induction list with
  | nil => rfl
  | cons cur next ih =>
    cases next with
    | nil => rfl
    | cons cur' rest =>
      rw [List.cons_append, List.cons_append, removeLRU]
      rw [List.cons_append] at ih
      rw [ih]

theorem evicts_T1_iff {s : arc_t} :
    evicts_T1 s = true ↔ 1 ≤ s.T1.length ∧ (s.p < s.T1.length ∨ 0 ∈ s.B2 ∧ (s.T1.length : Int) = s.p) := by
  have hpos : (1 : Int) ≤ s.T1.length ↔ 1 ≤ s.T1.length := by omega
  simp only [evicts_T1, ge_iff_le, gt_iff_lt, Bool.and_eq_true, Bool.or_eq_true, decide_eq_true_eq, contains_iff]
  rw [length, hpos]

/-- What an eviction does: it moves the last page of `T1` or of `T2` to the ghosts
of that list, or finds `T2` empty and makes `-1` a ghost. -/
theorem replaceARC_cases (s : arc_t) :
    (∃ T1 old, evicts_T1 s = true ∧ s.T1 = T1 ++ [old] ∧ replaceARC s = { s with T1 := T1, B1 := old :: s.B1 }) ∨
    (∃ T2 old, evicts_T1 s = false ∧ s.T2 = T2 ++ [old] ∧ replaceARC s = { s with T2 := T2, B2 := old :: s.B2 }) ∨
    (evicts_T1 s = false ∧ s.T2 = [] ∧ replaceARC s = { s with T2 := [], B2 := (-1) :: s.B2 }) := by
  unfold replaceARC
  by_cases hevicts : evicts_T1 s = true
  · obtain ⟨hpos, -⟩ := evicts_T1_iff.mp hevicts
    obtain ⟨T1, old, hT1⟩ := List.eq_nil_or_concat s.T1 |>.resolve_left (by rintro hnil; simp [hnil] at hpos)
    refine Or.inl ⟨T1, old, hevicts, by simpa using hT1, ?_⟩
    rw [if_pos hevicts, hT1]
    simp [addToFront]
  · rw [if_neg hevicts]
    rw [Bool.not_eq_true] at hevicts
    refine Or.inr ?_
    obtain hT2 | ⟨T2, old, hT2⟩ := List.eq_nil_or_concat s.T2
    · exact Or.inr ⟨hevicts, hT2, by rw [hT2]; rfl⟩
    · refine Or.inl ⟨T2, old, hevicts, by simpa using hT2, ?_⟩
      rw [hT2]
      simp [addToFront]

/-- Which of its five branches a request takes. -/
theorem request_cases (s : arc_t) (page : Int32) :
    (page ∈ s.T1 ∧ request s page = (.hit, hit_T1 s page)) ∨
    (page ∉ s.T1 ∧ page ∈ s.T2 ∧ request s page = (.hit, hit_T2 s page)) ∨
    (page ∉ s.T1 ∧ page ∉ s.T2 ∧ page ∈ s.B1 ∧ request s page = (.miss_b1, miss_B1 s page)) ∨
    (page ∉ s.T1 ∧ page ∉ s.T2 ∧ page ∉ s.B1 ∧ page ∈ s.B2 ∧ request s page = (.miss_b2, miss_B2 s page)) ∨
    (page ∉ s.T1 ∧ page ∉ s.T2 ∧ page ∉ s.B1 ∧ page ∉ s.B2 ∧ request s page = (.miss_new, miss_new s page)) := by
  by_cases hT1 : page ∈ s.T1
  · simp [request, hT1]
  by_cases hT2 : page ∈ s.T2
  · simp [request, hT1, hT2]
  by_cases hB1 : page ∈ s.B1
  · simp [request, hT1, hT2, hB1]
  by_cases hB2 : page ∈ s.B2
  · simp [request, hT1, hT2, hB1, hB2]
  · simp [request, hT1, hT2, hB1, hB2]

/-- The state a request leaves. -/
def step (s : arc_t) (page : Int32) : arc_t := (request s page).2

theorem simulate_state (s : arc_t) (pages : List Int32) : (simulate s pages).2 = pages.foldl step s := by
  induction pages generalizing s with
  | nil => rfl
  | cons page pages ih => exact ih (step s page)

end csystems.page_cache
