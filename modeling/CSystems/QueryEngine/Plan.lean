import Mathlib.Data.List.Basic
import CSystems.Lib.CString

open clib.string

namespace csystems.query_engine

def MAX_CHAR : Nat := 10
def TABLESIZE : Nat := 5
def LIMIT : Nat := 1

/-- A row. The city may fill its array, which then has no terminator; comparing
it with a shorter string does not read past the array. -/
structure Student_t where
  name : CStr MAX_CHAR
  age : Int32
  city : Vector UInt8 MAX_CHAR

/-- `"chennai"`. -/
def chennai : List UInt8 := [99, 104, 101, 110, 110, 97, 105]

/-- The globals the operators share. `current` points into the table. -/
structure globals_t where
  currentIndex : Nat
  currentLimit : Nat
  current : Option (Fin TABLESIZE)
  deriving DecidableEq

def initial : globals_t where
  currentIndex := 0
  currentLimit := 0
  current := none

def table_scan_open (g : globals_t) : globals_t := { g with currentIndex := 0 }

def table_scan_next (g : globals_t) : globals_t × Option (Fin TABLESIZE) :=
  if h : g.currentIndex < TABLESIZE then ({ g with currentIndex := g.currentIndex + 1 }, some ⟨g.currentIndex, h⟩)
  else (g, none)

theorem table_scan_next_some {g g' : globals_t} {i : Fin TABLESIZE} (h : table_scan_next g = (g', some i)) :
    i.val = g.currentIndex ∧ g' = { g with currentIndex := g.currentIndex + 1 } := by
  unfold table_scan_next at h
  split at h
  · obtain ⟨rfl, hi⟩ := Prod.mk.inj h
    exact ⟨(congrArg Fin.val (Option.some.inj hi)).symm, rfl⟩
  · cases h

theorem table_scan_next_lt {g g' : globals_t} {i : Fin TABLESIZE} (h : table_scan_next g = (g', some i)) :
    TABLESIZE - g'.currentIndex < TABLESIZE - g.currentIndex := by
  obtain ⟨hi, rfl⟩ := table_scan_next_some h
  have hlt := i.isLt
  dsimp only
  omega

theorem table_scan_next_none {g g' : globals_t} (h : table_scan_next g = (g', none)) :
    TABLESIZE ≤ g.currentIndex ∧ g' = g := by
  unfold table_scan_next at h
  split at h
  · cases h
  · next hend =>
    obtain ⟨rfl, -⟩ := Prod.mk.inj h
    exact ⟨by omega, rfl⟩

def table_scan_close (g : globals_t) : globals_t := g

def filter_open (g : globals_t) : globals_t := table_scan_open g

/-- The condition of `filter_next`. -/
def selects (student : Student_t) : Bool := decide (strcmp student.city.toList chennai = 0)

def filter_next (students : Vector Student_t TABLESIZE) (g : globals_t) : globals_t × Option (Fin TABLESIZE) :=
  match hnext : table_scan_next g with
  | (g', none) => ({ g' with current := none }, none)
  | (g', some i) =>
    if selects (students.get i) then ({ g' with current := some i }, some i)
    else filter_next students { g' with current := some i }
termination_by TABLESIZE - g.currentIndex
decreasing_by exact table_scan_next_lt hnext

def filter_close (g : globals_t) : globals_t := table_scan_close g

def limit_open (g : globals_t) : globals_t := filter_open g

def limit_next (students : Vector Student_t TABLESIZE) (g : globals_t) : globals_t × Option (Fin TABLESIZE) :=
  if LIMIT ≤ g.currentLimit then (g, none)
  else
    match filter_next students g with
    | (g', none) => ({ g' with current := none }, none)
    | (g', some i) => ({ g' with currentLimit := g'.currentLimit + 1, current := some i }, some i)

def limit_close (g : globals_t) : globals_t := filter_close g

def projection_open (g : globals_t) : globals_t := limit_open g

theorem limit_next_some {students : Vector Student_t TABLESIZE} {g g' : globals_t} {i : Fin TABLESIZE}
    (h : limit_next students g = (g', some i)) :
    g.currentLimit < LIMIT ∧ ∃ g₁, filter_next students g = (g₁, some i) ∧
      g' = { g₁ with currentLimit := g₁.currentLimit + 1, current := some i } := by
  unfold limit_next at h
  split at h
  · cases h
  · next hlimit =>
    split at h
    · cases h
    · next g₁ j hfilter =>
      obtain ⟨rfl, hj⟩ := Prod.mk.inj h
      obtain rfl := Option.some.inj hj
      exact ⟨by omega, g₁, hfilter, rfl⟩

section Rows

variable {students : Vector Student_t TABLESIZE} {g g' : globals_t}

/-- The rows from the cursor on that the filter lets through. -/
def rows_from (students : Vector Student_t TABLESIZE) (g : globals_t) : List Student_t :=
  (students.toList.drop g.currentIndex).filter selects

private theorem drop_eq_cons {i : Fin TABLESIZE} (hi : i.val = g.currentIndex) :
    students.toList.drop g.currentIndex = students.get i :: students.toList.drop (g.currentIndex + 1) := by
  rw [← hi, List.drop_eq_getElem_cons (by simp)]
  rfl

/-- `filter_next` goes to the next row that matches, and leaves the limit. -/
theorem filter_next_eq (students : Vector Student_t TABLESIZE) (g : globals_t) :
    rows_from students g = ((filter_next students g).2.elim [] fun i =>
      students.get i :: rows_from students (filter_next students g).1) ∧
    (filter_next students g).1.currentLimit = g.currentLimit := by
  fun_induction filter_next students g with
  | case1 g s hnext =>
    obtain ⟨hend, rfl⟩ := table_scan_next_none hnext
    refine ⟨?_, rfl⟩
    rw [rows_from, List.drop_eq_nil_of_le (by simpa using hend)]
    rfl
  | case2 g s i hnext hselects =>
    obtain ⟨hi, rfl⟩ := table_scan_next_some hnext
    refine ⟨?_, rfl⟩
    rw [rows_from, drop_eq_cons hi, List.filter_cons_of_pos hselects]
    rfl
  | case3 g s i hnext hselects ih =>
    obtain ⟨hi, rfl⟩ := table_scan_next_some hnext
    obtain ⟨hrows, hlimit⟩ := ih
    refine ⟨?_, hlimit⟩
    rw [← hrows, rows_from, drop_eq_cons hi, List.filter_cons_of_neg hselects]
    rfl

theorem filter_next_none (h : filter_next students g = (g', none)) :
    rows_from students g = [] ∧ g'.currentLimit = g.currentLimit := by
  simpa [h] using filter_next_eq students g

theorem filter_next_some {i : Fin TABLESIZE} (h : filter_next students g = (g', some i)) :
    rows_from students g = students.get i :: rows_from students g' ∧ g'.currentLimit = g.currentLimit := by
  simpa [h] using filter_next_eq students g

private theorem limit_next_lt {i : Fin TABLESIZE} (h : limit_next students g = (g', some i)) :
    LIMIT - g'.currentLimit < LIMIT - g.currentLimit := by
  obtain ⟨hlt, g₁, hfilter, rfl⟩ := limit_next_some h
  have hlimit := (filter_next_some hfilter).2
  dsimp only
  omega

end Rows

/-- What `projection_next` prints of a row. -/
def project (student : Student_t) : CStr MAX_CHAR × Int32 := (student.name, student.age)

/-- `projection_next` with the rows it prints. -/
def projection_next (students : Vector Student_t TABLESIZE) (g : globals_t) :
    globals_t × List (CStr MAX_CHAR × Int32) :=
  match hnext : limit_next students g with
  | (g', none) => ({ g' with current := none }, [])
  | (g', some i) =>
    let (g', rows) := projection_next students { g' with current := some i }
    (g', project (students.get i) :: rows)
termination_by LIMIT - g.currentLimit
decreasing_by exact limit_next_lt hnext

def projection_close (g : globals_t) : globals_t := limit_close g

/-- One execution of the plan, as in `main`. -/
def execute (students : Vector Student_t TABLESIZE) (g : globals_t) : globals_t × List (CStr MAX_CHAR × Int32) :=
  let g := projection_open g
  let (g, rows) := projection_next students g
  (projection_close g, rows)

/-- What each of `n` executions prints. -/
def executions (students : Vector Student_t TABLESIZE) : Nat → globals_t → List (List (CStr MAX_CHAR × Int32))
  | 0, _ => []
  | n + 1, g =>
    let (g, rows) := execute students g
    rows :: executions students n g

/-- The answer to the query: name and age of the first rows whose city is
`"chennai"`. -/
def answer (students : Vector Student_t TABLESIZE) : List (CStr MAX_CHAR × Int32) :=
  ((students.toList.filter fun student => decide (c_str student.city.toList = chennai)).take LIMIT).map project

section Executions

variable {students : Vector Student_t TABLESIZE} {g : globals_t}

/-- The rows printed are those the limit leaves, which it counts. -/
theorem projection_next_eq (students : Vector Student_t TABLESIZE) (g : globals_t) :
    (projection_next students g).2 = ((rows_from students g).take (LIMIT - g.currentLimit)).map project ∧
    (projection_next students g).1.currentLimit =
      g.currentLimit + ((rows_from students g).take (LIMIT - g.currentLimit)).length := by
  fun_induction projection_next students g with
  | case1 g s hnext =>
    unfold limit_next at hnext
    split at hnext
    · next hlimit =>
      obtain ⟨rfl, -⟩ := Prod.mk.inj hnext
      rw [Nat.sub_eq_zero_of_le hlimit, List.take_zero]
      exact ⟨rfl, rfl⟩
    · split at hnext
      · next g₁ hfilter =>
        obtain ⟨rfl, -⟩ := Prod.mk.inj hnext
        obtain ⟨hrows, hlimit⟩ := filter_next_none hfilter
        rw [hrows, List.take_nil]
        exact ⟨rfl, hlimit⟩
      · cases hnext
  | case2 g s i hnext g' rows hrest ih =>
    obtain ⟨hlt, g₁, hfilter, rfl⟩ := limit_next_some hnext
    rw [hrest] at ih
    obtain ⟨hprinted, hcount⟩ := ih
    obtain ⟨hrows, hlimit⟩ := filter_next_some hfilter
    obtain ⟨k, hk⟩ : ∃ k, LIMIT - g.currentLimit = k + 1 := ⟨LIMIT - g.currentLimit - 1, by omega⟩
    have hk' : LIMIT - (g₁.currentLimit + 1) = k := by omega
    have hsame : rows_from students { g₁ with currentLimit := g₁.currentLimit + 1, current := some i } =
      rows_from students g₁ := rfl
    dsimp only at hprinted hcount
    rw [hk', hsame] at hprinted hcount
    rw [hrows, hk, List.take_succ_cons]
    refine ⟨?_, ?_⟩
    · rw [hprinted]
      rfl
    · rw [hcount, List.length_cons]
      omega

/-- One execution prints what the limit of the earlier ones leaves. -/
theorem execute_eq (students : Vector Student_t TABLESIZE) (g : globals_t) :
    (execute students g).2 = ((students.toList.filter selects).take (LIMIT - g.currentLimit)).map project ∧
    (execute students g).1.currentLimit =
      g.currentLimit + ((students.toList.filter selects).take (LIMIT - g.currentLimit)).length := by
  have hopened : rows_from students (projection_open g) = students.toList.filter selects := rfl
  rw [← hopened]
  exact projection_next_eq students (projection_open g)

theorem selects_iff (student : Student_t) : selects student = true ↔ c_str student.city.toList = chennai := by
  rw [selects, decide_eq_true_eq, strcmp_eq_zero_iff, @c_str_eq_self chennai (by decide)]

private theorem answer_eq : answer students = ((students.toList.filter selects).take LIMIT).map project := by
  rw [answer]
  congr 2
  refine List.filter_congr fun student _ => ?_
  rw [Bool.eq_iff_iff, decide_eq_true_eq, selects_iff]

private theorem executions_succ (n : Nat) (g : globals_t) :
    executions students (n + 1) g = (execute students g).2 :: executions students n (execute students g).1 := rfl

/-- Where no row matches, no execution prints any. -/
private theorem executions_nil (hnone : students.toList.filter selects = []) (n : Nat) (g : globals_t) :
    ∀ rows ∈ executions students n g, rows = [] := by
  induction n generalizing g with
  | zero => simp [executions]
  | succ n ih =>
    intro rows hrows
    rw [executions_succ] at hrows
    rcases List.mem_cons.mp hrows with rfl | hrest
    · rw [(execute_eq students g).1, hnone, List.take_nil, List.map_nil]
    · exact ih _ rows hrest

end Executions

/-- Every one of `n` executions in one process prints the answer to the query
if and only if there is at most one or no row matches: `currentLimit` is never
set back. -/
theorem executions_answer_iff (students : Vector Student_t TABLESIZE) (n : Nat) :
    (∀ rows ∈ executions students n initial, rows = answer students) ↔
      n ≤ 1 ∨ ∀ student ∈ students.toList, c_str student.city.toList ≠ chennai := by
  have hnone : (∀ student ∈ students.toList, c_str student.city.toList ≠ chennai) ↔
      students.toList.filter selects = [] := by
    rw [List.filter_eq_nil_iff]
    refine forall₂_congr fun student _ => ?_
    rw [selects_iff]
  rw [hnone, answer_eq]
  constructor
  · intro hall
    by_contra hnot
    push Not at hnot
    obtain ⟨hmany, hmatch⟩ := hnot
    obtain ⟨k, rfl⟩ : ∃ k, n = k + 2 := ⟨n - 2, by omega⟩
    obtain ⟨student, rest, hcons⟩ := List.exists_cons_of_ne_nil hmatch
    -- the first execution uses the limit up, the second prints nothing
    have hlimit : (execute students initial).1.currentLimit = LIMIT := by
      rw [(execute_eq students initial).2, hcons]
      rfl
    have hsecond := hall (execute students (execute students initial).1).2 (by simp [executions])
    rw [(execute_eq students _).1, hlimit, hcons] at hsecond
    cases hsecond
  · rintro (hfew | hempty)
    · intro rows hrows
      obtain rfl | rfl : n = 0 ∨ n = 1 := by omega
      · cases hrows
      · obtain rfl : rows = (execute students initial).2 := by simpa [executions] using hrows
        exact (execute_eq students initial).1
    · rw [hempty]
      exact executions_nil hempty n initial

/-- The table of the program. -/
def students : Vector Student_t TABLESIZE :=
  #v[⟨⟨[82, 111, 104, 105, 116, 104], by decide, by decide⟩, 23, #v[99, 104, 101, 110, 110, 97, 105, 0, 0, 0]⟩,
    ⟨⟨[78, 97, 118, 101, 101, 110], by decide, by decide⟩, 10, #v[98, 97, 110, 103, 97, 108, 111, 114, 101, 0]⟩,
    ⟨⟨[68, 105, 110, 101, 115, 104], by decide, by decide⟩, 18, #v[67, 111, 105, 109, 98, 97, 116, 111, 114, 101]⟩,
    ⟨⟨[86, 105, 103, 110, 101, 115, 104], by decide, by decide⟩, 24, #v[99, 104, 101, 110, 110, 97, 105, 0, 0, 0]⟩,
    ⟨⟨[80, 114, 97, 118, 101, 101, 110], by decide, by decide⟩, 26, #v[77, 117, 109, 98, 97, 105, 0, 0, 0, 0]⟩]

/-- The second execution of the plan prints no row. -/
theorem second_execution_prints_nothing :
    answer students = [(⟨[82, 111, 104, 105, 116, 104], by decide, by decide⟩, 23)] ∧
    executions students 2 initial = [answer students, []] ∧
    ¬ ∀ rows ∈ executions students 2 initial, rows = answer students := by
  have hanswer : answer students = [(⟨[82, 111, 104, 105, 116, 104], by decide, by decide⟩, 23)] := rfl
  have hlimit : (execute students initial).1.currentLimit = LIMIT := (execute_eq students initial).2
  have hprinted : executions students 2 initial = [answer students, []] := by
    have hfirst : (execute students initial).2 = answer students := (execute_eq students initial).1
    have hsecond := (execute_eq students (execute students initial).1).1
    rw [hlimit, Nat.sub_self, List.take_zero, List.map_nil] at hsecond
    rw [executions_succ, executions_succ, hfirst, hsecond]
    rfl
  refine ⟨hanswer, hprinted, ?_⟩
  intro hall
  have hempty := hall [] (by rw [hprinted]; simp)
  rw [hanswer] at hempty
  cases hempty

end csystems.query_engine
