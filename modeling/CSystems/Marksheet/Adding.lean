import Mathlib.Data.List.Nodup
import Mathlib.Logic.Function.Basic
import CSystems.Marksheet.Report

open clib.string

namespace csystems.marksheet.array

def MAX_NAME_LEN : Nat := 100

/-- An element of `studentList`; `Name` is `none` where it is a null pointer or leads to
memory that was freed. -/
structure slot_t where
  Name : Option (List UInt8)
  RollNO : Int32
  subjects : List Subject
  Total : Float32
  Average : Float32

def slot_t.student (s : slot_t) : Student where
  Name := s.Name.getD []
  RollNO := s.RollNO
  subjects := s.subjects

/-- What `AddStudent` changes: the array, which has room for one more student, the
variables its other arguments point to, and the report file. -/
structure memory_t where
  studentList : Nat → slot_t
  NumberOfStudent : Nat
  SubjectCount : Int32
  subjectNames : List (List UInt8)
  file : Option (List UInt8)

namespace memory_t

/-- The students counted. -/
def students (g : memory_t) : List Student := (List.range g.NumberOfStudent).map fun i => (g.studentList i).student

/-- A store through `stud`. -/
def set_stud (g : memory_t) (f : slot_t → slot_t) : memory_t :=
  { g with studentList := Function.update g.studentList g.NumberOfStudent (f (g.studentList g.NumberOfStudent)) }

/-- No two students have one roll number. -/
def Distinct (g : memory_t) : Prop := (g.students.map Student.RollNO).Nodup

/-- What the users of the list see of the memory. -/
def sheet (g : memory_t) : sheet_t where
  studentList := g.students
  SubjectCount := g.SubjectCount
  subjectNames := g.subjectNames
  file := g.file

end memory_t

/-- The marks of the subjects, their total and their average. -/
def read_marks (input : input_t) (g : memory_t) : memory_t :=
  let subjects := (List.range g.SubjectCount.toNatClampNeg).map fun i => ⟨g.subjectNames.getD i [], input.marks i⟩
  let Total := subjects.foldl (fun total (subject : Subject) => total + subject.marks.toFloat32) 0
  g.set_stud fun s => { s with subjects := subjects, Total := Total, Average := Total / g.SubjectCount.toFloat32 }

/-- The last part: the marks are read, the student is counted, and then written to the file. -/
def AddMarks (input : input_t) (g : memory_t) : memory_t × Nat :=
  let g := read_marks input g
  let stud := (g.studentList g.NumberOfStudent).student
  let g := { g with NumberOfStudent := g.NumberOfStudent + 1 }
  if input.appends = false then (g, 0)
  else ({ g with file := some (g.file.getD [] ++ row stud input.total input.average) }, 1)

/-- `AddStudent`, where `input` gives the values that the conversions leave and `malloc`
whether there is memory for the name; `none` is a write past the end of the name's memory. -/
def AddStudent (input : input_t) (malloc : Bool) (g : memory_t) : Option (memory_t × Nat) :=
  if malloc = false then some (g.set_stud fun s => { s with Name := none }, 0)
  else if MAX_NAME_LEN ≤ input.Name.length then none
  else
    let g := g.set_stud fun s => { s with Name := some (c_str input.Name) }
    let g := g.set_stud fun s => { s with RollNO := input.RollNO }
    if isRollNoDuplicate g.students input.RollNO then some (g.set_stud fun s => { s with Name := none }, 0)
    else if g.NumberOfStudent = 0 then
      let g := { g with SubjectCount := input.SubjectCount }
      if g.SubjectCount < 3 then some (g.set_stud fun s => { s with Name := none }, 0)
      else
        let names := (List.range g.SubjectCount.toNatClampNeg).map fun i => strip_newline (c_str (input.subjectName i))
        let g := { g with subjectNames := names }
        if input.creates = false then some (g, 0)
        else some (AddMarks input { g with file := some (header names) })
    else some (AddMarks input g)

/-- The call reaches the `fopen` for appending. -/
def Appending (input : input_t) (g : memory_t) : Prop :=
  isRollNoDuplicate g.students input.RollNO = false ∧
    (g.NumberOfStudent = 0 → ¬ input.SubjectCount < 3 ∧ input.creates = true)

/-- The call is defined, changes no student and not their number if it returns 0, and
keeps the roll numbers distinct. -/
def Atomic (input : input_t) (malloc : Bool) (g : memory_t) : Prop :=
  ∃ g' result, AddStudent input malloc g = some (g', result) ∧
    (result = 0 → g'.NumberOfStudent = g.NumberOfStudent ∧
      ∀ i < g.NumberOfStudent, g'.studentList i = g.studentList i) ∧ g'.Distinct

section Stores

variable {g : memory_t} (f : slot_t → slot_t)

@[simp] theorem NumberOfStudent_set_stud : (g.set_stud f).NumberOfStudent = g.NumberOfStudent := rfl
@[simp] theorem SubjectCount_set_stud : (g.set_stud f).SubjectCount = g.SubjectCount := rfl
@[simp] theorem subjectNames_set_stud : (g.set_stud f).subjectNames = g.subjectNames := rfl
@[simp] theorem file_set_stud : (g.set_stud f).file = g.file := rfl

/-- The element that is filled in is not one of those counted. -/
theorem studentList_set_stud {i : Nat} (hi : i < g.NumberOfStudent) : (g.set_stud f).studentList i = g.studentList i :=
  Function.update_of_ne (Nat.ne_of_lt hi) _ _

theorem students_congr {g' : memory_t} (hcount : g'.NumberOfStudent = g.NumberOfStudent)
    (hsame : ∀ i < g.NumberOfStudent, g'.studentList i = g.studentList i) : g'.students = g.students := by
  rw [memory_t.students, memory_t.students, hcount]
  exact List.map_congr_left fun i hi => by rw [hsame i (List.mem_range.mp hi)]

@[simp] theorem students_set_stud : (g.set_stud f).students = g.students :=
  students_congr rfl fun _ hi => studentList_set_stud f hi

end Stores

/-- The students and their number are as before. -/
structure Kept (g g' : memory_t) : Prop where
  count : g'.NumberOfStudent = g.NumberOfStudent
  same : ∀ i < g.NumberOfStudent, g'.studentList i = g.studentList i

theorem kept_set_stud (g : memory_t) (f : slot_t → slot_t) : Kept g (g.set_stud f) :=
  ⟨rfl, fun _ hi => studentList_set_stud f hi⟩

theorem Kept.trans {g g' g'' : memory_t} (h : Kept g g') (h' : Kept g' g'') : Kept g g'' :=
  ⟨h'.count.trans h.count, fun i hi => (h'.same i (h.count ▸ hi)).trans (h.same i hi)⟩

theorem Kept.students {g g' : memory_t} (h : Kept g g') : g'.students = g.students := students_congr h.count h.same

section Calls

variable {input : input_t} {g : memory_t}

/-- The memory when the marks were read and the student is counted. -/
def counted (input : input_t) (g : memory_t) : memory_t :=
  { read_marks input g with NumberOfStudent := g.NumberOfStudent + 1 }

theorem AddMarks_failed (g : memory_t) (h : input.appends = false) : AddMarks input g = (counted input g, 0) :=
  if_pos h

theorem AddMarks_written (g : memory_t) (h : input.appends = true) :
    ∃ file, AddMarks input g = ({ counted input g with file := file }, 1) :=
  ⟨_, if_neg (by simp [h])⟩

/-- The student that the call has filled in. -/
def stud (input : input_t) (g : memory_t) : Student where
  Name := (g.studentList g.NumberOfStudent).Name.getD []
  RollNO := (g.studentList g.NumberOfStudent).RollNO
  subjects := (List.range g.SubjectCount.toNatClampNeg).map fun i => ⟨g.subjectNames.getD i [], input.marks i⟩

theorem students_counted (input : input_t) (g : memory_t) :
    (counted input g).students = g.students ++ [stud input g] := by
  have hrest : (List.range g.NumberOfStudent).map (fun i => ((counted input g).studentList i).student) =
      g.students := by
    refine List.map_congr_left fun i hi => ?_
    have hsame : (counted input g).studentList i = g.studentList i :=
      Function.update_of_ne (Nat.ne_of_lt (List.mem_range.mp hi)) _ _
    rw [hsame]
  have hnew : ((counted input g).studentList g.NumberOfStudent).student = stud input g := by
    simp only [counted, read_marks, memory_t.set_stud, Function.update_self, slot_t.student, stud]
  have hcount : (counted input g).NumberOfStudent = g.NumberOfStudent + 1 := rfl
  rw [memory_t.students, hcount, List.range_succ, List.map_append, hrest, List.map_singleton, hnew]

/-- A roll number that no student has may be added. -/
theorem distinct_counted (hdistinct : g.Distinct)
    (hnew : isRollNoDuplicate g.students (g.studentList g.NumberOfStudent).RollNO = false) :
    (counted input g).Distinct := by
  rw [memory_t.Distinct, students_counted, List.map_append, List.map_singleton]
  refine List.Nodup.append hdistinct (List.nodup_singleton _) ?_
  rw [List.disjoint_singleton]
  intro hmem
  obtain ⟨other, hother, heq⟩ := List.mem_map.mp hmem
  have hnone := List.any_eq_false.mp hnew other hother
  simp only [heq, decide_eq_true_eq] at hnone
  exact hnone rfl

/-- The memory after the name and the roll number were read. -/
def filled (input : input_t) (g : memory_t) : memory_t :=
  (g.set_stud fun s => { s with Name := some (c_str input.Name) }).set_stud fun s => { s with RollNO := input.RollNO }

theorem kept_filled (input : input_t) (g : memory_t) : Kept g (filled input g) :=
  (kept_set_stud _ _).trans (kept_set_stud _ _)

theorem filled_stud (input : input_t) (g : memory_t) :
    ((filled input g).studentList g.NumberOfStudent).Name = some (c_str input.Name) ∧
      ((filled input g).studentList g.NumberOfStudent).RollNO = input.RollNO := by
  simp [filled, memory_t.set_stud]

/-- The ways in which a call ends before it reads marks, and the one in which it reads them. -/
theorem AddStudent_cases (input : input_t) (g : memory_t) (hname : input.Name.length < MAX_NAME_LEN) :
    ∃ g', Kept g g' ∧ (g'.studentList g'.NumberOfStudent).RollNO = input.RollNO ∧
      (¬ Appending input g ∧ AddStudent input true g = some (g', 0) ∨
        Appending input g ∧ AddStudent input true g = some (AddMarks input g')) := by
  have hfits : ¬ MAX_NAME_LEN ≤ input.Name.length := by omega
  have hfilled := kept_filled input g
  have hroll := (filled_stud input g).2
  have hfreed (m : memory_t) (hm : (m.studentList m.NumberOfStudent).RollNO = input.RollNO) :
      ((m.set_stud fun s => { s with Name := none }).studentList m.NumberOfStudent).RollNO = input.RollNO := by
    simp [memory_t.set_stud, hm]
  by_cases hdup : isRollNoDuplicate g.students input.RollNO = true
  · refine ⟨_, hfilled.trans (kept_set_stud _ _), hfreed (filled input g) hroll, Or.inl ⟨fun h => ?_, ?_⟩⟩
    · rw [h.1] at hdup
      cases hdup
    · simp [AddStudent, hfits, hdup, filled]
  · rw [Bool.not_eq_true] at hdup
    by_cases hfirst : g.NumberOfStudent = 0
    · let asked : memory_t := { filled input g with SubjectCount := input.SubjectCount }
      have hasked : Kept g asked := ⟨hfilled.count, hfilled.same⟩
      by_cases hfew : input.SubjectCount < 3
      · refine ⟨_, hasked.trans (kept_set_stud asked _), hfreed asked hroll,
          Or.inl ⟨fun h => (h.2 hfirst).1 hfew, ?_⟩⟩
        simp [AddStudent, hfits, hdup, hfirst, hfew, asked, filled]
      · let names := (List.range input.SubjectCount.toNatClampNeg).map fun i =>
          strip_newline (c_str (input.subjectName i))
        cases hcreates : input.creates with
        | false =>
          refine ⟨{ asked with subjectNames := names }, ⟨hasked.count, hasked.same⟩, hroll, Or.inl ⟨fun h => ?_, ?_⟩⟩
          · rw [(h.2 hfirst).2] at hcreates
            cases hcreates
          · simp [AddStudent, hfits, hdup, hfirst, hfew, hcreates, asked, filled, names]
        | true =>
          refine ⟨{ asked with subjectNames := names, file := some (header names) }, ⟨hasked.count, hasked.same⟩, hroll,
            Or.inr ⟨⟨hdup, fun _ => ⟨hfew, hcreates⟩⟩, ?_⟩⟩
          simp [AddStudent, hfits, hdup, hfirst, hfew, hcreates, asked, filled, names]
    · refine ⟨filled input g, hfilled, hroll, Or.inr ⟨⟨hdup, fun h => absurd h hfirst⟩, ?_⟩⟩
      simp [AddStudent, hfits, hdup, hfirst, filled]

/-- A call that returns 0 changes nothing, and one that is defined keeps the roll numbers
distinct, exactly if the name fits and the file can be opened for appending where the
call gets that far. -/
theorem AddStudent_atomic_iff (hdistinct : g.Distinct) (malloc : Bool) :
    Atomic input malloc g ↔
      (malloc = true → input.Name.length < MAX_NAME_LEN ∧ (Appending input g → input.appends = true)) := by
  cases malloc with
  | false =>
    refine iff_of_true ⟨_, 0, if_pos rfl, fun _ => ⟨rfl, fun _ hi => studentList_set_stud _ hi⟩, ?_⟩ nofun
    rwa [memory_t.Distinct, students_set_stud]
  | true =>
    by_cases hname : input.Name.length < MAX_NAME_LEN
    · obtain ⟨g', hkept, hroll, hcases⟩ := AddStudent_cases input g hname
      have hdistinct' : g'.Distinct := by rwa [memory_t.Distinct, hkept.students]
      rcases hcases with ⟨hends, hrun⟩ | ⟨happending, hrun⟩
      · exact iff_of_true ⟨g', 0, hrun, fun _ => ⟨hkept.count, hkept.same⟩, hdistinct'⟩
          fun _ => ⟨hname, fun h => absurd h hends⟩
      · have hnew : isRollNoDuplicate g'.students (g'.studentList g'.NumberOfStudent).RollNO = false := by
          rw [hkept.students, hroll]
          exact happending.1
        cases happends : input.appends with
        | false =>
          refine iff_of_false ?_ fun h => absurd ((h rfl).2 happending) (by decide)
          rintro ⟨g'', result, hrun', hzero, -⟩
          rw [hrun, AddMarks_failed g' happends] at hrun'
          obtain ⟨rfl, rfl⟩ := Prod.mk.inj (Option.some.inj hrun')
          have hcount : g'.NumberOfStudent + 1 = g.NumberOfStudent := (hzero rfl).1
          have hsame := hkept.count
          omega
        | true =>
          obtain ⟨file, hwritten⟩ := AddMarks_written g' happends
          rw [hwritten] at hrun
          exact iff_of_true ⟨_, 1, hrun, nofun, distinct_counted hdistinct' hnew⟩ fun _ => ⟨hname, fun _ => rfl⟩
    · refine iff_of_false ?_ fun h => hname (h rfl).1
      rintro ⟨g', result, hrun, -⟩
      rw [AddStudent, if_neg (by decide), if_pos (by omega)] at hrun
      cases hrun

theorem students_eq_nil_iff : g.students = [] ↔ g.NumberOfStudent = 0 := by
  rw [memory_t.students, List.map_eq_nil_iff, List.range_eq_nil]

/-- Seen through its sheet, the last part is the one of the report. -/
theorem AddMarks_sheet (hstud : stud input g = new_student input g.sheet) :
    ((AddMarks input g).1.sheet, (AddMarks input g).2) = marksheet.AddMarks input g.sheet := by
  have hstudents : (counted input g).students = g.students ++ [new_student input g.sheet] :=
    hstud ▸ students_counted input g
  have hsheet : (counted input g).sheet =
      { g.sheet with studentList := g.students ++ [new_student input g.sheet] } := by
    rw [← hstudents]
    rfl
  cases happends : input.appends with
  | false =>
    rw [AddMarks_failed g happends, marksheet.AddMarks, if_pos happends, hsheet]
    rfl
  | true =>
    have hself : ((counted input g).studentList g.NumberOfStudent).student = stud input g := by
      simp only [counted, read_marks, memory_t.set_stud, Function.update_self, slot_t.student, stud]
    have hrun : AddMarks input g = ({ counted input g with
        file := some (g.file.getD [] ++ row ((counted input g).studentList g.NumberOfStudent).student input.total
          input.average) }, 1) := if_neg (by simp [happends])
    rw [hrun, hself, hstud, marksheet.AddMarks, if_neg (by simp [happends])]
    have hfile (file : Option (List UInt8)) : ({ counted input g with file := file } : memory_t).sheet =
        { (counted input g).sheet with file := file } := rfl
    rw [hfile, hsheet]
    rfl

/-- Seen through its sheet, a call that has memory for the name and whose name fits it is
the call of the report. -/
theorem AddStudent_sheet (hname : input.Name.length < MAX_NAME_LEN) :
    (AddStudent input true g).map (fun r => (r.1.sheet, r.2)) = some (marksheet.AddStudent input g.sheet) := by
  have hfits : ¬ MAX_NAME_LEN ≤ input.Name.length := by omega
  have hlist : g.sheet.studentList = g.students := rfl
  have hmarks (m : memory_t) (hcount : m.NumberOfStudent = g.NumberOfStudent)
      (hslots : m.studentList = (filled input g).studentList) :
      ((AddMarks input m).1.sheet, (AddMarks input m).2) = marksheet.AddMarks input m.sheet := by
    obtain ⟨hself, hroll⟩ := filled_stud input g
    refine AddMarks_sheet ?_
    rw [stud, hslots, hcount, hself, hroll]
    rfl
  by_cases hdup : isRollNoDuplicate g.students input.RollNO = true
  · simp [AddStudent, marksheet.AddStudent, hfits, hdup, memory_t.sheet]
  · rw [Bool.not_eq_true] at hdup
    by_cases hfirst : g.NumberOfStudent = 0
    · have hnil := students_eq_nil_iff.mpr hfirst
      have hnone (rollNo : Int32) : isRollNoDuplicate [] rollNo = false := rfl
      have hstudents (m : memory_t) (hm : m.NumberOfStudent = 0) : m.students = [] := students_eq_nil_iff.mpr hm
      by_cases hfew : input.SubjectCount < 3
      · simp [AddStudent, marksheet.AddStudent, hfits, memory_t.sheet, hfirst, hfew, hnil, hstudents, hnone]
      · cases hcreates : input.creates with
        | false =>
          simp [AddStudent, marksheet.AddStudent, hfits, memory_t.sheet, hfirst, hfew, hnil, hcreates, hnone, hstudents]
        | true =>
          simp [AddStudent, marksheet.AddStudent, hfits, hfirst, hfew, hnil, hcreates, hnone, hlist]
          refine (hmarks _ ?_ ?_).trans ?_
          · exact hfirst.symm
          · rfl
          · simp [memory_t.sheet, hstudents]
    · have hsome : g.students ≠ [] := fun h => hfirst (students_eq_nil_iff.mp h)
      have hsheet : (filled input g).sheet = g.sheet := by simp [filled, memory_t.sheet]
      have hrun : AddStudent input true g = some (AddMarks input (filled input g)) := by
        simp [AddStudent, hfits, hdup, hfirst, filled]
      rw [hrun, Option.map_some, hmarks (filled input g) rfl rfl, hsheet]
      simp [marksheet.AddStudent, hlist, hdup, hsome]

end Calls

/-- One student, and room for more. -/
def one_student : memory_t where
  studentList := fun _ => ⟨some [65], 1, [], 0, 0⟩
  NumberOfStudent := 1
  SubjectCount := 0
  subjectNames := []
  file := none

theorem one_student_distinct : one_student.Distinct := by
  rw [memory_t.Distinct]
  decide

/-- A second student is typed in, and the file cannot be opened for appending. -/
def second_student : input_t where
  Name := [66]
  RollNO := 2
  SubjectCount := 0
  subjectName := fun _ => []
  marks := fun _ => 0
  creates := true
  appends := false
  total := []
  average := []

/-- The file can be opened, and the student is added. -/
theorem AddStudent_atomic_one :
    Atomic { second_student with appends := true } true one_student ↔
      (true = true → [66].length < MAX_NAME_LEN ∧
        (Appending { second_student with appends := true } one_student → true = true)) :=
  AddStudent_atomic_iff one_student_distinct true

/-- The call returns 0, and the second student is counted. -/
theorem failed_call_counts :
    (AddStudent second_student true one_student).map (fun r => (r.1.NumberOfStudent, r.2)) = some (2, 0) ∧
      ¬ ∀ input malloc (g : memory_t), g.Distinct → Atomic input malloc g := by
  have hrun : (AddStudent second_student true one_student).map (fun r => (r.1.NumberOfStudent, r.2)) = some (2, 0) := by
    decide
  refine ⟨hrun, fun hall => ?_⟩
  obtain ⟨g', result, hcall, hzero, -⟩ := hall second_student true one_student one_student_distinct
  rw [hcall, Option.map_some] at hrun
  obtain ⟨hcount, hresult⟩ := Prod.mk.inj (Option.some.inj hrun)
  have hsame := (hzero hresult).1
  rw [hcount] at hsame
  cases hsame

end csystems.marksheet.array
