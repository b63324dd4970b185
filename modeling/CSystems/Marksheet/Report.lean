import CSystems.Lib.Format
import CSystems.Lib.Text
import CSystems.Lib.Token

open clib.ctype clib.format clib.string clib.text clib.token

namespace csystems.marksheet

def MAX_LINE_LEN : Nat := 200
def MAX_SUBJECTS : Nat := 20

def COMMA : UInt8 := 44
def NEWLINE : UInt8 := 10

def NAME : List UInt8 := ascii ['N', 'A', 'M', 'E']
def ROLL_NO : List UInt8 := ascii ['R', 'O', 'L', 'L', '.', 'N', 'O', '.']
def TOTAL : List UInt8 := ascii ['T', 'O', 'T', 'A', 'L']
def AVERAGE : List UInt8 := ascii ['A', 'V', 'E', 'R', 'A', 'G', 'E']
def Total : List UInt8 := ascii ['T', 'o', 't', 'a', 'l']

structure Subject where
  name : List UInt8
  marks : Int32
  deriving DecidableEq

/-- A student as the report has it: the total and the average are texts of its row. -/
structure Student where
  Name : List UInt8
  RollNO : Int32
  subjects : List Subject
  deriving DecidableEq

/-- The variables of `main` that `AddStudent` changes, and the report file. -/
structure sheet_t where
  studentList : List Student
  SubjectCount : Int32
  subjectNames : List (List UInt8)
  file : Option (List UInt8)

def initial : sheet_t where
  studentList := []
  SubjectCount := 0
  subjectNames := []
  file := none

/-- What one call of `AddStudent` meets: the values typed in, whether the two
`fopen` succeed, and the texts that the conversions `%d` and `%.2f` make of the
total and the average. `subjectName i` is the line read for subject `i`. -/
structure input_t where
  Name : List UInt8
  RollNO : Int32
  SubjectCount : Int32
  subjectName : Nat → List UInt8
  marks : Nat → Int32
  creates : Bool
  appends : Bool
  total : List UInt8
  average : List UInt8

def isRollNoDuplicate (list : List Student) (rollNo : Int32) : Bool := list.any fun s => s.RollNO = rollNo

/-- A newline at the end of the line goes. -/
def strip_newline (line : List UInt8) : List UInt8 := if line.getLast? = some NEWLINE then line.dropLast else line

def number_text (n : Int32) : List UInt8 := ascii (decimal n.toInt)

def header (subjectNames : List (List UInt8)) : List UInt8 :=
  NAME ++ COMMA :: ROLL_NO ++ subjectNames.flatMap (COMMA :: ·) ++ COMMA :: TOTAL ++ COMMA :: AVERAGE ++ [NEWLINE]

def row (s : Student) (total average : List UInt8) : List UInt8 :=
  s.Name ++ COMMA :: number_text s.RollNO ++ (s.subjects.flatMap fun subject => COMMA :: number_text subject.marks) ++
    COMMA :: total ++ COMMA :: average ++ [NEWLINE]

/-- The student that a call fills in. -/
def new_student (input : input_t) (g : sheet_t) : Student where
  Name := c_str input.Name
  RollNO := input.RollNO
  subjects := (List.range g.SubjectCount.toNatClampNeg).map fun i => ⟨g.subjectNames.getD i [], input.marks i⟩

/-- The marks are read and the student is written to the file. -/
def AddMarks (input : input_t) (g : sheet_t) : sheet_t × Nat :=
  let stud := new_student input g
  let g := { g with studentList := g.studentList ++ [stud] }
  if input.appends = false then (g, 0)
  else ({ g with file := some (g.file.getD [] ++ row stud input.total input.average) }, 1)

def AddStudent (input : input_t) (g : sheet_t) : sheet_t × Nat :=
  if isRollNoDuplicate g.studentList input.RollNO then (g, 0)
  else if g.studentList = [] then
    let g := { g with SubjectCount := input.SubjectCount }
    if g.SubjectCount < 3 then (g, 0)
    else
      let names := (List.range g.SubjectCount.toNatClampNeg).map fun i => strip_newline (c_str (input.subjectName i))
      let g := { g with subjectNames := names }
      if input.creates = false then (g, 0)
      else AddMarks input { g with file := some (header names) }
  else AddMarks input g

/-- One call; the students of the calls that returned 1 are collected. -/
def step (s : sheet_t × List Student) (input : input_t) : sheet_t × List Student :=
  ((AddStudent input s.1).1,
    if (AddStudent input s.1).2 = 1 then s.2 ++ (AddStudent input s.1).1.studentList.getLast?.toList else s.2)

def run (inputs : List input_t) : sheet_t × List Student := inputs.foldl step (initial, [])

/-- The statement `line[strcspn(line, "\n")] = 0`. -/
def chomp (line : List UInt8) : List UInt8 := (c_str line).takeWhile (· ≠ NEWLINE)

/-- The subjects in a header line: what stands after the first two words, up to
the word `Total`. -/
def read_subjects (line : List UInt8) : List (List UInt8) :=
  ((tokens COMMA (chomp line)).drop 2).takeWhile (· ≠ Total)

/-- The marks of the subjects, and the tokens after them. -/
def read_marks : List (List UInt8) → List (List UInt8) → Option (List Subject × List (List UInt8))
  | [], tokens => some ([], tokens)
  | _ :: _, [] => none
  | name :: subjectNames, token :: tokens => do
    let (subjects, tokens) ← read_marks subjectNames tokens
    some (⟨name, atoi token⟩ :: subjects, tokens)

/-- A student's line. Where a token is missing `strcpy`, `atoi` or `atof` gets a
null pointer; the token of the total is not looked at. -/
def read_row (subjectNames : List (List UInt8)) (line : List UInt8) : Option Student :=
  match tokens COMMA (chomp line) with
  | Name :: RollNO :: rest => do
    let (subjects, rest) ← read_marks subjectNames rest
    let _ ← rest[1]?
    some { Name := Name, RollNO := atoi RollNO, subjects := subjects }
  | _ => none

/-- The students listed. Dereferencing a null pointer or writing past the array of
subjects is `none`. -/
def DisplayAll (file : Option (List UInt8)) : Option (List Student) :=
  match file with
  | none => some []
  | some text =>
    match read_lines NEWLINE (MAX_LINE_LEN - 1) (text.length + 1) text with
    | [] => some []
    | line :: lines =>
      if (read_subjects line).length ≤ MAX_SUBJECTS then lines.mapM (read_row (read_subjects line)) else none

def header_words : List (List UInt8) := [NAME, ROLL_NO, TOTAL, AVERAGE]

/-- At most 18 subjects, names that are single words, subject names that are single
fields, none of them a word of the header, and lines that `fgets` reads whole. -/
structure Allowed (g : sheet_t) (added : List Student) : Prop where
  few : g.subjectNames.length ≤ 18
  name : ∀ s ∈ added, s.Name ≠ [] ∧ (∀ c ∈ s.Name, isspace c = false) ∧ s.Name ∉ header_words
  subject : ∀ name ∈ g.subjectNames, name ≠ [] ∧ COMMA ∉ name ∧ NEWLINE ∉ name ∧ name ∉ header_words
  line : ∀ line ∈ physical_lines NEWLINE (g.file.getD []), line.length < MAX_LINE_LEN

end csystems.marksheet
