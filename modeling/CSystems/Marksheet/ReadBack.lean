import CSystems.Marksheet.Report

open clib.ctype clib.format clib.string clib.text clib.token

namespace csystems.marksheet

section Reader

/-- The words of a header line. -/
def columns (subjectNames : List (List UInt8)) : List (List UInt8) := ROLL_NO :: subjectNames ++ [TOTAL, AVERAGE]

/-- A subject name that makes one field. -/
def IsField (name : List UInt8) : Prop := name ≠ [] ∧ COMMA ∉ name ∧ NEWLINE ∉ name ∧ 0 ∉ name

theorem header_eq (subjectNames : List (List UInt8)) :
    header subjectNames = NAME ++ (columns subjectNames).flatMap (COMMA :: ·) ++ [NEWLINE] := by
  simp [header, columns]

variable {subjectNames : List (List UInt8)}

theorem isField_columns (hfields : ∀ name ∈ subjectNames, IsField name) :
    ∀ word ∈ NAME :: columns subjectNames, IsField word := by
  have hwords : ∀ word ∈ [NAME, ROLL_NO, TOTAL, AVERAGE],
      word ≠ [] ∧ COMMA ∉ word ∧ NEWLINE ∉ word ∧ 0 ∉ word := by decide
  intro word hword
  simp only [columns, List.cons_append, List.mem_cons, List.mem_append, List.not_mem_nil, or_false] at hword
  rcases hword with rfl | rfl | hword | rfl | rfl
  · exact hwords _ (by simp)
  · exact hwords _ (by simp)
  · exact hfields _ hword
  · exact hwords _ (by simp)
  · exact hwords _ (by simp)

/-- A character that no word has is not in the line they make. -/
theorem notMem_fields {c : UInt8} (hc : c ≠ COMMA) {word : List UInt8} {words : List (List UInt8)}
    (hwords : ∀ w ∈ word :: words, c ∉ w) : c ∉ word ++ words.flatMap (COMMA :: ·) := by
  intro hmem
  rcases List.mem_append.mp hmem with hmem | hmem
  · exact hwords word List.mem_cons_self hmem
  · obtain ⟨w, hw, hmem⟩ := List.mem_flatMap.mp hmem
    rcases List.mem_cons.mp hmem with heq | hmem
    · exact hc heq
    · exact hwords w (List.mem_cons_of_mem _ hw) hmem

theorem chomp_line {body : List UInt8} (hnewline : NEWLINE ∉ body) (hnul : 0 ∉ body) :
    chomp (body ++ [NEWLINE]) = body := by
  have hstr : c_str (body ++ [NEWLINE]) = body ++ [NEWLINE] := c_str_eq_self (by simp [hnul, NEWLINE])
  rw [chomp, hstr, List.takeWhile_append_of_pos]
  · simp
  · intro c hc
    have hne : c ≠ NEWLINE := fun heq => hnewline (heq ▸ hc)
    simpa using hne

theorem tokens_header (hfields : ∀ name ∈ subjectNames, IsField name) :
    tokens COMMA (chomp (header subjectNames)) = NAME :: columns subjectNames := by
  have hwords := isField_columns hfields
  rw [header_eq, chomp_line (notMem_fields (by decide) fun w hw => (hwords w hw).2.2.1)
    (notMem_fields (by decide) fun w hw => (hwords w hw).2.2.2)]
  exact tokens_fields (fun w hw => (hwords w hw).1) fun w hw => (hwords w hw).2.1

/-- The reader never finds as many subjects as there are. -/
theorem length_read_subjects_ne (hfields : ∀ name ∈ subjectNames, IsField name) :
    (read_subjects (header subjectNames)).length ≠ subjectNames.length := by
  rw [read_subjects, tokens_header hfields, columns, List.cons_append, List.drop_succ_cons, List.drop_succ_cons,
    List.drop_zero, List.takeWhile_append]
  split
  · -- no subject is called `Total`, and neither are the last two columns
    have hrest : [TOTAL, AVERAGE].takeWhile (· ≠ Total) = [TOTAL, AVERAGE] := by decide
    rw [hrest, List.length_append]
    simp
  · next hne => exact hne

theorem length_of_read_marks {tokens : List (List UInt8)} {subjects : List Subject} {rest : List (List UInt8)}
    (h : read_marks subjectNames tokens = some (subjects, rest)) : subjects.length = subjectNames.length := by
  induction subjectNames generalizing tokens subjects with
  | nil =>
    obtain ⟨rfl, -⟩ := Prod.mk.inj (Option.some.inj h)
    rfl
  | cons name subjectNames ih =>
    cases tokens with
    | nil => cases h
    | cons token tokens =>
      obtain ⟨⟨subjects', rest'⟩, hread, hresult⟩ := Option.bind_eq_some_iff.mp h
      obtain ⟨rfl, rfl⟩ := Prod.mk.inj (Option.some.inj hresult)
      rw [List.length_cons, List.length_cons, ih hread]

theorem length_of_read_row {line : List UInt8} {s : Student} (h : read_row subjectNames line = some s) :
    s.subjects.length = subjectNames.length := by
  rw [read_row] at h
  split at h
  · obtain ⟨⟨subjects, rest⟩, hread, h⟩ := Option.bind_eq_some_iff.mp h
    obtain ⟨_, -, hresult⟩ := Option.bind_eq_some_iff.mp h
    rw [← Option.some.inj hresult]
    exact length_of_read_marks hread
  · cases h

/-- Every student listed has as many subjects as the reader found. -/
theorem length_of_mapM_read_row {lines : List (List UInt8)} {students : List Student}
    (h : lines.mapM (read_row subjectNames) = some students) :
    ∀ s ∈ students, s.subjects.length = subjectNames.length := by
  induction lines generalizing students with
  | nil =>
    obtain rfl : [] = students := Option.some.inj h
    simp
  | cons line lines ih =>
    rw [List.mapM_cons] at h
    obtain ⟨s, hs, h⟩ := Option.bind_eq_some_iff.mp h
    obtain ⟨rest, hrest, hresult⟩ := Option.bind_eq_some_iff.mp h
    obtain rfl : s :: rest = students := Option.some.inj hresult
    intro s' hs'
    rcases List.mem_cons.mp hs' with rfl | hs'
    · exact length_of_read_row hs
    · exact ih hrest s' hs'

/-- A file whose lines fit the buffer is read line by line. -/
theorem DisplayAll_header (hfields : ∀ name ∈ subjectNames, IsField name) {rows : List UInt8}
    (hfit : ∀ line ∈ physical_lines NEWLINE (header subjectNames ++ rows), line.length < MAX_LINE_LEN) :
    DisplayAll (some (header subjectNames ++ rows)) =
      if (read_subjects (header subjectNames)).length ≤ MAX_SUBJECTS then
        (physical_lines NEWLINE rows).mapM (read_row (read_subjects (header subjectNames)))
      else none := by
  have hwords := isField_columns hfields
  have hlines : physical_lines NEWLINE (header subjectNames ++ rows) =
      header subjectNames :: physical_lines NEWLINE rows := by
    rw [header_eq, physical_lines_append (notMem_fields (by decide) fun w hw => (hwords w hw).2.2.1)]
  rw [DisplayAll, read_lines_eq (Nat.lt_succ_self _) fun line hline => Nat.le_sub_one_of_lt (hfit line hline), hlines]

end Reader

section Writer

/-- The file is the header and the rows of the students added, all of whom have
the subjects of the header. -/
structure Written (g : sheet_t) (added : List Student) (rows : List UInt8) : Prop where
  file : g.file = some (header g.subjectNames ++ rows)
  count : g.SubjectCount.toNatClampNeg = g.subjectNames.length
  no_nul : ∀ name ∈ g.subjectNames, 0 ∉ name
  subjects : ∀ s ∈ added, s.subjects.length = g.subjectNames.length
  rows : rows = [] ↔ added = []

/-- There is no file before the first student is entered. -/
def Inv (s : sheet_t × List Student) : Prop :=
  (s.1.studentList = [] ∧ s.1.file = none ∧ s.2 = []) ∨ (s.1.studentList ≠ [] ∧ ∃ rows, Written s.1 s.2 rows)

/-- The students added when the call has returned. -/
def collect (added : List Student) (result : sheet_t × Nat) : sheet_t × List Student :=
  (result.1, if result.2 = 1 then added ++ result.1.studentList.getLast?.toList else added)

theorem step_eq (s : sheet_t × List Student) (input : input_t) :
    step s input = collect s.2 (AddStudent input s.1) := rfl

theorem Written.addMarks {g : sheet_t} {added : List Student} {rows : List UInt8} (h : Written g added rows)
    (input : input_t) : Inv (collect added (AddMarks input g)) := by
  rw [AddMarks]
  dsimp only
  by_cases happends : input.appends = false
  · rw [if_pos happends]
    exact Or.inr ⟨by simp [collect], rows, h.file, h.count, h.no_nul, h.subjects, h.rows⟩
  · rw [if_neg happends]
    refine Or.inr ⟨by simp [collect], rows ++ row (new_student input g) input.total input.average, ?_, h.count,
      h.no_nul, ?_, by simp [collect, row]⟩
    · simp only [collect, h.file, Option.getD_some, List.append_assoc]
    · intro s hs
      rw [collect, if_pos rfl, List.getLast?_concat, Option.toList_some, List.mem_append, List.mem_singleton] at hs
      rcases hs with hs | rfl
      · exact h.subjects s hs
      · rw [new_student, List.length_map, List.length_range, h.count]
        rfl

theorem zero_notMem_strip_newline (line : List UInt8) : 0 ∉ strip_newline (c_str line) := by
  intro hmem
  have hstr : 0 ∈ c_str line := by
    rw [strip_newline] at hmem
    split at hmem
    · exact List.mem_of_mem_dropLast hmem
    · exact hmem
  exact ne_zero_of_mem_c_str hstr rfl

theorem Inv.step {s : sheet_t × List Student} (h : Inv s) (input : input_t) : Inv (step s input) := by
  obtain ⟨g, added⟩ := s
  rw [step_eq, AddStudent]
  dsimp only
  split
  · exact h
  · rcases h with ⟨hnone, hfile, hadded⟩ | ⟨hsome, rows, hwritten⟩
    · rw [if_pos hnone]
      split
      · exact Or.inl ⟨hnone, hfile, hadded⟩
      · split
        · exact Or.inl ⟨hnone, hfile, hadded⟩
        · have hadded : added = [] := hadded
          rw [hadded]
          refine @Written.addMarks _ [] [] ⟨by simp, by simp, ?_, by simp, by simp⟩ input
          intro name hname
          obtain ⟨i, -, rfl⟩ := List.mem_map.mp hname
          exact zero_notMem_strip_newline _
    · rw [if_neg hsome]
      exact hwritten.addMarks input

theorem run_inv (inputs : List input_t) : Inv (run inputs) := by
  rw [run]
  induction inputs using List.reverseRecOn with
  | nil => exact Or.inl ⟨rfl, rfl, rfl⟩
  | append_singleton inputs input ih =>
    rw [List.foldl_append]
    exact ih.step input

end Writer

/-- The report reads back as it was written only as long as no student was added:
the reader takes the last two columns for subjects. -/
theorem report_reads_back_iff (inputs : List input_t) (hallowed : Allowed (run inputs).1 (run inputs).2) :
    DisplayAll (run inputs).1.file = some (run inputs).2 ↔ (run inputs).2 = [] := by
  rcases run_inv inputs with ⟨-, hfile, hadded⟩ | ⟨-, rows, hwritten⟩
  · rw [hfile, hadded]
    exact iff_of_true rfl rfl
  · have hfields : ∀ name ∈ (run inputs).1.subjectNames, IsField name := by
      intro name hname
      obtain ⟨hne, hcomma, hnewline, -⟩ := hallowed.subject name hname
      exact ⟨hne, hcomma, hnewline, hwritten.no_nul name hname⟩
    have hfit := hallowed.line
    rw [hwritten.file, Option.getD_some] at hfit
    rw [hwritten.file, DisplayAll_header hfields hfit]
    constructor
    · intro hread
      split at hread
      · have hlength := length_of_mapM_read_row hread
        by_contra hne
        obtain ⟨s, rest, hadded⟩ := List.exists_cons_of_ne_nil hne
        have hs : s ∈ (run inputs).2 := hadded ▸ List.mem_cons_self
        exact length_read_subjects_ne hfields ((hlength s hs).symm.trans (hwritten.subjects s hs))
      · cases hread
    · intro hadded
      have hcount : (read_subjects (header (run inputs).1.subjectNames)).length ≤ MAX_SUBJECTS := by
        rw [read_subjects, tokens_header hfields, columns, List.cons_append, List.drop_succ_cons,
          List.drop_succ_cons, List.drop_zero]
        have hfew := hallowed.few
        have hle := (List.takeWhile_prefix (l := (run inputs).1.subjectNames ++ [TOTAL, AVERAGE])
          (· ≠ Total)).length_le
        rw [List.length_append] at hle
        exact hle.trans (Nat.add_le_add_right hfew 2)
      rw [if_pos hcount, hwritten.rows.mpr hadded, hadded]
      rfl

/-- A student with marks in the subjects `a`, `b` and `c`. -/
def one_input : input_t where
  Name := ascii ['A', 's', 'h', 'a']
  RollNO := 7
  SubjectCount := 3
  subjectName i := [97 + UInt8.ofNat i, NEWLINE]
  marks i := 70 + Int32.ofNat i
  creates := true
  appends := true
  total := ascii ['1']
  average := ascii ['2', '1', '3', '.', '0', '0']

theorem one_input_allowed : Allowed (run [one_input]).1 (run [one_input]).2 :=
  ⟨by decide +kernel, by decide +kernel, by decide +kernel, by decide +kernel⟩

theorem report_reads_back_iff_one :
    DisplayAll (run [one_input]).1.file = some (run [one_input]).2 ↔ (run [one_input]).2 = [] :=
  report_reads_back_iff [one_input] one_input_allowed

/-- With two columns too many taken for subjects, the row runs out of tokens. -/
theorem row_runs_out_of_tokens :
    Allowed (run [one_input]).1 (run [one_input]).2 ∧
      (run [one_input]).2 = [⟨ascii ['A', 's', 'h', 'a'], 7, [⟨[97], 70⟩, ⟨[98], 71⟩, ⟨[99], 72⟩]⟩] ∧
      DisplayAll (run [one_input]).1.file = none :=
  ⟨one_input_allowed, by decide +kernel, by decide +kernel⟩

end csystems.marksheet
