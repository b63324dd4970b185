import CSystems.WalDemo.Wal

open clib.ctype clib.string clib.format clib.text

namespace csystems.wal_demo

/-- The start of a control line: the word and the number of its transaction. -/
def control (transaction_id : Int32) : List UInt8 :=
  TRANSACTION ++ SPACE :: ascii (decimal transaction_id.toInt)

/-- The lines of a record, without their newlines. -/
def begin_text (transaction_id : Int32) : List UInt8 := control transaction_id ++ SPACE :: BEGIN

def set_text (key value : List UInt8) : List UInt8 := SET ++ SPACE :: key ++ SPACE :: value

def commit_text (transaction_id : Int32) : List UInt8 := control transaction_id ++ SPACE :: COMMIT

/-- A non-empty C string without white space, of at most 100 bytes. -/
structure IsWord (word : List UInt8) : Prop where
  ne_nil : word ≠ []
  length_le : word.length ≤ 100
  text : ∀ c ∈ word, c ≠ 0 ∧ isspace c = false

theorem isWord_of_all {word : List UInt8} (hlength : 1 ≤ word.length ∧ word.length ≤ 100)
    (hall : word.all (fun c => c != 0 && !isspace c) = true) : IsWord word := by
  refine ⟨List.ne_nil_of_length_pos hlength.1, hlength.2, fun c hc => ?_⟩
  have htext := List.all_eq_true.mp hall c hc
  simpa using htext

section Digits

theorem not_infix_digits {word : List UInt8} (n : Int) (hword : ∃ c ∈ word, 57 < c.toNat) :
    ¬ word <:+: ascii (decimal n) := by
  intro h
  obtain ⟨c, hc, hlarge⟩ := hword
  have hdigit := mem_decimal_bytes (h.subset hc)
  omega

end Digits

section Control

variable (id : Int32)

/-- A control word occurs in a control line only after the number. -/
theorem infix_control_iff {word : List UInt8} (hspace : SPACE ∉ word) (hletter : ∃ c ∈ word, 57 < c.toNat)
    (htransaction : ¬ word <:+: TRANSACTION) (rest : List UInt8) :
    word <:+: control id ++ SPACE :: rest ↔ word <:+: rest := by
  have hne : word ≠ [] := by
    obtain ⟨c, hc, -⟩ := hletter
    exact List.ne_nil_of_mem hc
  rw [infix_append_cons_iff hspace hne, control, infix_append_cons_iff hspace hne]
  simp only [htransaction, not_infix_digits id.toInt hletter, or_self, false_or]

theorem mem_control {c : UInt8} (hc : c ∈ control id) : 32 ≤ c.toNat ∧ c.toNat ≤ 90 := by
  rw [control, List.mem_append, List.mem_cons] at hc
  obtain hc | rfl | hc := hc
  · revert hc
    simp only [TRANSACTION, ascii, List.map_cons, List.map_nil, List.mem_cons, List.not_mem_nil, or_false]
    rintro (rfl | rfl | rfl | rfl | rfl | rfl | rfl | rfl | rfl | rfl | rfl) <;> decide
  · decide
  · have hdigit := mem_decimal_bytes hc
    omega

theorem length_control : (control id).length ≤ 23 := by
  have hdecimal := decimal_length_le id
  simp only [control, ascii, List.length_append, List.length_cons, List.length_map]
  have hword : TRANSACTION.length = 11 := rfl
  omega

end Control

section Words

variable {key value : List UInt8}

theorem IsWord.not_mem {word : List UInt8} (h : IsWord word) {c : UInt8} (hc : isspace c = true) : c ∉ word := by
  intro hmem
  rw [(h.text c hmem).2] at hc
  cases hc

theorem IsWord.zero_not_mem {word : List UInt8} (h : IsWord word) : 0 ∉ word := fun hmem => (h.text 0 hmem).1 rfl

/-- A conversion reads the word up to the next white space. -/
theorem scan_words_append {word rest : List UInt8} (h : IsWord word) (hrest : ∀ c ∈ rest.head?, isspace c = true)
    (count : Nat) : scan_words (count + 1) (SPACE :: word ++ rest) = word :: scan_words count rest := by
  have hdrop : (SPACE :: word ++ rest).dropWhile isspace = word ++ rest := by
    obtain ⟨c, tail, rfl⟩ := List.exists_cons_of_ne_nil h.ne_nil
    have hc : isspace c = false := (h.text c (by simp)).2
    have hspace : isspace SPACE = true := by decide
    simp [hspace, hc]
  have htake : (word ++ rest).takeWhile (fun c => !isspace c) = word := by
    rw [List.takeWhile_append_of_pos fun c hc => by simp [(h.text c hc).2]]
    cases rest with
    | nil => simp
    | cons c rest => simp [hrest c (by simp)]
  rw [scan_words]
  simp only [hdrop, htake, if_neg h.ne_nil, List.drop_left]

theorem scan_words_set (hkey : IsWord key) (hvalue : IsWord value) :
    scan_words 2 ((set_text key value ++ [NEWLINE]).drop SET.length) = [key, value] := by
  have htext : (set_text key value ++ [NEWLINE]).drop SET.length = SPACE :: key ++ (SPACE :: value ++ [NEWLINE]) := by
    simp only [set_text, List.append_assoc, List.drop_left]
  rw [htext, scan_words_append hkey (by simp; decide), scan_words_append hvalue (by simp; decide)]
  rfl

theorem length_set_text (hkey : IsWord key) (hvalue : IsWord value) : (set_text key value).length ≤ 205 := by
  have hk := hkey.length_le
  have hv := hvalue.length_le
  have hword : SET.length = 3 := rfl
  simp only [set_text, List.length_append, List.length_cons]
  omega

theorem begin_line_eq (id : Int32) : begin_line id = begin_text id ++ [NEWLINE] := by
  have hcontrol := length_control id
  have hword : BEGIN.length = 5 := rfl
  refine List.take_of_length_le ?_
  simp only [control, List.length_append, List.length_cons, List.length_nil, LINE_SIZE] at hcontrol ⊢
  omega

theorem commit_line_eq (id : Int32) : commit_line id = commit_text id ++ [NEWLINE] := by
  have hcontrol := length_control id
  have hword : COMMIT.length = 6 := rfl
  refine List.take_of_length_le ?_
  simp only [control, List.length_append, List.length_cons, List.length_nil, LINE_SIZE] at hcontrol ⊢
  omega

theorem set_line_eq (hkey : IsWord key) (hvalue : IsWord value) :
    set_line key value = set_text key value ++ [NEWLINE] := by
  have hlength := length_set_text hkey hvalue
  refine List.take_of_length_le ?_
  simp only [set_text, List.length_append, List.length_cons, List.length_nil, LINE_SIZE] at hlength ⊢
  omega

theorem newline_not_mem_begin_text (id : Int32) : NEWLINE ∉ begin_text id := by
  intro hmem
  rw [begin_text, List.mem_append] at hmem
  obtain hmem | hmem := hmem
  · have hlow := (mem_control id hmem).1
    revert hlow
    decide
  · revert hmem
    decide

theorem newline_not_mem_commit_text (id : Int32) : NEWLINE ∉ commit_text id := by
  intro hmem
  rw [commit_text, List.mem_append] at hmem
  obtain hmem | hmem := hmem
  · have hlow := (mem_control id hmem).1
    revert hlow
    decide
  · revert hmem
    decide

theorem newline_not_mem_set_text (hkey : IsWord key) (hvalue : IsWord value) : NEWLINE ∉ set_text key value := by
  have hspace : isspace NEWLINE = true := by decide
  have hset : NEWLINE ∉ SET := by decide
  have hne : NEWLINE ≠ SPACE := by decide
  simp [set_text, hset, hne, hkey.not_mem hspace, hvalue.not_mem hspace]

end Words

section Infix

theorem begin_infix_control_iff (id : Int32) (rest : List UInt8) :
    BEGIN <:+: control id ++ SPACE :: rest ↔ BEGIN <:+: rest :=
  infix_control_iff id (by decide) ⟨66, by decide, by decide⟩ (by decide) rest

theorem commit_infix_control_iff (id : Int32) (rest : List UInt8) :
    COMMIT <:+: control id ++ SPACE :: rest ↔ COMMIT <:+: rest :=
  infix_control_iff id (by decide) ⟨67, by decide, by decide⟩ (by decide) rest

/-- A newline is no part of a control word. -/
theorem infix_newline_iff {word line : List UInt8} (hnewline : NEWLINE ∉ word) (hne : word ≠ []) :
    word <:+: line ++ [NEWLINE] ↔ word <:+: line := by
  rw [infix_append_cons_iff hnewline hne, List.infix_nil]
  simp only [hne, or_false]

/-- The data line is taken for a control line exactly if the key or the value has
the word in it. -/
theorem begin_infix_set_text_iff (key value : List UInt8) :
    BEGIN <:+: set_text key value ↔ BEGIN <:+: key ∨ BEGIN <:+: value := by
  have hspace : SPACE ∉ BEGIN := by decide
  have hne : BEGIN ≠ [] := by decide
  have hset : ¬ BEGIN <:+: SET := by decide
  rw [set_text, infix_append_cons_iff hspace hne, infix_append_cons_iff hspace hne]
  simp only [hset, false_or]

theorem begin_infix_begin_text (id : Int32) : BEGIN <:+: begin_text id :=
  (begin_infix_control_iff id BEGIN).mpr (List.infix_refl _)

theorem not_begin_infix_commit_text (id : Int32) : ¬ BEGIN <:+: commit_text id := by
  rw [commit_text, begin_infix_control_iff]
  decide

theorem commit_infix_commit_text (id : Int32) : COMMIT <:+: commit_text id :=
  (commit_infix_control_iff id COMMIT).mpr (List.infix_refl _)

theorem not_set_prefix_control (id : Int32) (rest : List UInt8) : ¬ SET <+: control id ++ rest := by
  rw [control, TRANSACTION, SET, ascii, ascii]
  simp only [List.map_cons, List.cons_append, List.cons_prefix_cons]
  rintro ⟨hhead, -⟩
  exact absurd hhead (by decide)

end Infix

section Scan

variable (number : Nat) (s : scan_t) (id : Int32) {key value line : List UInt8}

/-- What a line with the word `BEGIN` does to the variables. -/
def scan_t.begun (s : scan_t) : scan_t := { s with inside_tx := true, committed := false }

theorem scan_line_begin (h : BEGIN <:+: line) : scan_line number s line = some (s.begun, []) := by
  rw [scan_line, if_pos (strstr_iff.mpr h)]
  rfl

theorem scan_line_set (hbegin : ¬ BEGIN <:+: line) (hset : SET <+: line) (hinside : s.inside_tx = true) :
    scan_line number s line = (sscanf_set s line).map fun s => (s, []) := by
  rw [scan_line, if_neg (strstr_iff.not.mpr hbegin), if_pos (by simpa [hinside] using hset)]

theorem scan_line_commit (hbegin : ¬ BEGIN <:+: line) (hset : ¬ SET <+: line) (hcommit : COMMIT <:+: line)
    (hinside : s.inside_tx = true) (hkey : s.key = some key) (hval : s.val = some value) :
    scan_line number s line = some ({ s with inside_tx := false, committed := true }, [⟨number, key, value⟩]) := by
  rw [scan_line, if_neg (strstr_iff.not.mpr hbegin), if_neg (by simpa using fun h => absurd h hset),
    if_pos (by simpa [hinside] using hcommit), hkey, hval]

theorem scan_line_other (hbegin : ¬ BEGIN <:+: line) (hset : SET <+: line → s.inside_tx = false)
    (hcommit : COMMIT <:+: line → s.inside_tx = false) : scan_line number s line = some (s, []) := by
  rw [scan_line, if_neg (strstr_iff.not.mpr hbegin)]
  cases hinside : s.inside_tx with
  | false => simp
  | true =>
    have hset : ¬ SET <+: line := fun h => by simp [hset h] at hinside
    have hcommit : ¬ COMMIT <:+: line := fun h => by simp [hcommit h] at hinside
    rw [if_neg (by simpa using hset), if_neg (by simpa using hcommit)]

/-- A complete data line sets the key and the value. -/
theorem scan_line_set_text (hkey : IsWord key) (hvalue : IsWord value) (hinside : s.inside_tx = true)
    (hnokey : ¬ BEGIN <:+: key) (hnovalue : ¬ BEGIN <:+: value) :
    scan_line number s (set_text key value ++ [NEWLINE]) =
      some ({ s with key := some key, val := some value }, []) := by
  have hbegin : ¬ BEGIN <:+: set_text key value ++ [NEWLINE] := by
    rw [infix_newline_iff (by decide) (by decide), begin_infix_set_text_iff]
    rintro (h | h)
    · exact hnokey h
    · exact hnovalue h
  have hset : SET <+: set_text key value ++ [NEWLINE] := by
    simp [set_text]
  have hfits : overruns [key, value] = false := by
    rw [overruns, List.any_eq_false]
    intro word hword
    have hle : word.length ≤ 100 := by
      obtain rfl | rfl : word = key ∨ word = value := by simpa using hword
      · exact hkey.length_le
      · exact hvalue.length_le
    have hsize : WORD_SIZE = 128 := rfl
    rw [decide_eq_true_eq]
    omega
  rw [scan_line_set number s hbegin hset hinside, sscanf_set, scan_words_set hkey hvalue]
  simp [hfits]

/-- A complete commit line applies the key and the value. -/
theorem scan_line_commit_text (hinside : s.inside_tx = true) (hkey : s.key = some key) (hval : s.val = some value) :
    scan_line number s (commit_text id ++ [NEWLINE]) =
      some ({ s with inside_tx := false, committed := true }, [⟨number, key, value⟩]) := by
  refine scan_line_commit number s ?_ ?_ ?_ hinside hkey hval
  · rw [infix_newline_iff (by decide) (by decide)]
    exact not_begin_infix_commit_text id
  · rw [commit_text, List.append_assoc]
    exact not_set_prefix_control id _
  · rw [infix_newline_iff (by decide) (by decide)]
    exact commit_infix_commit_text id

end Scan

end csystems.wal_demo
