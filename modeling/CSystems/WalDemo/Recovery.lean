import CSystems.WalDemo.Records

open clib.ctype clib.string clib.format clib.text

namespace csystems.wal_demo

/-- The calls of the recovery loop over a text, from the given line on. -/
def scan_text (number : Nat) (s : scan_t) (text : List UInt8) : Option (List apply_t) :=
  (scan_lines number s (physical_lines NEWLINE text)).map Prod.fst

section Text

variable (number : Nat) (s : scan_t)

theorem scan_text_nil : scan_text number s [] = some [] := rfl

/-- The loop goes on behind a terminated line. -/
theorem scan_text_line {body : List UInt8} (hbody : NEWLINE ∉ body) {s' : scan_t} {calls : List apply_t}
    (hline : scan_line number s (body ++ [NEWLINE]) = some (s', calls)) (rest : List UInt8) :
    scan_text number s (body ++ [NEWLINE] ++ rest) = (scan_text (number + 1) s' rest).map (calls ++ ·) := by
  rw [scan_text, physical_lines_append hbody, scan_lines, hline, scan_text]
  cases hrest : scan_lines (number + 1) s' (physical_lines NEWLINE rest) <;> simp [hrest]

/-- The loop stops with a line that has no newline. -/
theorem scan_text_last {text : List UInt8} (htext : NEWLINE ∉ text) (hne : text ≠ []) :
    scan_text number s text = (scan_line number s text).map Prod.snd := by
  rw [scan_text, physical_lines_single htext hne, scan_lines]
  cases scan_line number s text with
  | none => rfl
  | some result =>
    obtain ⟨s', calls⟩ := result
    simp [scan_lines]

end Text

/-- The buffers hold whole lines if all lines are short and none has a NUL. -/
theorem cmd_recover_eq {text : List UInt8} (hzero : 0 ∉ text)
    (hlines : ∀ line ∈ physical_lines NEWLINE text, line.length < LINE_SIZE) :
    (cmd_recover text).map Prod.fst = scan_text 0 scan_init text := by
  have hread : read_lines NEWLINE (LINE_SIZE - 1) (text.length + 1) text = physical_lines NEWLINE text :=
    read_lines_eq (by omega) fun line hline => Nat.le_sub_one_of_lt (hlines line hline)
  have hcstr : (physical_lines NEWLINE text).map c_str = physical_lines NEWLINE text := by
    refine (List.map_congr_left ?_).trans (List.map_id _)
    intro line hline
    refine c_str_eq_self fun hmem => hzero ?_
    rw [← flatten_physical_lines NEWLINE text]
    exact List.mem_flatten_of_mem hline hmem
  rw [cmd_recover, hread, hcstr, scan_text]
  cases scan_lines 0 scan_init (physical_lines NEWLINE text) <;> rfl

/-- The key and the value can be stored. -/
structure session_t.Storable (s : session_t) : Prop where
  key : IsWord s.key
  value : IsWord s.value

namespace session_t

/-- The commit line was written, with its newline. -/
def committed (s : session_t) : Prop := s.record.length ≤ s.cut

variable {s : session_t}

theorem record_eq (h : s.Storable) : s.record = begin_text s.transaction_id ++ [NEWLINE] ++
    (set_text s.key s.value ++ [NEWLINE]) ++ (commit_text s.transaction_id ++ [NEWLINE]) := by
  rw [record, log_to_wal, begin_line_eq, commit_line_eq, set_line_eq h.key h.value]

theorem output_of_committed (h : s.committed) : s.output = s.record := List.take_of_length_le h

theorem zero_not_mem_record (h : s.Storable) : 0 ∉ s.record := by
  have hcontrol : 0 ∉ control s.transaction_id := by
    intro hmem
    have hlow := (mem_control _ hmem).1
    revert hlow
    decide
  have hkey := h.key.zero_not_mem
  have hvalue := h.value.zero_not_mem
  have hwords : 0 ∉ BEGIN ∧ 0 ∉ SET ∧ 0 ∉ COMMIT := by decide
  have hmarks : (0 : UInt8) ≠ NEWLINE ∧ (0 : UInt8) ≠ SPACE := by decide
  simp [record_eq h, begin_text, commit_text, set_text, hcontrol, hkey, hvalue, hwords, hmarks]

end session_t

theorem zero_not_mem_wal {sessions : List session_t} (h : ∀ s ∈ sessions, s.Storable) : 0 ∉ wal sessions := by
  intro hmem
  obtain ⟨output, houtput, hmem⟩ := List.mem_flatten.mp hmem
  obtain ⟨s, hs, rfl⟩ := List.mem_map.mp houtput
  exact s.zero_not_mem_record (h s hs) (List.mem_of_mem_take hmem)

@[simp] theorem wal_cons (s : session_t) (sessions : List session_t) :
    wal (s :: sessions) = s.output ++ wal sessions := rfl

/-- The lines of complete records fit the line buffer. -/
theorem length_line_of_committed {sessions : List session_t} (h : ∀ s ∈ sessions, s.Storable ∧ s.committed)
    {line : List UInt8} (hline : line ∈ physical_lines NEWLINE (wal sessions)) : line.length < LINE_SIZE := by
  induction sessions with
  | nil => cases hline
  | cons s sessions ih =>
    obtain ⟨hs, hcommitted⟩ := h s (by simp)
    have hcontrol := length_control s.transaction_id
    have hset := length_set_text hs.key hs.value
    have hwords : BEGIN.length = 5 ∧ COMMIT.length = 6 ∧ LINE_SIZE = 256 := ⟨rfl, rfl, rfl⟩
    rw [wal_cons, s.output_of_committed hcommitted, s.record_eq hs, List.append_assoc, List.append_assoc,
      physical_lines_append (newline_not_mem_begin_text _),
      physical_lines_append (newline_not_mem_set_text hs.key hs.value),
      physical_lines_append (newline_not_mem_commit_text _)] at hline
    simp only [List.mem_cons] at hline
    obtain rfl | rfl | rfl | hline := hline
    · simp only [begin_text, List.length_append, List.length_cons, List.length_nil]
      omega
    · simp only [List.length_append, List.length_cons, List.length_nil]
      omega
    · simp only [commit_text, List.length_append, List.length_cons, List.length_nil]
      omega
    · exact ih (fun s hs => h s (by simp [hs])) hline

section Record

variable (number : Nat) (st : scan_t) (id : Int32) (rest : List UInt8)

/-- A begin line opens a transaction, whatever it was glued to. -/
theorem scan_begin_line {torn : List UInt8} (htorn : NEWLINE ∉ torn) :
    scan_text number st (torn ++ (begin_text id ++ [NEWLINE] ++ rest)) = scan_text (number + 1) st.begun rest := by
  have hbody : NEWLINE ∉ torn ++ begin_text id := by
    simp [htorn, newline_not_mem_begin_text]
  have hbegin : BEGIN <:+: torn ++ begin_text id ++ [NEWLINE] := by
    rw [infix_newline_iff (by decide) (by decide)]
    exact List.infix_append_of_infix_right (begin_infix_begin_text id)
  have hscan := scan_text_line number st hbody (scan_line_begin number st hbegin) rest
  simpa using hscan

theorem scan_set_line {key value : List UInt8} (hkey : IsWord key) (hvalue : IsWord value)
    (hnobegin : ¬ BEGIN <:+: key ∧ ¬ BEGIN <:+: value) (hinside : st.inside_tx = true) :
    scan_text number st (set_text key value ++ [NEWLINE] ++ rest) =
      scan_text (number + 1) { st with key := some key, val := some value } rest := by
  have hline := scan_line_set_text number st hkey hvalue hinside hnobegin.1 hnobegin.2
  have hscan := scan_text_line number st (newline_not_mem_set_text hkey hvalue) hline rest
  simpa using hscan

/-- A data line with the word `BEGIN` is taken for a begin line. -/
theorem scan_set_line_of_begin {key value : List UInt8} (hkey : IsWord key) (hvalue : IsWord value)
    (hbegin : BEGIN <:+: key ∨ BEGIN <:+: value) :
    scan_text number st (set_text key value ++ [NEWLINE] ++ rest) = scan_text (number + 1) st.begun rest := by
  have hinfix : BEGIN <:+: set_text key value ++ [NEWLINE] := by
    rw [infix_newline_iff (by decide) (by decide), begin_infix_set_text_iff]
    exact hbegin
  have hscan := scan_text_line number st (newline_not_mem_set_text hkey hvalue)
    (scan_line_begin number st hinfix) rest
  simpa using hscan

theorem scan_commit_line {key value : List UInt8} (hinside : st.inside_tx = true) (hkey : st.key = some key)
    (hval : st.val = some value) :
    scan_text number st (commit_text id ++ [NEWLINE] ++ rest) =
      (scan_text (number + 1) { st with inside_tx := false, committed := true } rest).map
        (⟨number, key, value⟩ :: ·) :=
  scan_text_line number st (newline_not_mem_commit_text id) (scan_line_commit_text number st id hinside hkey hval) rest

/-- Using an uninitialised buffer is undefined. -/
theorem scan_commit_line_of_none (hinside : st.inside_tx = true) (hnone : st.key = none ∨ st.val = none) :
    scan_text number st (commit_text id ++ [NEWLINE] ++ rest) = none := by
  have hline : scan_line number st (commit_text id ++ [NEWLINE]) = none := by
    have hbegin : ¬ BEGIN <:+: commit_text id ++ [NEWLINE] := by
      rw [infix_newline_iff (by decide) (by decide)]
      exact not_begin_infix_commit_text id
    have hset : ¬ SET <+: commit_text id ++ [NEWLINE] := by
      rw [commit_text, List.append_assoc]
      exact not_set_prefix_control id _
    have hcommit : COMMIT <:+: commit_text id ++ [NEWLINE] := by
      rw [infix_newline_iff (by decide) (by decide)]
      exact commit_infix_commit_text id
    rw [scan_line, if_neg (strstr_iff.not.mpr hbegin), if_neg (by simpa using fun h => absurd h hset),
      if_pos (by simpa [hinside] using hcommit)]
    obtain hnone | hnone := hnone
    · rw [hnone]
    · rw [hnone]
      cases st.key <;> rfl
  rw [scan_text, physical_lines_append (newline_not_mem_commit_text id), scan_lines, hline]
  rfl

end Record

/-- The pair a call or a session is about. -/
def apply_t.pair (call : apply_t) : List UInt8 × List UInt8 := (call.key, call.value)

def session_t.pair (s : session_t) : List UInt8 × List UInt8 := (s.key, s.value)

/-- Neither the key nor the value has the word `BEGIN` in it. -/
def session_t.Plain (s : session_t) : Prop := ¬ BEGIN <:+: s.key ∧ ¬ BEGIN <:+: s.value

/-- What the buffers hold was read from a data line, so has no `BEGIN` in it. -/
def scan_t.Plain (st : scan_t) : Prop := ∀ text, st.key = some text ∨ st.val = some text → ¬ BEGIN <:+: text

/-- A stale pair is not the one of a session whose data line was misread. -/
theorem session_t.pair_ne_of_not_plain {s : session_t} (hs : ¬ s.Plain) {st : scan_t} (hst : st.Plain)
    {key value : List UInt8} (hkey : st.key = some key) (hval : st.val = some value) : (key, value) ≠ s.pair := by
  intro heq
  obtain ⟨rfl, rfl⟩ := Prod.mk.inj heq
  exact hs ⟨hst _ (Or.inl hkey), hst _ (Or.inr hval)⟩

theorem scan_committed_iff {sessions : List session_t} (h : ∀ s ∈ sessions, s.Storable ∧ s.committed) (number : Nat)
    {st : scan_t} (hst : st.Plain) :
    (∃ calls, scan_text number st (wal sessions) = some calls ∧
      calls.map apply_t.pair = sessions.map session_t.pair) ↔ ∀ s ∈ sessions, s.Plain := by
  induction sessions generalizing number st with
  | nil => exact iff_of_true ⟨[], rfl, rfl⟩ (by simp)
  | cons s sessions ih =>
    obtain ⟨hs, hcommitted⟩ := h s (by simp)
    have hrest : ∀ s ∈ sessions, s.Storable ∧ s.committed := fun s hs => h s (by simp [hs])
    rw [wal_cons, s.output_of_committed hcommitted, s.record_eq hs, List.append_assoc, List.append_assoc,
      ← List.nil_append (begin_text s.transaction_id ++ [NEWLINE] ++ _), scan_begin_line _ _ _ _ (by simp),
      List.forall_mem_cons]
    by_cases hplain : s.Plain
    · rw [scan_set_line _ _ _ hs.key hs.value hplain rfl, scan_commit_line _ _ _ _ rfl rfl rfl]
      have hstored : scan_t.Plain ⟨some s.key, some s.value, false, true⟩ := by
        rintro text (heq | heq)
        · obtain rfl := Option.some.inj heq
          exact hplain.1
        · obtain rfl := Option.some.inj heq
          exact hplain.2
      rw [← ih hrest (number + 1 + 1 + 1) hstored]
      simp only [hplain, true_and]
      constructor
      · rintro ⟨calls, hscan, hpairs⟩
        obtain ⟨rest, htail, rfl⟩ := Option.map_eq_some_iff.mp hscan
        exact ⟨rest, htail, (List.cons.inj hpairs).2⟩
      · rintro ⟨calls, hscan, hpairs⟩
        refine ⟨_, Option.map_eq_some_iff.mpr ⟨calls, hscan, rfl⟩, ?_⟩
        rw [List.map_cons, hpairs]
        rfl
    · refine iff_of_false ?_ fun hall => hplain hall.1
      rintro ⟨calls, hscan, hpairs⟩
      rw [scan_set_line_of_begin _ _ _ hs.key hs.value (by
        unfold session_t.Plain at hplain
        tauto)] at hscan
      cases hkey : st.key with
      | none =>
        rw [scan_commit_line_of_none _ st.begun.begun _ _ rfl (Or.inl hkey)] at hscan
        cases hscan
      | some key =>
        cases hval : st.val with
        | none =>
          rw [scan_commit_line_of_none _ st.begun.begun _ _ rfl (Or.inr hval)] at hscan
          cases hscan
        | some value =>
          rw [scan_commit_line _ st.begun.begun _ _ rfl hkey hval] at hscan
          obtain ⟨rest, -, rfl⟩ := Option.map_eq_some_iff.mp hscan
          exact s.pair_ne_of_not_plain hplain hst hkey hval (List.cons.inj hpairs).1

/-- Recovery of completely written records applies exactly their pairs if and only
if no key and no value has the word `BEGIN` in it. -/
theorem recover_undoes_log_iff (sessions : List session_t) (h : ∀ s ∈ sessions, s.Storable ∧ s.committed) :
    (∃ calls incomplete, cmd_recover (wal sessions) = some (calls, incomplete) ∧
      calls.map apply_t.pair = sessions.map session_t.pair) ↔ ∀ s ∈ sessions, s.Plain := by
  have hrecover := cmd_recover_eq (zero_not_mem_wal fun s hs => (h s hs).1)
    fun line hline => length_line_of_committed h hline
  have hinit : scan_init.Plain := by
    rintro text (heq | heq)
    · cases heq
    · cases heq
  rw [← scan_committed_iff h 0 hinit, ← hrecover]
  constructor
  · rintro ⟨calls, incomplete, heq, hpairs⟩
    exact ⟨calls, by rw [heq]; rfl, hpairs⟩
  · rintro ⟨calls, heq, hpairs⟩
    obtain ⟨⟨calls, incomplete⟩, hresult, rfl⟩ := Option.map_eq_some_iff.mp heq
    exact ⟨calls, incomplete, hresult, hpairs⟩

/-- Two sessions, the second overwriting the first. -/
theorem recover_undoes_log_two :
    ∃ calls incomplete, cmd_recover (wal [⟨1, [107], [118], 49⟩, ⟨2, [107], [119], 49⟩]) = some (calls, incomplete) ∧
      calls.map apply_t.pair = [([107], [118]), ([107], [119])] := by
  have hkey : IsWord [107] := isWord_of_all (by decide) (by decide)
  refine (recover_undoes_log_iff [⟨1, [107], [118], 49⟩, ⟨2, [107], [119], 49⟩] ?_).mpr ?_
  · intro s hs
    obtain rfl | rfl : s = ⟨1, [107], [118], 49⟩ ∨ s = ⟨2, [107], [119], 49⟩ := by simpa using hs
    · exact ⟨⟨hkey, isWord_of_all (by decide) (by decide)⟩, by rw [session_t.committed]; decide⟩
    · exact ⟨⟨hkey, isWord_of_all (by decide) (by decide)⟩, by rw [session_t.committed]; decide⟩
  · intro s hs
    obtain rfl | rfl : s = ⟨1, [107], [118], 49⟩ ∨ s = ⟨2, [107], [119], 49⟩ := by simpa using hs
    · exact ⟨by decide, by decide⟩
    · exact ⟨by decide, by decide⟩

/-- The value `BEGIN` is never read back. -/
theorem recover_misreads_begin :
    ¬ ∀ sessions : List session_t, (∀ s ∈ sessions, s.Storable ∧ s.committed) →
      ∃ calls incomplete, cmd_recover (wal sessions) = some (calls, incomplete) ∧
        calls.map apply_t.pair = sessions.map session_t.pair := by
  intro hall
  have hstorable : ∀ s ∈ [(⟨1, [107], BEGIN, 53⟩ : session_t)], s.Storable ∧ s.committed := by
    intro s hs
    obtain rfl := List.mem_singleton.mp hs
    have hkey : IsWord [107] := isWord_of_all (by decide) (by decide)
    have hvalue : IsWord BEGIN := isWord_of_all (by decide) (by decide)
    exact ⟨⟨hkey, hvalue⟩, by rw [session_t.committed]; decide⟩
  obtain ⟨calls, incomplete, heq, -⟩ := hall _ hstorable
  have hnone : cmd_recover (wal [⟨1, [107], BEGIN, 53⟩]) = none := by decide
  rw [hnone] at heq
  cases heq

end csystems.wal_demo
