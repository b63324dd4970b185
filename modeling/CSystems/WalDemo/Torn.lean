import CSystems.WalDemo.Recovery

open clib.ctype clib.string clib.format clib.text

namespace csystems.wal_demo

/-- The letter that every session starts with. -/
def LETTER_T : UInt8 := 84

/-- The word `COMMIT` without its last letter. -/
def COMMI : List UInt8 := ascii ['C', 'O', 'M', 'M', 'I']

theorem commi_infix_control_iff (id : Int32) (rest : List UInt8) :
    COMMI <:+: control id ++ SPACE :: rest ↔ COMMI <:+: rest :=
  infix_control_iff id (by decide) ⟨67, by decide, by decide⟩ (by decide) rest

/-- The start of a begin line, cut before its word is complete. -/
structure Junk (piece : List UInt8) : Prop where
  newline : NEWLINE ∉ piece
  letter : piece ≠ [] → piece.head? = some LETTER_T
  no_begin : ¬ BEGIN <:+: piece
  no_commi : ¬ COMMI <:+: piece

theorem junk_take_begin_text (id : Int32) {cut : Nat} (hcut : cut < (begin_text id).length) :
    Junk ((begin_text id).take cut) := by
  have hprefix : (begin_text id).take cut <+: control id ++ SPACE :: ascii ['B', 'E', 'G', 'I'] := by
    have hsplit : begin_text id = control id ++ SPACE :: ascii ['B', 'E', 'G', 'I'] ++ [78] := by
      rw [begin_text, List.append_assoc]
      rfl
    rw [hsplit, List.length_append, List.length_singleton] at hcut
    rw [hsplit, List.take_append_of_le_length (by omega)]
    exact List.take_prefix _ _
  refine ⟨fun h => newline_not_mem_begin_text id (List.mem_of_mem_take h), ?_, ?_, ?_⟩
  · intro hne
    obtain ⟨c, piece, hpiece⟩ := List.exists_cons_of_ne_nil hne
    have hhead : (begin_text id).head? = some LETTER_T := rfl
    rw [List.head?_take, hhead, if_neg]
    rintro rfl
    simp at hne
  · intro h
    have hwithin := (begin_infix_control_iff id _).mp (h.trans hprefix.isInfix)
    exact absurd hwithin (by decide)
  · intro h
    have hwithin := (commi_infix_control_iff id _).mp (h.trans hprefix.isInfix)
    exact absurd hwithin (by decide)

theorem Junk.no_commit {piece : List UInt8} (h : Junk piece) : ¬ COMMIT <:+: piece := by
  intro hcommit
  have hwithin : COMMI <:+: COMMIT := by decide
  exact h.no_commi (hwithin.trans hcommit)

section Glue

variable {left piece : List UInt8}

theorem Junk.begin_infix_append (h : Junk piece) (hleft : ¬ BEGIN <:+: left) : ¬ BEGIN <:+: left ++ piece := by
  rw [List.infix_append_iff_ne_nil]
  rintro (hwithin | hwithin | ⟨l₁, l₂, -, hne, heq, -, hprefix⟩)
  · exact hleft hwithin
  · exact h.no_begin hwithin
  · obtain ⟨c, l₂, rfl⟩ := List.exists_cons_of_ne_nil hne
    obtain ⟨rest, rfl⟩ := hprefix
    have hletter := h.letter (by simp)
    obtain rfl : c = LETTER_T := by simpa using hletter
    have hmem : LETTER_T ∈ BEGIN := by simp [heq]
    revert hmem
    decide

/-- Junk completes the word `COMMIT` exactly if only its last letter is missing. -/
theorem Junk.commit_infix_append_iff (h : Junk piece) :
    COMMIT <:+: left ++ piece ↔ COMMIT <:+: left ∨ COMMI <:+ left ∧ piece ≠ [] := by
  rw [List.infix_append_iff_ne_nil]
  constructor
  · rintro (hwithin | hwithin | ⟨l₁, l₂, -, hne, heq, hsuffix, hprefix⟩)
    · exact Or.inl hwithin
    · exact absurd hwithin h.no_commit
    · obtain ⟨c, l₂, rfl⟩ := List.exists_cons_of_ne_nil hne
      obtain ⟨rest, rfl⟩ := hprefix
      have hletter := h.letter (by simp)
      obtain rfl : c = LETTER_T := by simpa using hletter
      refine Or.inr ⟨?_, by simp⟩
      have hcommit : COMMIT = COMMI ++ [LETTER_T] := rfl
      have hnot : LETTER_T ∉ COMMI := by decide
      rw [hcommit] at heq
      obtain ⟨more, rfl, hmore⟩ | ⟨more, hsplit, hmore⟩ := List.append_eq_append_iff.mp heq
      · obtain rfl : more = [] := by
          have hlength := congrArg List.length hmore
          simp only [List.length_append, List.length_cons, List.length_nil] at hlength
          exact List.length_eq_zero_iff.mp (by omega)
        simpa using hsuffix
      · cases more with
        | nil =>
          rw [List.append_nil] at hsplit
          rwa [hsplit]
        | cons d more =>
          obtain ⟨rfl, -⟩ := List.cons.inj hmore
          exact absurd (by simp [hsplit]) hnot
  · rintro (hwithin | ⟨hsuffix, hne⟩)
    · exact Or.inl hwithin
    · refine Or.inr (Or.inr ⟨COMMI, [LETTER_T], by decide, by simp, rfl, hsuffix, ?_⟩)
      obtain ⟨c, rest, rfl⟩ := List.exists_cons_of_ne_nil hne
      obtain rfl : c = LETTER_T := by simpa using h.letter hne
      exact ⟨rest, rfl⟩

/-- Junk glued to junk is junk. -/
theorem Junk.append {piece' : List UInt8} (h : Junk piece) (h' : Junk piece') : Junk (piece ++ piece') := by
  refine ⟨by simp [h.newline, h'.newline], ?_, h'.begin_infix_append h.no_begin, ?_⟩
  · intro hne
    cases piece with
    | nil => exact h'.letter hne
    | cons c piece => exact h.letter (by simp)
  · rw [List.infix_append_iff_ne_nil]
    rintro (hwithin | hwithin | ⟨l₁, l₂, -, hne, heq, -, hprefix⟩)
    · exact h.no_commi hwithin
    · exact h'.no_commi hwithin
    · obtain ⟨c, l₂, rfl⟩ := List.exists_cons_of_ne_nil hne
      obtain ⟨rest, rfl⟩ := hprefix
      obtain rfl : c = LETTER_T := by simpa using h'.letter (by simp)
      have hmem : LETTER_T ∈ COMMI := by simp [heq]
      revert hmem
      decide

end Glue

namespace session_t

/-- The word `COMMIT` was written, perhaps without the newline after it. -/
def word_written (s : session_t) : Prop := s.record.length ≤ s.cut + 1

/-- The word `BEGIN` was written, perhaps without the newline after it. -/
def begin_written (s : session_t) : Prop := (begin_line s.transaction_id).length ≤ s.cut + 1

instance decidableCommitted (s : session_t) : Decidable s.committed := inferInstanceAs (Decidable (_ ≤ _))

instance decidableWordWritten (s : session_t) : Decidable s.word_written := inferInstanceAs (Decidable (_ ≤ _))

instance decidableBeginWritten (s : session_t) : Decidable s.begin_written := inferInstanceAs (Decidable (_ ≤ _))

variable {s : session_t}

theorem begin_written_iff : s.begin_written ↔ (begin_text s.transaction_id).length ≤ s.cut := by
  rw [begin_written, begin_line_eq, List.length_append, List.length_singleton]
  omega

theorem length_record (h : s.Storable) : s.record.length = (begin_text s.transaction_id).length + 1 +
    ((set_text s.key s.value).length + 1) + ((commit_text s.transaction_id).length + 1) := by
  simp only [record_eq h, List.length_append, List.length_cons, List.length_nil]

theorem length_commit_text (id : Int32) : 6 ≤ (commit_text id).length := by
  have hword : COMMIT.length = 6 := rfl
  rw [commit_text, List.length_append, List.length_cons]
  omega

theorem begin_written_of_length_le (h : s.Storable) (hcut : s.record.length ≤ s.cut + 2) : s.begin_written := by
  have hlength := length_record h
  have hcommit := length_commit_text s.transaction_id
  rw [begin_written_iff]
  omega

private theorem take_append_of_ge {front back : List UInt8} {cut : Nat} (h : front.length ≤ cut) :
    (front ++ back).take cut = front ++ back.take (cut - front.length) := by
  rw [List.take_append, List.take_of_length_le h]

/-- Where a crash can cut a session: in its begin line, in its data line, in its
commit line, or nowhere. -/
theorem output_cases (h : s.Storable) :
    (s.cut ≤ (begin_text s.transaction_id).length ∧ s.output = (begin_text s.transaction_id).take s.cut) ∨
    (∃ c ≤ (set_text s.key s.value).length, s.cut = (begin_text s.transaction_id).length + 1 + c ∧
      s.output = begin_text s.transaction_id ++ [NEWLINE] ++ (set_text s.key s.value).take c) ∨
    (∃ c ≤ (commit_text s.transaction_id).length,
      s.cut = (begin_text s.transaction_id).length + 1 + ((set_text s.key s.value).length + 1) + c ∧
      s.output = begin_text s.transaction_id ++ [NEWLINE] ++
        (set_text s.key s.value ++ [NEWLINE] ++ (commit_text s.transaction_id).take c)) ∨
    (s.committed ∧ s.output = begin_text s.transaction_id ++ [NEWLINE] ++
      (set_text s.key s.value ++ [NEWLINE] ++ (commit_text s.transaction_id ++ [NEWLINE]))) := by
  have hlength := length_record h
  rw [committed, output, hlength, record_eq h]
  generalize begin_text s.transaction_id = first
  generalize set_text s.key s.value = second
  generalize commit_text s.transaction_id = third
  have hline (text : List UInt8) : (text ++ [NEWLINE]).length = text.length + 1 := by simp
  by_cases hfirst : s.cut ≤ first.length
  · refine Or.inl ⟨hfirst, ?_⟩
    rw [List.append_assoc, List.append_assoc, List.take_append_of_le_length hfirst]
  rw [List.append_assoc, take_append_of_ge (by rw [hline]; omega), hline]
  by_cases hsecond : s.cut ≤ first.length + 1 + second.length
  · refine Or.inr (Or.inl ⟨s.cut - (first.length + 1), by omega, by omega, ?_⟩)
    rw [List.append_assoc second, List.take_append_of_le_length (by omega)]
  rw [take_append_of_ge (by rw [hline]; omega), hline]
  by_cases hthird : s.cut ≤ first.length + 1 + (second.length + 1) + third.length
  · refine Or.inr (Or.inr (Or.inl ⟨s.cut - (first.length + 1) - (second.length + 1), by omega, by omega, ?_⟩))
    rw [List.take_append_of_le_length (by omega)]
  · refine Or.inr (Or.inr (Or.inr ⟨by omega, ?_⟩))
    rw [List.take_of_length_le (by rw [hline]; omega)]

end session_t

/-- The calls for the sessions that meet the condition, each for the line that the
word `COMMIT` of the session is on. -/
def calls_of (p : session_t → Prop) [DecidablePred p] : Nat → List session_t → List apply_t
  | _, [] => []
  | number, s :: sessions =>
    (if p s then [⟨number + 2, s.key, s.value⟩] else []) ++ calls_of p (number + s.output.count NEWLINE) sessions

section Calls

variable (p : session_t → Prop) [DecidablePred p] (number : Nat)

theorem calls_of_append (before after : List session_t) :
    calls_of p number (before ++ after) =
      calls_of p number before ++ calls_of p (number + (wal before).count NEWLINE) after := by
  induction before generalizing number with
  | nil => rfl
  | cons s before ih =>
    rw [List.cons_append, calls_of, calls_of, ih, List.append_assoc, wal_cons, List.count_append, Nat.add_assoc]

theorem calls_of_eq_nil {sessions : List session_t} (h : ∀ s ∈ sessions, ¬ p s) : calls_of p number sessions = [] := by
  induction sessions generalizing number with
  | nil => rfl
  | cons s sessions ih =>
    rw [calls_of, if_neg (h s (by simp)), ih _ fun s hs => h s (by simp [hs])]
    rfl

theorem calls_of_sublist {q : session_t → Prop} [DecidablePred q] (hpq : ∀ s, p s → q s) (sessions : List session_t) :
    (calls_of p number sessions).Sublist (calls_of q number sessions) := by
  induction sessions generalizing number with
  | nil => exact List.Sublist.refl _
  | cons s sessions ih =>
    rw [calls_of, calls_of]
    refine List.Sublist.append ?_ (ih _)
    by_cases hp : p s
    · rw [if_pos hp, if_pos (hpq s hp)]
    · rw [if_neg hp]
      exact List.nil_sublist _

end Calls

/-- The session has a key and a value that can be stored and do not look like a
begin line. -/
structure session_t.Valid (s : session_t) : Prop extends session_t.Storable s where
  plain : s.Plain

private theorem count_newline_take {text : List UInt8} (h : NEWLINE ∉ text) (c : Nat) :
    (text.take c).count NEWLINE = 0 :=
  List.count_eq_zero.mpr fun hmem => h (List.mem_of_mem_take hmem)

/-- The recovery loop over the output of the sessions makes the calls for those
with a complete commit line, whatever follows. -/
theorem scan_sessions {sessions : List session_t} (h : ∀ s ∈ sessions, s.Valid) (number : Nat) (st : scan_t)
    {torn : List UInt8} (htorn : NEWLINE ∉ torn) :
    ∃ st' torn', NEWLINE ∉ torn' ∧ ∀ more, scan_text number st (torn ++ (wal sessions ++ more)) =
      (scan_text (number + (wal sessions).count NEWLINE) st' (torn' ++ more)).map
        (calls_of session_t.committed number sessions ++ ·) := by
  induction sessions generalizing number st torn with
  | nil => exact ⟨st, torn, htorn, fun more => by simp [wal, calls_of]⟩
  | cons s sessions ih =>
    have hs := h s (by simp)
    have hrest : ∀ s ∈ sessions, s.Valid := fun s hs => h s (by simp [hs])
    have hlength := s.length_record hs.toStorable
    have hbegin := newline_not_mem_begin_text s.transaction_id
    have hset := newline_not_mem_set_text hs.key hs.value
    have hcommit := newline_not_mem_commit_text s.transaction_id
    have hcountBegin := List.count_eq_zero.mpr hbegin
    have hcountSet := List.count_eq_zero.mpr hset
    have hcountCommit := List.count_eq_zero.mpr hcommit
    obtain ⟨hcut, houtput⟩ | ⟨c, hc, hcut, houtput⟩ | ⟨c, hc, hcut, houtput⟩ | ⟨hcommitted, houtput⟩ :=
      s.output_cases hs.toStorable
    · have hnot : ¬ s.committed := by rw [session_t.committed]; omega
      have hpiece : NEWLINE ∉ torn ++ s.output := by
        rw [houtput]
        simp only [List.mem_append, not_or]
        exact ⟨htorn, fun hmem => hbegin (List.mem_of_mem_take hmem)⟩
      have hcount : s.output.count NEWLINE = 0 := by rw [houtput, count_newline_take hbegin]
      obtain ⟨st', torn', htorn', hscan⟩ := ih hrest number st hpiece
      refine ⟨st', torn', htorn', fun more => ?_⟩
      have hmore := hscan more
      rw [List.append_assoc] at hmore
      rw [wal_cons, List.append_assoc, hmore, calls_of, if_neg hnot, hcount, List.count_append, hcount]
      simp
    · have hnot : ¬ s.committed := by rw [session_t.committed]; omega
      have hcount : s.output.count NEWLINE = 1 := by
        rw [houtput, List.count_append, List.count_append, hcountBegin, count_newline_take hset,
          List.count_singleton_self]
      have hpiece : NEWLINE ∉ (set_text s.key s.value).take c := fun hmem => hset (List.mem_of_mem_take hmem)
      obtain ⟨st', torn', htorn', hscan⟩ := ih hrest (number + 1) st.begun hpiece
      refine ⟨st', torn', htorn', fun more => ?_⟩
      rw [wal_cons, houtput, List.append_assoc, List.append_assoc, scan_begin_line _ _ _ _ htorn, hscan, ← houtput,
        calls_of, if_neg hnot, hcount, List.count_append, hcount, Nat.add_assoc]
      simp
    · have hnot : ¬ s.committed := by rw [session_t.committed]; omega
      have hcount : s.output.count NEWLINE = 2 := by
        simp only [houtput, List.count_append, hcountBegin, hcountSet, count_newline_take hcommit,
          List.count_singleton_self]
      have hpiece : NEWLINE ∉ (commit_text s.transaction_id).take c := fun hmem => hcommit (List.mem_of_mem_take hmem)
      obtain ⟨st', torn', htorn', hscan⟩ := ih hrest (number + 1 + 1)
        { st.begun with key := some s.key, val := some s.value } hpiece
      refine ⟨st', torn', htorn', fun more => ?_⟩
      rw [wal_cons, houtput, List.append_assoc, List.append_assoc, scan_begin_line _ _ _ _ htorn, List.append_assoc,
        scan_set_line _ _ _ hs.key hs.value hs.plain rfl, hscan, ← houtput, calls_of, if_neg hnot, hcount,
        List.count_append, hcount, Nat.add_assoc, Nat.add_assoc]
      simp
    · have hcount : s.output.count NEWLINE = 3 := by
        simp only [houtput, List.count_append, hcountBegin, hcountSet, hcountCommit, List.count_singleton_self]
      obtain ⟨st', torn', htorn', hscan⟩ := ih hrest (number + 1 + 1 + 1)
        { st.begun with key := some s.key, val := some s.value, inside_tx := false, committed := true }
        (List.not_mem_nil : NEWLINE ∉ [])
      refine ⟨st', torn', htorn', fun more => ?_⟩
      have hmore := hscan more
      rw [List.nil_append] at hmore
      rw [wal_cons, houtput, List.append_assoc, List.append_assoc, scan_begin_line _ _ _ _ htorn, List.append_assoc,
        scan_set_line _ _ _ hs.key hs.value hs.plain rfl, scan_commit_line _ _ _ _ rfl rfl rfl, hmore, ← houtput,
        calls_of, if_pos hcommitted, hcount, List.count_append, hcount]
      simp [Nat.add_assoc, Function.comp_def]

theorem junk_wal {sessions : List session_t} (h : ∀ s ∈ sessions, s.Storable ∧ ¬ s.begin_written) :
    Junk (wal sessions) := by
  induction sessions with
  | nil => exact ⟨by simp [wal], fun hne => absurd rfl hne, by decide, by decide⟩
  | cons s sessions ih =>
    obtain ⟨hs, hnot⟩ := h s (by simp)
    have hrest := ih fun s hs => h s (by simp [hs])
    rw [session_t.begin_written_iff, not_le] at hnot
    obtain ⟨-, houtput⟩ | ⟨c, -, hcut, -⟩ | ⟨c, -, hcut, -⟩ | ⟨hcommitted, -⟩ := s.output_cases hs
    · rw [wal_cons, houtput]
      exact (junk_take_begin_text _ hnot).append hrest
    · omega
    · omega
    · have hlength := s.length_record hs
      rw [session_t.committed] at hcommitted
      omega

section Last

variable (number : Nat) (st : scan_t) {junk : List UInt8}

/-- Outside of a transaction a torn line does nothing. -/
theorem scan_idle (h : Junk junk) (hinside : st.inside_tx = false) : scan_text number st junk = some [] := by
  by_cases hne : junk = []
  · rw [hne, scan_text_nil]
  · rw [scan_text_last number st h.newline hne,
      scan_line_other number st h.no_begin (fun _ => hinside) fun _ => hinside]
    rfl

/-- A last line with the word `BEGIN` does nothing. -/
theorem scan_last_begin {text : List UInt8} (hnewline : NEWLINE ∉ text) (hbegin : BEGIN <:+: text) :
    scan_text number st text = some [] := by
  have hne : text ≠ [] := by
    rintro rfl
    exact absurd hbegin (by decide)
  rw [scan_text_last number st hnewline hne, scan_line_begin number st hbegin]
  rfl

/-- The last line is a data line with a word that overruns its buffer. -/
def OverrunLine (line : List UInt8) : Prop :=
  SET <+: line ∧ overruns (scan_words 2 (line.drop SET.length)) = true

theorem sscanf_set_of_overrun {line : List UInt8} (h : overruns (scan_words 2 (line.drop SET.length)) = true) :
    sscanf_set st line = none := by
  rw [sscanf_set]
  exact if_pos h

theorem exists_sscanf_set {line : List UInt8} (h : ¬ overruns (scan_words 2 (line.drop SET.length)) = true) :
    ∃ st', sscanf_set st line = some st' := by
  rw [sscanf_set, if_neg h]
  split
  · exact ⟨_, rfl⟩
  · exact ⟨_, rfl⟩
  · exact ⟨_, rfl⟩

/-- A data line cut short and the junk glued to it end the recovery without a call,
or overrun a buffer. -/
theorem scan_last_set {key value : List UInt8} (hkey : IsWord key) (hvalue : IsWord value)
    (hplain : ¬ BEGIN <:+: key ∧ ¬ BEGIN <:+: value) (hinside : st.inside_tx = true) (h : Junk junk) (c : Nat) :
    (OverrunLine ((set_text key value).take c ++ junk) →
      scan_text number st ((set_text key value).take c ++ junk) = none) ∧
    (¬ OverrunLine ((set_text key value).take c ++ junk) →
      scan_text number st ((set_text key value).take c ++ junk) = some []) := by
  have hprefix : (set_text key value).take c <+: set_text key value := List.take_prefix _ _
  have hnewline : NEWLINE ∉ (set_text key value).take c ++ junk := by
    simp only [List.mem_append, not_or]
    exact ⟨fun hmem => newline_not_mem_set_text hkey hvalue (List.mem_of_mem_take hmem), h.newline⟩
  have hbegin : ¬ BEGIN <:+: (set_text key value).take c ++ junk := by
    refine h.begin_infix_append fun hwithin => ?_
    have hwhole := hwithin.trans hprefix.isInfix
    rw [begin_infix_set_text_iff] at hwhole
    tauto
  by_cases hset : SET <+: (set_text key value).take c ++ junk
  · have hne : (set_text key value).take c ++ junk ≠ [] := by
      intro hnil
      rw [hnil] at hset
      exact absurd hset (by decide)
    rw [scan_text_last number st hnewline hne, scan_line_set number st hbegin hset hinside]
    constructor
    · rintro ⟨-, hover⟩
      rw [sscanf_set_of_overrun st hover]
      rfl
    · intro hfits
      obtain ⟨st', heq⟩ := exists_sscanf_set st fun hover => hfits ⟨hset, hover⟩
      rw [heq]
      rfl
  · refine ⟨fun hover => absurd hover.1 hset, fun _ => ?_⟩
    have hc : c < SET.length := by
      by_contra hge
      have htake : (set_text key value).take SET.length = SET := by
        rw [set_text, List.append_assoc, List.take_left]
      have hstart : SET <+: (set_text key value).take c := by
        rw [← htake]
        exact List.take_prefix_take_left (by omega)
      exact hset (hstart.trans (List.prefix_append _ _))
    have hlengths : SET.length = 3 ∧ COMMIT.length = 6 ∧ COMMI.length = 5 := ⟨rfl, rfl, rfl⟩
    have hcommit : ¬ COMMIT <:+: (set_text key value).take c ++ junk := by
      have hshort := List.length_take_le c (set_text key value)
      rw [h.commit_infix_append_iff]
      rintro (hwithin | ⟨hsuffix, -⟩)
      · have hle := hwithin.length_le
        omega
      · have hle := hsuffix.length_le
        omega
    by_cases hne : (set_text key value).take c ++ junk = []
    · rw [hne, scan_text_nil]
    · rw [scan_text_last number st hnewline hne,
        scan_line_other number st hbegin (fun h => absurd h hset) fun h => absurd h hcommit]
      rfl

/-- A commit line cut short has the word `COMMIT` in it if it was complete, or if
the junk glued to it supplies the last letter. -/
theorem commit_infix_last_iff (id : Int32) {c : Nat} (hc : c ≤ (commit_text id).length) (h : Junk junk) :
    COMMIT <:+: (commit_text id).take c ++ junk ↔
      c = (commit_text id).length ∨ c + 1 = (commit_text id).length ∧ junk ≠ [] := by
  have hsplit : commit_text id = control id ++ SPACE :: ascii ['C', 'O', 'M', 'M'] ++ [73] ++ [LETTER_T] := by
    rw [commit_text, List.append_assoc, List.append_assoc]
    rfl
  have hlength : (commit_text id).length = (control id ++ SPACE :: ascii ['C', 'O', 'M', 'M']).length + 1 + 1 := by
    rw [hsplit, List.length_append, List.length_append, List.length_singleton, List.length_singleton]
  rw [h.commit_infix_append_iff]
  by_cases hfull : c = (commit_text id).length
  · rw [hfull, List.take_length]
    exact iff_of_true (Or.inl (commit_infix_commit_text id)) (Or.inl rfl)
  by_cases hlast : c + 1 = (commit_text id).length
  · have htake : (commit_text id).take c = control id ++ SPACE :: COMMI := by
      have hc : c = (control id ++ SPACE :: ascii ['C', 'O', 'M', 'M'] ++ [73]).length := by
        rw [List.length_append, List.length_singleton]
        omega
      rw [hsplit, hc, List.take_left, List.append_assoc]
      rfl
    have hcommit : ¬ COMMIT <:+: control id ++ SPACE :: COMMI := by
      rw [commit_infix_control_iff]
      decide
    have hcommi : COMMI <:+ control id ++ SPACE :: COMMI := ⟨control id ++ [SPACE], by simp⟩
    simp only [htake, hcommit, hcommi, hfull, hlast, true_and, false_or]
  · have htake : (commit_text id).take c <+: control id ++ SPACE :: ascii ['C', 'O', 'M', 'M'] := by
      rw [hsplit, List.append_assoc, List.take_append_of_le_length (by omega)]
      exact List.take_prefix _ _
    have hcommi : ¬ COMMI <:+: (commit_text id).take c := by
      intro hwithin
      have hshort := (commi_infix_control_iff id _).mp (hwithin.trans htake.isInfix)
      exact absurd hshort (by decide)
    have hword : COMMI <:+: COMMIT := by decide
    simp only [hfull, hlast, false_and, or_self, iff_false, not_or, not_and]
    exact ⟨fun hcommit => hcommi (hword.trans hcommit), fun hsuffix => absurd hsuffix.isInfix hcommi⟩

/-- A commit line cut short and the junk glued to it apply the pair exactly if they
have the word `COMMIT` in them. -/
theorem scan_last_commit (id : Int32) {key value : List UInt8} (hinside : st.inside_tx = true)
    (hkey : st.key = some key) (hval : st.val = some value) (h : Junk junk) (c : Nat) :
    scan_text number st ((commit_text id).take c ++ junk) =
      some (if COMMIT <:+: (commit_text id).take c ++ junk then [⟨number, key, value⟩] else []) := by
  have hnewline : NEWLINE ∉ (commit_text id).take c ++ junk := by
    simp only [List.mem_append, not_or]
    exact ⟨fun hmem => newline_not_mem_commit_text id (List.mem_of_mem_take hmem), h.newline⟩
  have hbegin : ¬ BEGIN <:+: (commit_text id).take c ++ junk := by
    refine h.begin_infix_append fun hwithin => ?_
    exact not_begin_infix_commit_text id (hwithin.trans (List.take_prefix _ _).isInfix)
  have hset : ¬ SET <+: (commit_text id).take c ++ junk := by
    rintro ⟨rest, hrest⟩
    have hhead : ((commit_text id).take c ++ junk).head? = some 83 := by
      rw [← hrest]
      rfl
    cases c with
    | zero =>
      rw [List.take_zero, List.nil_append] at hhead
      have hletter := h.letter (by rintro rfl; simp at hhead)
      rw [hhead] at hletter
      exact absurd hletter (by decide)
    | succ c =>
      have hletter : ((commit_text id).take (c + 1) ++ junk).head? = some LETTER_T := rfl
      rw [hhead] at hletter
      exact absurd hletter (by decide)
  by_cases hne : (commit_text id).take c ++ junk = []
  · rw [hne, scan_text_nil, if_neg (by decide)]
  · rw [scan_text_last number st hnewline hne]
    by_cases hcommit : COMMIT <:+: (commit_text id).take c ++ junk
    · rw [if_pos hcommit, scan_line_commit number st hbegin hset hcommit hinside hkey hval]
      rfl
    · rw [if_neg hcommit, scan_line_other number st hbegin (fun h => absurd h hset) fun h => absurd h hcommit]
      rfl

end Last

/-- The crash left only the last letter of `COMMIT` unwritten, and something was
written after it. -/
def Completes (s : session_t) (after : List session_t) : Prop := s.cut + 2 = s.record.length ∧ wal after ≠ []

/-- The crash cut the data line, and the rest of the log makes it a line with a word
that overruns its buffer. -/
def Overruns (s : session_t) (after : List session_t) : Prop :=
  (begin_line s.transaction_id).length ≤ s.cut ∧
    s.cut < (begin_line s.transaction_id).length + (set_line s.key s.value).length ∧
    OverrunLine (s.output.drop (begin_line s.transaction_id).length ++ wal after)

instance decidableCompletes (s : session_t) (after : List session_t) : Decidable (Completes s after) :=
  inferInstanceAs (Decidable (_ ∧ _))

/-- What recovery does from the last session on whose word `BEGIN` was written. -/
theorem scan_last_session {s : session_t} (hs : s.Valid) (hbegin : s.begin_written) {after : List session_t}
    (hafter : ∀ s ∈ after, s.Storable ∧ ¬ s.begin_written) (number : Nat) (st : scan_t) {torn : List UInt8}
    (htorn : NEWLINE ∉ torn) :
    (Overruns s after → scan_text number st (torn ++ (s.output ++ wal after)) = none) ∧
    (¬ Overruns s after → scan_text number st (torn ++ (s.output ++ wal after)) =
      some (if s.word_written ∨ Completes s after then [⟨number + 2, s.key, s.value⟩] else [])) := by
  have hjunk := junk_wal hafter
  have hlength := s.length_record hs.toStorable
  have hbeginLine : (begin_line s.transaction_id).length = (begin_text s.transaction_id).length + 1 := by
    rw [begin_line_eq, List.length_append, List.length_singleton]
  have hsetLine : (set_line s.key s.value).length = (set_text s.key s.value).length + 1 := by
    rw [set_line_eq hs.key hs.value, List.length_append, List.length_singleton]
  rw [session_t.begin_written_iff] at hbegin
  have hword : s.word_written ↔ s.record.length ≤ s.cut + 1 := Iff.rfl
  have hcompletes : Completes s after ↔ s.cut + 2 = s.record.length ∧ wal after ≠ [] := Iff.rfl
  have hcommitText := session_t.length_commit_text s.transaction_id
  obtain ⟨hcut, houtput⟩ | ⟨c, hc, hcut, houtput⟩ | ⟨c, hc, hcut, houtput⟩ | ⟨hcommitted, houtput⟩ :=
    s.output_cases hs.toStorable
  · have hscan : scan_text number st (torn ++ (s.output ++ wal after)) = some [] := by
      have hall : s.output = begin_text s.transaction_id := by
        rw [houtput, List.take_of_length_le hbegin]
      refine scan_last_begin number st ?_ ?_
      · simp [hall, htorn, newline_not_mem_begin_text, hjunk.newline]
      · rw [hall]
        exact List.infix_append_of_infix_right (List.infix_append_of_infix_left (begin_infix_begin_text _))
    refine ⟨fun hover => absurd hover.1 (by omega), fun _ => ?_⟩
    rw [hscan, if_neg (by rw [hword, hcompletes]; omega)]
  · have hdrop : s.output.drop (begin_line s.transaction_id).length = (set_text s.key s.value).take c := by
      rw [houtput, ← begin_line_eq, List.drop_left]
    have hiff : Overruns s after ↔ OverrunLine ((set_text s.key s.value).take c ++ wal after) := by
      rw [Overruns, hdrop]
      exact ⟨fun hover => hover.2.2, fun hover => ⟨by omega, by omega, hover⟩⟩
    have hlast := scan_last_set (number + 1) st.begun hs.key hs.value hs.plain rfl hjunk c
    rw [hiff, houtput, List.append_assoc, scan_begin_line _ _ _ _ htorn,
      if_neg (by rw [hword, hcompletes]; omega)]
    exact hlast
  · refine ⟨fun hover => absurd hover.2.1 (by omega), fun _ => ?_⟩
    rw [houtput, List.append_assoc, scan_begin_line _ _ _ _ htorn, List.append_assoc,
      scan_set_line _ _ _ hs.key hs.value hs.plain rfl,
      scan_last_commit _ _ _ rfl rfl rfl hjunk]
    have hfull : c = (commit_text s.transaction_id).length ↔ s.record.length ≤ s.cut + 1 := by omega
    have hlast : c + 1 = (commit_text s.transaction_id).length ↔ s.cut + 2 = s.record.length := by omega
    refine congrArg some (if_congr ?_ rfl rfl)
    rw [commit_infix_last_iff _ hc hjunk, hfull, hlast]
    rfl
  · refine ⟨fun hover => absurd hover.2.1 (by rw [session_t.committed] at hcommitted; omega), fun _ => ?_⟩
    rw [session_t.committed] at hcommitted
    rw [houtput, List.append_assoc, scan_begin_line _ _ _ _ htorn, List.append_assoc,
      scan_set_line _ _ _ hs.key hs.value hs.plain rfl, scan_commit_line _ _ _ _ rfl rfl rfl,
      scan_idle _ _ hjunk rfl, if_pos (by rw [hword]; omega)]
    rfl

theorem two_le_count_newline {s : session_t} (h : s.Storable) (hword : s.word_written) :
    2 ≤ s.output.count NEWLINE := by
  have hlength := s.length_record h
  have hcommit := session_t.length_commit_text s.transaction_id
  rw [session_t.word_written] at hword
  obtain ⟨hcut, -⟩ | ⟨c, hc, hcut, -⟩ | ⟨c, -, -, houtput⟩ | ⟨-, houtput⟩ := s.output_cases h
  · omega
  · omega
  · simp only [houtput, List.count_append, List.count_singleton_self]
    omega
  · simp only [houtput, List.count_append, List.count_singleton_self]
    omega

/-- The calls for sessions are for lines before the next session. -/
theorem line_le_of_mem_calls_of {sessions : List session_t} (h : ∀ s ∈ sessions, s.Storable) {number : Nat}
    {call : apply_t} (hcall : call ∈ calls_of session_t.word_written number sessions) :
    call.line ≤ number + (wal sessions).count NEWLINE := by
  induction sessions generalizing number with
  | nil => cases hcall
  | cons s sessions ih =>
    rw [calls_of, List.mem_append] at hcall
    rw [wal_cons, List.count_append]
    obtain hcall | hcall := hcall
    · split at hcall
      · rename_i hword
        have hcount := two_le_count_newline (h s (by simp)) hword
        obtain rfl := List.mem_singleton.mp hcall
        show number + 2 ≤ _
        omega
      · cases hcall
    · have hle := ih (fun s hs => h s (by simp [hs])) hcall
      omega

/-- The calls are those for all sessions with a complete commit line, and for
further ones at most if their word `COMMIT` was written, in the order of the log. -/
def Atomic (sessions : List session_t) (calls : List apply_t) : Prop :=
  (calls_of session_t.committed 0 sessions).Sublist calls ∧ calls.Sublist (calls_of session_t.word_written 0 sessions)

theorem session_t.committed.word_written {s : session_t} (h : s.committed) : s.word_written := by
  rw [session_t.committed] at h
  rw [session_t.word_written]
  omega

theorem scan_split {before after : List session_t} {s : session_t} (hbefore : ∀ s ∈ before, s.Valid) (hs : s.Valid)
    (hbegin : s.begin_written) (hafter : ∀ s ∈ after, s.Storable ∧ ¬ s.begin_written) :
    (∃ calls, scan_text 0 scan_init (wal (before ++ s :: after)) = some calls ∧ Atomic (before ++ s :: after) calls) ↔
      ¬ Completes s after ∧ ¬ Overruns s after := by
  obtain ⟨st, torn, htorn, hscan⟩ := scan_sessions hbefore 0 scan_init (List.not_mem_nil : NEWLINE ∉ [])
  have hlast := scan_last_session hs hbegin hafter (0 + (wal before).count NEWLINE) st htorn
  have hwal : wal (before ++ s :: after) = [] ++ (wal before ++ (s.output ++ wal after)) := by
    simp [wal]
  have hwords (s' : session_t) (hs' : s' ∈ after) : ¬ s'.word_written := by
    obtain ⟨hstorable, hnot⟩ := hafter s' hs'
    intro hword
    rw [session_t.word_written] at hword
    exact hnot (session_t.begin_written_of_length_le hstorable (by omega))
  have hnone := calls_of_eq_nil session_t.word_written (0 + (wal before).count NEWLINE + s.output.count NEWLINE) hwords
  have hnone' := calls_of_eq_nil session_t.committed (0 + (wal before).count NEWLINE + s.output.count NEWLINE)
    fun s' hs' hcommitted => hwords s' hs' hcommitted.word_written
  have hsub := calls_of_sublist session_t.committed 0 (fun _ h => h.word_written) before
  rw [hwal, hscan]
  unfold Atomic
  rw [calls_of_append, calls_of_append, calls_of, calls_of, hnone, hnone', List.append_nil, List.append_nil]
  by_cases hover : Overruns s after
  · refine iff_of_false ?_ fun h => h.2 hover
    rw [hlast.1 hover]
    rintro ⟨calls, heq, -⟩
    cases heq
  rw [hlast.2 hover]
  by_cases hcompletes : Completes s after
  · refine iff_of_false ?_ fun h => h.1 hcompletes
    rintro ⟨calls, heq, -, hsublist⟩
    obtain rfl := Option.some.inj heq
    have hcut := hcompletes.1
    rw [if_pos (Or.inr hcompletes), if_neg (by rw [session_t.word_written]; omega), List.append_nil] at hsublist
    have hmem := hsublist.subset (List.mem_append_right _ List.mem_cons_self)
    have hle := line_le_of_mem_calls_of (fun s hs => (hbefore s hs).toStorable) hmem
    exact absurd hle (by simp)
  · refine iff_of_true ⟨_, rfl, ?_, ?_⟩ ⟨hcompletes, hover⟩
    · refine List.Sublist.append (List.Sublist.refl _) ?_
      by_cases hcommitted : s.committed
      · rw [if_pos hcommitted, if_pos (Or.inl hcommitted.word_written)]
      · rw [if_neg hcommitted]
        exact List.nil_sublist _
    · refine List.Sublist.append hsub ?_
      by_cases hword : s.word_written
      · rw [if_pos (Or.inl hword), if_pos hword]
      · rw [if_neg (not_or.mpr ⟨hword, hcompletes⟩)]
        exact List.nil_sublist _

theorem exists_last_begun (sessions : List session_t) :
    (∀ s ∈ sessions, ¬ s.begin_written) ∨
    ∃ before s after, sessions = before ++ s :: after ∧ s.begin_written ∧ ∀ s' ∈ after, ¬ s'.begin_written := by
  induction sessions with
  | nil => exact Or.inl (by simp)
  | cons s sessions ih =>
    obtain hnone | ⟨before, last, after, rfl, hlast, hafter⟩ := ih
    · by_cases hs : s.begin_written
      · exact Or.inr ⟨[], s, sessions, rfl, hs, hnone⟩
      · exact Or.inl (by simpa [hs] using hnone)
    · exact Or.inr ⟨s :: before, last, after, rfl, hlast, hafter⟩

/-- Recovery after crashes is atomic exactly if no session that only lacks the last
letter of `COMMIT`, and none cut in its data line, is followed to the end of the
log by torn begin lines that complete the word, or that overrun a buffer. -/
theorem recover_torn_iff (sessions : List session_t) (hvalid : ∀ s ∈ sessions, s.Valid)
    (hlines : ∀ line ∈ physical_lines NEWLINE (wal sessions), line.length < LINE_SIZE) :
    (∃ calls incomplete, cmd_recover (wal sessions) = some (calls, incomplete) ∧ Atomic sessions calls) ↔
      ∀ before s after, sessions = before ++ s :: after → (∀ s' ∈ after, ¬ s'.begin_written) →
        ¬ Completes s after ∧ ¬ Overruns s after := by
  have hrecover := cmd_recover_eq (zero_not_mem_wal fun s hs => (hvalid s hs).toStorable) hlines
  have hscan : (∃ calls incomplete, cmd_recover (wal sessions) = some (calls, incomplete) ∧ Atomic sessions calls) ↔
      ∃ calls, scan_text 0 scan_init (wal sessions) = some calls ∧ Atomic sessions calls := by
    rw [← hrecover]
    constructor
    · rintro ⟨calls, incomplete, heq, hatomic⟩
      exact ⟨calls, by rw [heq]; rfl, hatomic⟩
    · rintro ⟨calls, heq, hatomic⟩
      obtain ⟨⟨calls, incomplete⟩, hresult, rfl⟩ := Option.map_eq_some_iff.mp heq
      exact ⟨calls, incomplete, hresult, hatomic⟩
  rw [hscan]
  constructor
  · rintro hatomic before s after rfl hafter
    have hs : s.Valid := hvalid s (by simp)
    have hjunk : ∀ s' ∈ after, s'.Storable ∧ ¬ s'.begin_written := fun s' hs' =>
      ⟨(hvalid s' (by simp [hs'])).toStorable, hafter s' hs'⟩
    by_cases hbegin : s.begin_written
    · exact (scan_split (fun s hs => hvalid s (by simp [hs])) hs hbegin hjunk).mp hatomic
    · refine ⟨fun hcompletes => hbegin ?_, fun hover => hbegin ?_⟩
      · exact session_t.begin_written_of_length_le hs.toStorable hcompletes.1.ge
      · have hcut := hover.1
        rw [session_t.begin_written]
        omega
  · intro hall
    obtain hnone | ⟨before, s, after, rfl, hbegin, hafter⟩ := exists_last_begun sessions
    · have hjunk := junk_wal fun s hs => ⟨(hvalid s hs).toStorable, hnone s hs⟩
      have hwords : ∀ s ∈ sessions, ¬ s.word_written := by
        intro s hs hword
        rw [session_t.word_written] at hword
        exact hnone s hs (session_t.begin_written_of_length_le (hvalid s hs).toStorable (by omega))
      refine ⟨[], scan_idle 0 scan_init hjunk rfl, ?_, List.nil_sublist _⟩
      rw [calls_of_eq_nil _ _ fun s hs h => hwords s hs h.word_written]
    · exact (scan_split (fun s hs => hvalid s (by simp [hs])) (hvalid s (by simp)) hbegin fun s' hs' =>
        ⟨(hvalid s' (by simp [hs'])).toStorable, hafter s' hs'⟩).mpr (hall before s after rfl hafter)

theorem valid_of_letters (id : Int32) {key value : UInt8} (cut : Nat) (hkey : key ≠ 0 ∧ isspace key = false)
    (hvalue : value ≠ 0 ∧ isspace value = false) : (⟨id, [key], [value], cut⟩ : session_t).Valid := by
  have hword (c : UInt8) (hc : c ≠ 0 ∧ isspace c = false) : IsWord [c] := ⟨by simp, by simp, by simpa using hc⟩
  have hshort (c : UInt8) : ¬ BEGIN <:+: [c] := by
    intro hwithin
    have hle := hwithin.length_le
    exact absurd hle (by simp [BEGIN, ascii])
  exact ⟨⟨hword key hkey, hword value hvalue⟩, hshort key, hshort value⟩

/-- A complete session, and one cut in its commit line. -/
theorem recover_torn_commit :
    ∃ calls incomplete, cmd_recover (wal [⟨1, [107], [118], 49⟩, ⟨2, [107], [119], 35⟩]) = some (calls, incomplete) ∧
      Atomic [⟨1, [107], [118], 49⟩, ⟨2, [107], [119], 35⟩] calls := by
  refine (recover_torn_iff [⟨1, [107], [118], 49⟩, ⟨2, [107], [119], 35⟩] ?_ (by decide)).mpr ?_
  · intro s hs
    obtain rfl | rfl : s = ⟨1, [107], [118], 49⟩ ∨ s = ⟨2, [107], [119], 35⟩ := by simpa using hs
    · exact valid_of_letters 1 49 (by decide) (by decide)
    · exact valid_of_letters 2 35 (by decide) (by decide)
  · intro before s after hsplit hafter
    cases before with
    | nil =>
      obtain ⟨rfl, rfl⟩ := List.cons.inj hsplit
      exact absurd (hafter _ List.mem_cons_self) (by decide)
    | cons first before =>
      obtain ⟨-, hrest⟩ := List.cons.inj hsplit
      obtain ⟨rfl, rfl, rfl⟩ : before = [] ∧ s = ⟨2, [107], [119], 35⟩ ∧ after = [] := by
        cases before with
        | nil =>
          obtain ⟨rfl, rfl⟩ := List.cons.inj hrest
          exact ⟨rfl, rfl, rfl⟩
        | cons second before =>
          have hlength := congrArg List.length hrest
          simp at hlength
      exact ⟨by decide, fun hover => absurd hover.2.1 (by decide)⟩

/-- A session cut before the last letter of `COMMIT` is applied when the next one
crashes right after its first byte. -/
theorem recover_applies_uncommitted :
    ¬ ∀ sessions : List session_t, (∀ s ∈ sessions, s.Valid) →
      (∀ line ∈ physical_lines NEWLINE (wal sessions), line.length < LINE_SIZE) →
      ∃ calls incomplete, cmd_recover (wal sessions) = some (calls, incomplete) ∧ Atomic sessions calls := by
  intro hall
  have hvalid : ∀ s ∈ [(⟨1, [107], [118], 47⟩ : session_t), ⟨2, [107], [119], 1⟩], s.Valid := by
    intro s hs
    obtain rfl | rfl : s = ⟨1, [107], [118], 47⟩ ∨ s = ⟨2, [107], [119], 1⟩ := by simpa using hs
    · exact valid_of_letters 1 47 (by decide) (by decide)
    · exact valid_of_letters 2 1 (by decide) (by decide)
  obtain ⟨calls, incomplete, heq, -, hsublist⟩ := hall _ hvalid (by decide)
  have hrun : cmd_recover (wal [⟨1, [107], [118], 47⟩, ⟨2, [107], [119], 1⟩]) =
    some ([⟨2, [107], [118]⟩], false) := by decide
  have hwords : calls_of session_t.word_written 0 [⟨1, [107], [118], 47⟩, ⟨2, [107], [119], 1⟩] = [] := by decide
  rw [hrun] at heq
  obtain ⟨rfl, -⟩ := Prod.mk.inj (Option.some.inj heq)
  rw [hwords] at hsublist
  cases hsublist

end csystems.wal_demo
