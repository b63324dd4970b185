import CSystems.Lib.CString
import CSystems.Lib.Text

open clib.ctype clib.string clib.text

namespace csystems.shell

def MAX_INPUT : Nat := 1024
def MAX_ARGS : Nat := 64

def newline : UInt8 := 10

def exit_text : List UInt8 := ascii "exit".toList

/-- The characters of `" \t"`. -/
def delimiter (b : UInt8) : Bool := decide (b = 32) || decide (b = 9)

/-- `strtok`: the first token of a string, and the string behind it. -/
def strtok (text : List UInt8) : Option (List UInt8 × List UInt8) :=
  let text := text.dropWhile delimiter
  if text = [] then none
  else some (text.takeWhile fun b => !delimiter b, (text.dropWhile fun b => !delimiter b).drop 1)

/-- The loop that fills `args`, with room for so many tokens. -/
def read_args : Nat → List UInt8 → List (List UInt8)
  | 0, _ => []
  | room + 1, text =>
    match strtok text with
    | none => []
    | some (token, text) => token :: read_args room text

/-- The string in `input` after its newline is overwritten. -/
def cut_line (input : List UInt8) : List UInt8 := (c_str input).takeWhile fun b => decide (b ≠ newline)

/-- What becomes of a child: the program it executes reads so many bytes of the standard
input, or `execvp` fails and the child exits. -/
inductive child_t where
  | executed (count : Nat)
  | failed
  deriving DecidableEq

/-- What a call of `fork` finds: the child it makes, unless it fails, and how much of the
rest of the text is in the buffer of `stdin`. -/
structure outcome_t where
  child : Option child_t
  buffered : Nat
  deriving DecidableEq

/-- A command, and the child that `fork` made for it. -/
structure call_t where
  args : List (List UInt8)
  child : Option child_t
  deriving DecidableEq

/-- The text that is left for the shell. A child has the same standard input: what it reads
is gone, and where the input can be repositioned, `exit` moves it back to before the
buffer, which the shell goes on to read as well. -/
def after (seekable : Bool) (rest : List UInt8) (out : outcome_t) : List UInt8 :=
  match out.child with
  | none => rest
  | some (.executed count) => rest.take out.buffered ++ rest.drop (out.buffered + count)
  | some .failed => if seekable then rest.take out.buffered ++ rest else rest

/-- The rounds of the loop on the text of the standard input, with the outcomes of its
calls of `fork`; `none` if so many rounds do not suffice. -/
def rounds (seekable : Bool) (outs : Nat → outcome_t) : Nat → Nat → List UInt8 → Option (List call_t)
  | 0, _, _ => none
  | fuel + 1, k, stdin =>
    match fgets newline (MAX_INPUT - 1) stdin with
    | ([], _) => some []
    | (line, rest) =>
      let input := cut_line line
      if strcmp input exit_text = 0 then some []
      else
        match read_args (MAX_ARGS - 1) input with
        | [] => rounds seekable outs fuel k rest
        | args => (rounds seekable outs fuel (k + 1) (after seekable rest (outs k))).map (⟨args, (outs k).child⟩ :: ·)

/-- The commands of a run. -/
def main (seekable : Bool) (outs : Nat → outcome_t) (fuel : Nat) (stdin : List UInt8) : Option (List call_t) :=
  rounds seekable outs fuel 0 stdin

/-- The child leaves the standard input alone. -/
def outcome_t.Quiet (seekable : Bool) (out : outcome_t) : Prop :=
  match out.child with
  | none => True
  | some (.executed count) => count = 0
  | some .failed => seekable = false

/-- A text is a list of words with blanks before, between and behind them. -/
inductive Spells : List (List UInt8) → List UInt8 → Prop where
  | blanks {text : List UInt8} (hblanks : ∀ b ∈ text, delimiter b = true) : Spells [] text
  | word {words : List (List UInt8)} {blanks word rest : List UInt8} (hblanks : ∀ b ∈ blanks, delimiter b = true)
      (hne : word ≠ []) (hword : ∀ b ∈ word, delimiter b = false) (hrest : ∀ b ∈ rest.head?, delimiter b = true)
      (h : Spells words rest) : Spells (word :: words) (blanks ++ word ++ rest)

section Words

variable {words : List (List UInt8)} {text : List UInt8}

theorem strtok_blanks (hblanks : ∀ b ∈ text, delimiter b = true) : strtok text = none := by
  have hdrop : text.dropWhile delimiter = [] := by simpa using hblanks
  rw [strtok, hdrop]
  rfl

theorem strtok_word {blanks word rest : List UInt8} (hblanks : ∀ b ∈ blanks, delimiter b = true) (hne : word ≠ [])
    (hword : ∀ b ∈ word, delimiter b = false) (hrest : ∀ b ∈ rest.head?, delimiter b = true) :
    strtok (blanks ++ word ++ rest) = some (word, rest.drop 1) := by
  have hword' : ∀ b ∈ word, (!delimiter b) = true := fun b hb => by rw [hword b hb]; rfl
  have hdrop : (blanks ++ word ++ rest).dropWhile delimiter = word ++ rest := by
    rw [List.append_assoc, List.dropWhile_append_of_pos hblanks]
    obtain ⟨b, word, rfl⟩ := List.exists_cons_of_ne_nil hne
    exact List.dropWhile_cons_of_neg (by rw [hword b List.mem_cons_self]; simp)
  have hends : (rest.takeWhile fun b => !delimiter b) = [] ∧ (rest.dropWhile fun b => !delimiter b) = rest := by
    cases rest with
    | nil => exact ⟨rfl, rfl⟩
    | cons b rest =>
      have hb : ¬ (!delimiter b) = true := by rw [hrest b rfl]; simp
      exact ⟨List.takeWhile_cons_of_neg hb, List.dropWhile_cons_of_neg hb⟩
  rw [strtok, hdrop, if_neg (List.append_ne_nil_of_left_ne_nil hne _), List.takeWhile_append_of_pos hword',
    List.dropWhile_append_of_pos hword', hends.1, hends.2, List.append_nil]

/-- The blank that `strtok` overwrites may be left out. -/
theorem Spells.drop_one (h : Spells words text) (htext : ∀ b ∈ text.head?, delimiter b = true) :
    Spells words (text.drop 1) := by
  cases h with
  | blanks hblanks => exact .blanks fun b hb => hblanks b (List.mem_of_mem_drop hb)
  | @word words blanks word rest hblanks hne hword hrest h =>
    cases blanks with
    | nil =>
      obtain ⟨b, word, rfl⟩ := List.exists_cons_of_ne_nil hne
      have hb := htext b rfl
      rw [hword b List.mem_cons_self] at hb
      cases hb
    | cons b blanks => exact .word (fun b hb => hblanks b (List.mem_cons_of_mem _ hb)) hne hword hrest h

/-- The arguments are the words, as far as there is room. -/
theorem Spells.read_args (h : Spells words text) (room : Nat) : read_args room text = words.take room := by
  induction room generalizing words text with
  | zero => rfl
  | succ room ih =>
    cases h with
    | blanks hblanks => rw [shell.read_args, strtok_blanks hblanks, List.take_nil]
    | word hblanks hne hword hrest h =>
      rw [shell.read_args, strtok_word hblanks hne hword hrest, List.take_succ_cons]
      dsimp only
      rw [ih (h.drop_one hrest)]

theorem not_delimiter_of_all (h : text.all (fun b => !delimiter b) = true) : ∀ b ∈ text, delimiter b = false :=
  fun b hb => by simpa using List.all_eq_true.mp h b hb

theorem plain_of_all (h : text.all (fun b => b != 0 && b != newline) = true) : ∀ b ∈ text, b ≠ 0 ∧ b ≠ newline :=
  fun b hb => by simpa using List.all_eq_true.mp h b hb

theorem Spells.single {word : List UInt8} (hne : word ≠ []) (hword : ∀ b ∈ word, delimiter b = false) :
    Spells [word] word := by
  have hspells : Spells [word] ([] ++ word ++ []) :=
    .word (by simp) hne hword (by simp) (.blanks (by simp))
  simpa using hspells

/-- Every text is a list of words. -/
theorem exists_spells (text : List UInt8) : ∃ words, Spells words text := by
  induction hn : text.length using Nat.strongRecOn generalizing text with
  | ind n ih =>
    let blanks := text.takeWhile delimiter
    let tail := text.dropWhile delimiter
    let word := tail.takeWhile fun b => !delimiter b
    let rest := tail.dropWhile fun b => !delimiter b
    have htail : word ++ rest = tail := List.takeWhile_append_dropWhile
    have htext : blanks ++ tail = text := List.takeWhile_append_dropWhile
    have hblanks : ∀ b ∈ blanks, delimiter b = true := fun b hb => List.mem_takeWhile_imp hb
    by_cases hnil : tail = []
    · rw [hnil, List.append_nil] at htext
      exact ⟨[], .blanks (htext ▸ hblanks)⟩
    · have hword : ∀ b ∈ word, delimiter b = false := fun b hb => by simpa using List.mem_takeWhile_imp hb
      have hne : word ≠ [] := by
        obtain ⟨b, bytes, hcons⟩ := List.exists_cons_of_ne_nil hnil
        have hstop := List.head?_dropWhile_not delimiter text
        rw [show text.dropWhile delimiter = b :: bytes from hcons] at hstop
        rw [show word = (b :: bytes).takeWhile fun b => !delimiter b by rw [← hcons],
          List.takeWhile_cons_of_pos (by simpa using hstop)]
        exact List.cons_ne_nil _ _
      have hrest : ∀ b ∈ rest.head?, delimiter b = true := by
        intro b hb
        have hstop := List.head?_dropWhile_not (fun b => !delimiter b) tail
        rw [Option.mem_def.mp hb] at hstop
        simpa using hstop
      obtain ⟨words, hspells⟩ := ih rest.length (by
        have hpos := List.length_pos_iff.mpr hne
        rw [← hn, ← htext, ← htail, List.length_append, List.length_append]
        omega) rest rfl
      refine ⟨word :: words, ?_⟩
      rw [← htext, ← htail, ← List.append_assoc]
      exact .word hblanks hne hword hrest hspells

end Words

/-- A line that `fgets` reads whole, with its words; it has no terminator in it. -/
structure line_t where
  text : List UInt8
  words : List (List UInt8)
  spells : Spells words text
  plain : ∀ b ∈ text, b ≠ 0 ∧ b ≠ newline
  short : text.length + 1 < MAX_INPUT

/-- A text that is such a line. -/
def IsLine (text : List UInt8) : Prop := (∀ b ∈ text, b ≠ 0 ∧ b ≠ newline) ∧ text.length + 1 < MAX_INPUT

-- the bounded quantifier is decided along the text, not over all bytes
instance (text : List UInt8) : Decidable (IsLine text) :=
  @instDecidableAnd _ _ (List.decidableBAll _ text) inferInstance

theorem exists_lines {texts : List (List UInt8)} (hlines : ∀ text ∈ texts, IsLine text) :
    ∃ lines : List line_t, lines.map line_t.text = texts := by
  induction texts with
  | nil => exact ⟨[], rfl⟩
  | cons text texts ih =>
    obtain ⟨lines, htexts⟩ := ih fun text hmem => hlines text (List.mem_cons_of_mem _ hmem)
    obtain ⟨hplain, hshort⟩ := hlines text List.mem_cons_self
    obtain ⟨words, hspells⟩ := exists_spells text
    exact ⟨⟨text, words, hspells, hplain, hshort⟩ :: lines, by rw [List.map_cons, htexts]⟩

/-- The lines, each with its newline. -/
def script (texts : List (List UInt8)) : List UInt8 := texts.flatMap fun text => text ++ [newline]

/-- What the lines ask for: a line without words asks for nothing, and there is room for
`MAX_ARGS - 1` words. -/
def commands (lines : List line_t) : List (List (List UInt8)) :=
  (lines.map fun line => line.words.take (MAX_ARGS - 1)).filter fun args => decide (args ≠ [])

section Rounds

variable {seekable : Bool} {outs : Nat → outcome_t}

theorem cut_line_eq (line : line_t) : cut_line (line.text ++ [newline]) = line.text := by
  have hplain : 0 ∉ line.text ++ [newline] := by
    intro hmem
    obtain hmem | hmem := List.mem_append.mp hmem
    · exact (line.plain 0 hmem).1 rfl
    · exact absurd (List.mem_singleton.mp hmem) (by decide)
  have hkeep : ∀ b ∈ line.text, decide (b ≠ newline) = true := fun b hb => decide_eq_true (line.plain b hb).2
  rw [cut_line, c_str_eq_self hplain, List.takeWhile_append_of_pos hkeep]
  exact List.append_nil _

/-- The first line is read. -/
theorem fgets_line (line : line_t) (rest : List UInt8) :
    fgets newline (MAX_INPUT - 1) (line.text ++ [newline] ++ rest) = (line.text ++ [newline], rest) := by
  have hplain : newline ∉ line.text := fun hmem => (line.plain _ hmem).2 rfl
  have hroom : (line.text ++ [newline]).length ≤ MAX_INPUT - 1 := by
    have hshort := line.short
    rw [List.length_append, List.length_singleton]
    omega
  obtain ⟨rest', hfgets, -, heq⟩ := fgets_eq (physical_lines_append hplain rest) hroom
  rw [hfgets, List.append_cancel_left heq]

theorem strcmp_exit_iff (line : line_t) : strcmp line.text exit_text = 0 ↔ line.text = exit_text := by
  rw [strcmp_eq_zero_iff, c_str_eq_self fun hmem => (line.plain 0 hmem).1 rfl, c_str_eq_self (by decide)]

/-- A child that leaves the input alone leaves the text as it is. -/
theorem outcome_t.Quiet.after_eq {out : outcome_t} (h : out.Quiet seekable) (rest : List UInt8) :
    after seekable rest out = rest := by
  unfold outcome_t.Quiet at h
  unfold after
  cases hchild : out.child with
  | none => rfl
  | some child =>
    rw [hchild] at h
    cases child with
    | executed count =>
      obtain rfl : count = 0 := h
      exact List.take_append_drop ..
    | failed => exact if_neg (Bool.eq_false_iff.mp h)

/-- What a round reads and tests. -/
theorem rounds_line (line : line_t) (k fuel : Nat) (rest : List UInt8) :
    rounds seekable outs (fuel + 1) k (line.text ++ [newline] ++ rest) =
      if line.text = exit_text then some []
      else match line.words.take (MAX_ARGS - 1) with
      | [] => rounds seekable outs fuel k rest
      | args => (rounds seekable outs fuel (k + 1) (after seekable rest (outs k))).map (⟨args, (outs k).child⟩ :: ·) := by
  have hne : line.text ++ [newline] ≠ [] := List.append_ne_nil_of_right_ne_nil _ (List.cons_ne_nil _ _)
  obtain ⟨b, bytes, hcons⟩ := List.exists_cons_of_ne_nil hne
  rw [rounds, fgets_line, hcons]
  dsimp only
  rw [← hcons, cut_line_eq, line.spells.read_args]
  simp only [strcmp_exit_iff]

/-- The line `exit`. -/
def exit_line : line_t where
  text := exit_text
  words := [exit_text]
  spells := .single (by decide) (not_delimiter_of_all rfl)
  plain := plain_of_all rfl
  short := by decide

/-- The loop ends at the end of the text, and at a line `exit` whatever comes behind it. -/
theorem rounds_end {text : List UInt8} (htext : text = [] ∨ ∃ rest, text = exit_text ++ [newline] ++ rest)
    (k fuel : Nat) : rounds seekable outs (fuel + 1) k text = some [] := by
  obtain rfl | ⟨rest, rfl⟩ := htext
  · rfl
  · have hline : rounds seekable outs (fuel + 1) k (exit_text ++ [newline] ++ rest) = _ :=
      rounds_line exit_line k fuel rest
    rw [hline]
    exact if_pos rfl

/-- One round for each line, and one for the end. -/
theorem rounds_script (hquiet : ∀ k, (outs k).Quiet seekable) {lines : List line_t}
    (hexit : ∀ line ∈ lines, line.text ≠ exit_text) {text : List UInt8}
    (htext : text = [] ∨ ∃ rest, text = exit_text ++ [newline] ++ rest) (k : Nat) {fuel : Nat}
    (hfuel : lines.length < fuel) :
    rounds seekable outs fuel k (script (lines.map line_t.text) ++ text) =
      some ((commands lines).mapIdx fun i args => ⟨args, (outs (k + i)).child⟩) := by
  obtain ⟨fuel, rfl⟩ := Nat.exists_eq_add_one_of_ne_zero (Nat.ne_zero_of_lt hfuel)
  induction lines generalizing k fuel with
  | nil => exact rounds_end htext k fuel
  | cons line lines ih =>
    obtain ⟨fuel, rfl⟩ := Nat.exists_eq_add_one_of_ne_zero
      (Nat.ne_zero_of_lt (Nat.lt_of_succ_lt_succ hfuel))
    have hrest := fun k => ih (fun line hmem => hexit line (List.mem_cons_of_mem _ hmem)) k fuel
      (Nat.lt_of_succ_lt_succ hfuel)
    have hscript : script ((line :: lines).map line_t.text) ++ text =
        line.text ++ [newline] ++ (script (lines.map line_t.text) ++ text) := by
      rw [script, List.map_cons, List.flatMap_cons, List.append_assoc]
      rfl
    rw [hscript, rounds_line, if_neg (hexit line List.mem_cons_self)]
    cases hwords : line.words.take (MAX_ARGS - 1) with
    | nil =>
      rw [commands, List.map_cons, hwords]
      exact hrest k
    | cons word words =>
      rw [commands, List.map_cons, hwords, List.filter_cons_of_pos (by simp), List.mapIdx_cons]
      dsimp only
      rw [(hquiet k).after_eq, hrest (k + 1), Option.map_some, Nat.add_zero]
      refine congrArg (fun calls => some (_ :: calls)) (List.mapIdx_eq_mapIdx_iff.mpr fun i hi => ?_)
      rw [Nat.add_assoc, Nat.add_comm 1 i]

end Rounds

/-- As long as the children leave the standard input alone, the shell executes the words of
every line up to the end of its input or to a line `exit`, in the order of the lines: lines
without words are passed over, words beyond the first 63 are dropped, and a `fork` that
fails costs its own command only. -/
theorem script_executed {seekable : Bool} {outs : Nat → outcome_t} (hquiet : ∀ k, (outs k).Quiet seekable)
    {texts : List (List UInt8)} (hlines : ∀ text ∈ texts, IsLine text) (hexit : exit_text ∉ texts)
    {text : List UInt8} (htext : text = [] ∨ ∃ rest, text = exit_text ++ [newline] ++ rest) :
    ∃ lines : List line_t, lines.map line_t.text = texts ∧ ∀ fuel, texts.length < fuel →
      main seekable outs fuel (script texts ++ text) =
        some ((commands lines).mapIdx fun i args => ⟨args, (outs i).child⟩) := by
  obtain ⟨lines, rfl⟩ := exists_lines hlines
  refine ⟨lines, rfl, fun fuel hfuel => ?_⟩
  rw [List.length_map] at hfuel
  have hnot : ∀ line ∈ lines, line.text ≠ exit_text := fun line hmem heq =>
    hexit (List.mem_map.mpr ⟨line, hmem, heq⟩)
  rw [main, rounds_script hquiet hnot htext 0 hfuel]
  simp only [Nat.zero_add]

/-- The first `fork` fails, and the others do not. -/
def second_time (i : Nat) : outcome_t := ⟨if i = 0 then none else some (.executed 0), 3⟩

theorem script_executed_twice : ∃ lines : List line_t,
    lines.map line_t.text = [ascii "ls -l".toList, ascii " ".toList, ascii "ps".toList] ∧
    ((commands lines).mapIdx fun i args => (⟨args, (second_time i).child⟩ : call_t)) =
      [⟨[ascii "ls".toList, ascii "-l".toList], none⟩, ⟨[ascii "ps".toList], some (.executed 0)⟩] := by
  have hquiet (k : Nat) : (second_time k).Quiet true := by
    unfold outcome_t.Quiet second_time
    cases k <;> simp
  have hlines : ∀ text ∈ [ascii "ls -l".toList, ascii " ".toList, ascii "ps".toList], IsLine text := by decide
  obtain ⟨lines, htexts, hmain⟩ := script_executed hquiet hlines (by decide) (Or.inl rfl)
  have hrun := (hmain 4 (by decide)).symm
  exact ⟨lines, htexts, Option.some.inj (hrun.trans (by decide +kernel))⟩

/-- After a failed `execvp` the shell reads again what it had in the buffer of a file. -/
example : main true (fun i => ⟨some .failed, if i = 0 then 2 else 0⟩) 4 (ascii "a\nb\n".toList) =
    some [⟨[ascii ['a']], some .failed⟩, ⟨[ascii ['b']], some .failed⟩, ⟨[ascii ['b']], some .failed⟩] := by
  decide +kernel

end csystems.shell
