import Mathlib.Data.List.Basic
import Mathlib.Data.List.TakeWhile
import Mathlib.Data.List.Infix

namespace clib.text

/-- A word that lacks a character is on one side of it. -/
theorem infix_append_cons_iff {α : Type} {word left right : List α} {c : α} (hc : c ∉ word) (hword : word ≠ []) :
    word <:+: left ++ c :: right ↔ word <:+: left ∨ word <:+: right := by
  rw [List.infix_append_iff_ne_nil, List.infix_cons_iff]
  constructor
  · rintro (h | (h | h) | ⟨l₁, l₂, -, hl₂, rfl, -, h⟩)
    · exact Or.inl h
    · obtain ⟨d, word, rfl⟩ := List.exists_cons_of_ne_nil hword
      obtain ⟨rfl, -⟩ := List.cons_prefix_cons.mp h
      exact absurd List.mem_cons_self hc
    · exact Or.inr h
    · obtain ⟨d, l₂, rfl⟩ := List.exists_cons_of_ne_nil hl₂
      obtain ⟨rfl, -⟩ := List.cons_prefix_cons.mp h
      simp at hc
  · rintro (h | h)
    · exact Or.inl h
    · exact Or.inr (Or.inl (Or.inr h))

variable {α : Type} [DecidableEq α]

/-- `strstr(text, word) != NULL`. -/
def strstr : List α → List α → Bool
  | [], word => word.isEmpty
  | c :: text, word => word.isPrefixOf (c :: text) || strstr text word

@[simp] theorem strstr_iff {text word : List α} : strstr text word = true ↔ word <:+: text := by
  induction text with
  | nil => simp [strstr]
  | cons c text ih => simp [strstr, List.infix_cons_iff, ih]

section Lines

variable (newline : α)

/-- `fgets` into a buffer for `room` characters: the line read, up to and with its
newline, and the text after it. -/
def fgets : Nat → List α → List α × List α
  | 0, text => ([], text)
  | _ + 1, [] => ([], [])
  | room + 1, c :: text =>
    if c = newline then ([c], text)
    else
      let (line, rest) := fgets room text
      (c :: line, rest)

/-- The lines a loop of `fgets` reads until it answers `NULL`. -/
def read_lines (room : Nat) : Nat → List α → List (List α)
  | 0, _ => []
  | fuel + 1, text =>
    match fgets newline room text with
    | ([], _) => []
    | (line, rest) => line :: read_lines room fuel rest

/-- The lines of a text, each with its newline; the last one may lack it. -/
def physical_lines : List α → List (List α)
  | [] => []
  | c :: text =>
    if c = newline then [c] :: physical_lines text
    else
      match physical_lines text with
      | [] => [[c]]
      | line :: lines => (c :: line) :: lines

variable {newline}

@[simp] theorem physical_lines_nil : physical_lines newline [] = [] := rfl

/-- A terminated line is the first one of a text that starts with it. -/
theorem physical_lines_append {body : List α} (hbody : newline ∉ body) (rest : List α) :
    physical_lines newline (body ++ [newline] ++ rest) = (body ++ [newline]) :: physical_lines newline rest := by
  induction body with
  | nil => simp [physical_lines]
  | cons c body ih =>
    have hc : c ≠ newline := fun h => hbody (by simp [h])
    have htail := ih fun h => hbody (by simp [h])
    simp only [List.cons_append, physical_lines, if_neg hc, htail]

/-- A text without newline is one line. -/
theorem physical_lines_single {text : List α} (htext : newline ∉ text) (hne : text ≠ []) :
    physical_lines newline text = [text] := by
  induction text with
  | nil => exact absurd rfl hne
  | cons c text ih =>
    have hc : c ≠ newline := fun h => htext (by simp [h])
    rw [physical_lines, if_neg hc]
    cases text with
    | nil => rfl
    | cons d text => rw [ih (fun h => htext (by simp [h])) (by simp)]

theorem flatten_physical_lines (newline : α) (text : List α) : (physical_lines newline text).flatten = text := by
  induction text with
  | nil => rfl
  | cons c text ih =>
    rw [physical_lines]
    split
    · rw [List.flatten_cons, ih, List.singleton_append]
    · split
      · rename_i heq
        rw [heq] at ih
        simp [← ih]
      · rename_i heq
        rw [heq] at ih
        rw [← ih]
        rfl

/-- `fgets` reads a line that fits its buffer. -/
theorem fgets_eq {room : Nat} {text line : List α} {lines : List (List α)}
    (hlines : physical_lines newline text = line :: lines) (hroom : line.length ≤ room) :
    ∃ rest, fgets newline room text = (line, rest) ∧ physical_lines newline rest = lines ∧
      text = line ++ rest := by
  induction text generalizing room line lines with
  | nil => cases hlines
  | cons c text ih =>
    rw [physical_lines] at hlines
    by_cases hc : c = newline
    · rw [if_pos hc] at hlines
      obtain ⟨rfl, rfl⟩ := List.cons.inj hlines
      obtain ⟨room, rfl⟩ : ∃ k, room = k + 1 := ⟨room - 1, by simp at hroom; omega⟩
      exact ⟨text, by rw [fgets, if_pos hc], rfl, rfl⟩
    · rw [if_neg hc] at hlines
      split at hlines
      · rename_i hnil
        obtain ⟨rfl, rfl⟩ := List.cons.inj hlines
        obtain ⟨room, rfl⟩ : ∃ k, room = k + 1 := ⟨room - 1, by simp at hroom; omega⟩
        have htext : text = [] := by
          have hflat := flatten_physical_lines newline text
          rw [hnil] at hflat
          exact hflat.symm
        subst htext
        refine ⟨[], ?_, rfl, rfl⟩
        rw [fgets, if_neg hc]
        cases room <;> rfl
      · rename_i line' lines' hcons
        obtain ⟨rfl, rfl⟩ := List.cons.inj hlines
        obtain ⟨room, rfl⟩ : ∃ k, room = k + 1 := ⟨room - 1, by simp at hroom; omega⟩
        obtain ⟨rest, hfgets, hrest, htext⟩ := ih hcons (by simpa using hroom)
        refine ⟨rest, ?_, hrest, by rw [htext]; rfl⟩
        rw [fgets, if_neg hc, hfgets]

theorem physical_lines_ne_nil {text line : List α} (h : line ∈ physical_lines newline text) : line ≠ [] := by
  induction text generalizing line with
  | nil => cases h
  | cons c text ih =>
    rw [physical_lines] at h
    split at h
    · obtain rfl | h := List.mem_cons.mp h
      · simp
      · exact ih h
    · split at h
      · simp_all
      · rename_i heq
        obtain rfl | h := List.mem_cons.mp h
        · simp
        · exact ih (by rw [heq]; exact List.mem_cons_of_mem _ h)

/-- Lines that fit the buffer are read one by one. -/
theorem read_lines_eq {room fuel : Nat} {text : List α} (hfuel : text.length < fuel)
    (hroom : ∀ line ∈ physical_lines newline text, line.length ≤ room) :
    read_lines newline room fuel text = physical_lines newline text := by
  induction fuel generalizing text with
  | zero => omega
  | succ fuel ih =>
    rw [read_lines]
    cases hlines : physical_lines newline text with
    | nil =>
      have hflat := flatten_physical_lines newline text
      rw [hlines] at hflat
      obtain rfl : text = [] := hflat.symm
      cases room <;> rfl
    | cons line lines =>
      have hne := physical_lines_ne_nil (by rw [hlines]; exact List.mem_cons_self)
      obtain ⟨rest, hfgets, hrest, htext⟩ := fgets_eq hlines (hroom line (by simp [hlines]))
      have hpos := List.length_pos_iff.mpr hne
      have hlength : rest.length < fuel := by
        rw [htext, List.length_append] at hfuel
        omega
      have htail := ih hlength (by
        intro line' hline'
        exact hroom line' (by simp [hlines, hrest ▸ hline']))
      rw [hfgets]
      obtain ⟨c, line, rfl⟩ := List.exists_cons_of_ne_nil hne
      simp only [htail, hrest]

end Lines

end clib.text

namespace clib.words

/-! Words of a text: its longest stretches without white space. -/

variable {α : Type} (space : α → Bool)

/-- How many words begin in a text, when the text before it ends in a word or not. -/
def words_from : Bool → List α → Nat
  | _, [] => 0
  | in_word, c :: text =>
    if space c then words_from false text
    else if in_word then words_from true text
    else words_from true text + 1

/-- Whether the end of a text is in a word. -/
def ends_in_word : Bool → List α → Bool
  | in_word, [] => in_word
  | _, c :: text => ends_in_word (!space c) text

/-- A word starts right at the beginning of a text. -/
def starts_word (in_word : Bool) (text : List α) : Bool :=
  !in_word && text.head?.any fun c => !space c

variable {space}

theorem words_from_append (in_word : Bool) (left right : List α) :
    words_from space in_word (left ++ right) =
      words_from space in_word left + words_from space (ends_in_word space in_word left) right := by
  induction left generalizing in_word with
  | nil => simp [words_from, ends_in_word]
  | cons c left ih =>
    rw [List.cons_append]
    cases hc : space c with
    | true => simp [words_from, ends_in_word, hc, ih]
    | false =>
      cases in_word with
      | true => simp [words_from, ends_in_word, hc, ih]
      | false =>
        simp [words_from, ends_in_word, hc, ih]
        omega

theorem ends_in_word_append (in_word : Bool) (left right : List α) :
    ends_in_word space in_word (left ++ right) = ends_in_word space (ends_in_word space in_word left) right := by
  induction left generalizing in_word with
  | nil => rfl
  | cons c left ih => exact ih _

/-- The end of a text is in a word exactly if its last character is not a space. -/
theorem ends_in_word_concat (in_word : Bool) (text : List α) (c : α) :
    ends_in_word space in_word (text ++ [c]) = !space c := by
  rw [ends_in_word_append]
  rfl

/-- In a word, only what follows the next space counts. -/
theorem words_from_true (text : List α) :
    words_from space true text = words_from space false (text.dropWhile fun c => !space c) := by
  induction text with
  | nil => rfl
  | cons c text ih =>
    cases hc : space c with
    | true => simp [words_from, hc]
    | false => simp [words_from, hc, ih]

/-- A count that first skips to a space misses the word that starts at the beginning. -/
theorem words_from_skip (in_word : Bool) (text : List α) :
    words_from space in_word text =
      words_from space false (text.dropWhile fun c => !space c) +
        if starts_word space in_word text = true then 1 else 0 := by
  cases in_word with
  | true => simp [starts_word, words_from_true]
  | false =>
    cases text with
    | nil => rfl
    | cons c text =>
      cases hc : space c with
      | true => simp [starts_word, words_from, hc]
      | false => simp [starts_word, words_from, hc, words_from_true]

/-- A stretch of a text, from its first character that fails a test on. -/
theorem dropWhile_take (test : α → Bool) (n : Nat) (text : List α) :
    (text.take n).dropWhile test =
      (text.drop (text.takeWhile test).length).take (n - (text.takeWhile test).length) := by
  induction text generalizing n with
  | nil => simp
  | cons c text ih =>
    cases n with
    | zero => simp
    | succ n =>
      cases hc : test c with
      | true => simp [hc, ih]
      | false => simp [hc]

end clib.words
