import Mathlib.Data.List.Basic

namespace csystems.valid_parentheses

/-- The stack after a character; `none` where `false` is returned. -/
def read_char (stack : List Char) (c : Char) : Option (List Char) :=
  if c = '(' ∨ c = '{' ∨ c = '[' then some (c :: stack)
  else
    match stack with
    | [] => none
    | topChar :: stack =>
      if (c = ')' ∧ topChar ≠ '(') ∨ (c = '}' ∧ topChar ≠ '{') ∨ (c = ']' ∧ topChar ≠ '[') then none else some stack

/-- The loop over the characters from index `i` on; `none` if `i++` overflows. -/
def isValid_loop : List Char → Nat → List Char → Option Bool
  | [], _, stack => some stack.isEmpty
  | c :: s, i, stack =>
    match read_char stack c with
    | none => some false
    | some stack => if i = 2147483647 then none else isValid_loop s (i + 1) stack

def isValid (s : List Char) : Option Bool := isValid_loop s 0 []

/-- The words of the grammar `S → ε | (S)S | {S}S | [S]S`. -/
inductive Word : List Char → Prop where
  | empty : Word []
  | round {u v : List Char} (hu : Word u) (hv : Word v) : Word ('(' :: (u ++ ')' :: v))
  | curly {u v : List Char} (hu : Word u) (hv : Word v) : Word ('{' :: (u ++ '}' :: v))
  | square {u v : List Char} (hu : Word u) (hv : Word v) : Word ('[' :: (u ++ ']' :: v))

def IsOpen (c : Char) : Prop := c = '(' ∨ c = '{' ∨ c = '['

instance (c : Char) : Decidable (IsOpen c) := inferInstanceAs (Decidable (_ ∨ _))

def IsBracket (c : Char) : Prop := IsOpen c ∨ c = ')' ∨ c = '}' ∨ c = ']'

instance (c : Char) : Decidable (IsBracket c) := inferInstanceAs (Decidable (_ ∨ _))

/-- The bracket that closes an opening one. -/
def closing (c : Char) : Char := if c = '(' then ')' else if c = '{' then '}' else ']'

variable {c t : Char} {s u v p st stack : List Char}

theorem not_isOpen_closing (c : Char) : ¬ IsOpen (closing c) := by
  unfold closing
  split
  · decide
  · split <;> decide

theorem IsOpen.word (hc : IsOpen c) (hu : Word u) (hv : Word v) : Word (c :: (u ++ closing c :: v)) := by
  obtain rfl | rfl | rfl := hc
  · exact .round hu hv
  · exact .curly hu hv
  · exact .square hu hv

/-- A word that is not empty opens a bracket, and closes it after a word. -/
theorem Word.cons_inv (h : Word (c :: s)) :
    IsOpen c ∧ ∃ u v, s = u ++ closing c :: v ∧ Word u ∧ Word v := by
  cases h with
  | round hu hv => exact ⟨by decide, _, _, rfl, hu, hv⟩
  | curly hu hv => exact ⟨by decide, _, _, rfl, hu, hv⟩
  | square hu hv => exact ⟨by decide, _, _, rfl, hu, hv⟩

/-- The rest of the string closes the brackets on the stack, the top one first,
with words before, between and after the closing brackets. -/
def Closes : List Char → List Char → Prop
  | [], s => Word s
  | t :: stack, s => ∃ u v, s = u ++ closing t :: v ∧ Word u ∧ Closes stack v

/-- Reading an opening bracket puts it on the stack of those to be closed. -/
theorem closes_open_iff (hc : IsOpen c) : Closes stack (c :: s) ↔ Closes (c :: stack) s := by
  cases stack with
  | nil =>
    constructor
    · intro h
      exact (Word.cons_inv h).2
    · rintro ⟨u, v, rfl, hu, hv⟩
      exact hc.word hu hv
  | cons t stack =>
    constructor
    · rintro ⟨u, v, hs, hu, hv⟩
      cases u with
      | nil =>
        obtain ⟨rfl, -⟩ := List.cons.inj hs
        exact absurd hc (not_isOpen_closing t)
      | cons d u =>
        obtain ⟨rfl, rfl⟩ := List.cons.inj hs
        obtain ⟨-, a, b, rfl, ha, hb⟩ := hu.cons_inv
        exact ⟨a, b ++ closing t :: v, List.append_assoc a (closing c :: b) _, ha, b, v, rfl, hb, hv⟩
    · rintro ⟨a, w, rfl, ha, b, v, rfl, hb, hv⟩
      refine ⟨c :: (a ++ closing c :: b), v, ?_, hc.word ha hb, hv⟩
      rw [List.cons_append, List.append_assoc, List.cons_append]

/-- Any other bracket must close the one on top of the stack. -/
theorem closes_close_iff (hc : ¬ IsOpen c) :
    Closes stack (c :: s) ↔ ∃ t rest, stack = t :: rest ∧ c = closing t ∧ Closes rest s := by
  cases stack with
  | nil =>
    constructor
    · intro h
      exact absurd (Word.cons_inv h).1 hc
    · rintro ⟨t, rest, hstack, -⟩
      cases hstack
  | cons t stack =>
    constructor
    · rintro ⟨u, v, hs, hu, hv⟩
      cases u with
      | nil =>
        obtain ⟨rfl, rfl⟩ := List.cons.inj hs
        exact ⟨t, stack, rfl, rfl, hv⟩
      | cons d u =>
        obtain ⟨rfl, -⟩ := List.cons.inj hs
        exact absurd hu.cons_inv.1 hc
    · rintro ⟨t', rest, hstack, rfl, hrest⟩
      obtain ⟨rfl, rfl⟩ := List.cons.inj hstack
      exact ⟨[], s, rfl, .empty, hrest⟩

theorem read_char_open (hc : IsOpen c) (stack : List Char) : read_char stack c = some (c :: stack) := if_pos hc

/-- A closing bracket takes the one it closes off the stack. -/
theorem read_char_close (hc : c = ')' ∨ c = '}' ∨ c = ']') (hstack : ∀ t ∈ stack, IsOpen t) :
    read_char stack c = some st ↔ ∃ t, stack = t :: st ∧ c = closing t := by
  have hclosed : ¬ (c = '(' ∨ c = '{' ∨ c = '[') := by
    obtain rfl | rfl | rfl := hc <;> decide
  rw [read_char.eq_def, if_neg hclosed]
  cases stack with
  | nil => simp
  | cons t stack =>
    have ht : IsOpen t := hstack t List.mem_cons_self
    obtain rfl | rfl | rfl := hc <;> obtain rfl | rfl | rfl := ht <;> simp [closing, eq_comm]

/-- Only opening brackets get on the stack. -/
theorem isOpen_of_read_char (hc : IsBracket c) (hstack : ∀ t ∈ stack, IsOpen t) (hrun : read_char stack c = some st) :
    ∀ t ∈ st, IsOpen t := by
  obtain hopen | hclose := hc
  · rw [read_char_open hopen, Option.some_inj] at hrun
    subst hrun
    intro t ht
    obtain rfl | ht := List.mem_cons.mp ht
    · exact hopen
    · exact hstack t ht
  · obtain ⟨t, rfl, -⟩ := (read_char_close hclose hstack).mp hrun
    exact fun d hd => hstack d (List.mem_cons_of_mem t hd)

theorem isOpen_of_foldlM (hs : ∀ c ∈ s, IsBracket c) (hstack : ∀ t ∈ stack, IsOpen t)
    (hrun : s.foldlM read_char stack = some st) : ∀ t ∈ st, IsOpen t := by
  induction s generalizing stack with
  | nil =>
    cases hrun
    exact hstack
  | cons c s ih =>
    obtain ⟨next, hread, hrest⟩ := Option.bind_eq_some_iff.mp hrun
    exact ih (fun d hd => hs d (List.mem_cons_of_mem c hd))
      (isOpen_of_read_char (hs c List.mem_cons_self) hstack hread) hrest

/-- The stack is empty after a string exactly if the string closes what was on it. -/
theorem foldlM_eq_nil_iff (hs : ∀ c ∈ s, IsBracket c) (hstack : ∀ t ∈ stack, IsOpen t) :
    s.foldlM read_char stack = some [] ↔ Closes stack s := by
  induction s generalizing stack with
  | nil =>
    cases stack with
    | nil => exact ⟨fun _ => .empty, fun _ => rfl⟩
    | cons t stack =>
      constructor
      · intro hrun
        cases hrun
      · rintro ⟨u, v, hnil, -⟩
        simp at hnil
  | cons c s ih =>
    have hrest : ∀ d ∈ s, IsBracket d := fun d hd => hs d (List.mem_cons_of_mem c hd)
    have hstep : (c :: s).foldlM read_char stack = some [] ↔
        ∃ st, read_char stack c = some st ∧ Closes st s := by
      rw [List.foldlM_cons, Option.bind_eq_bind, Option.bind_eq_some_iff]
      refine exists_congr fun st => and_congr_right fun hread => ?_
      exact ih hrest (isOpen_of_read_char (hs c List.mem_cons_self) hstack hread)
    rw [hstep]
    obtain hopen | hclose := hs c List.mem_cons_self
    · simp only [read_char_open hopen, Option.some_inj, exists_eq_left', closes_open_iff hopen]
    · have hclosed : ¬ IsOpen c := by
        obtain rfl | rfl | rfl := hclose <;> decide
      rw [closes_close_iff hclosed]
      constructor
      · rintro ⟨st, hread, hcloses⟩
        obtain ⟨t, rfl, hc⟩ := (read_char_close hclose hstack).mp hread
        exact ⟨t, st, rfl, hc, hcloses⟩
      · rintro ⟨t, st, rfl, hc, hcloses⟩
        exact ⟨st, (read_char_close hclose hstack).mpr ⟨t, rfl, hc⟩, hcloses⟩

theorem isBracket_closing (c : Char) : closing c = ')' ∨ closing c = '}' ∨ closing c = ']' := by
  unfold closing
  split
  · exact Or.inl rfl
  · split
    · exact Or.inr (Or.inl rfl)
    · exact Or.inr (Or.inr rfl)

theorem Word.isBracket (h : Word s) : ∀ c ∈ s, IsBracket c := by
  have hwrap {a b : Char} {u v : List Char} (ha : IsBracket a) (hb : IsBracket b) (hu : ∀ c ∈ u, IsBracket c)
      (hv : ∀ c ∈ v, IsBracket c) : ∀ c ∈ a :: (u ++ b :: v), IsBracket c := by
    intro c hc
    simp only [List.mem_cons, List.mem_append] at hc
    obtain rfl | hc | rfl | hc := hc
    · exact ha
    · exact hu c hc
    · exact hb
    · exact hv c hc
  induction h with
  | empty => simp
  | round hu hv ihu ihv => exact hwrap (by decide) (by decide) ihu ihv
  | curly hu hv ihu ihv => exact hwrap (by decide) (by decide) ihu ihv
  | square hu hv ihu ihv => exact hwrap (by decide) (by decide) ihu ihv

/-- The brackets on a stack can be closed. -/
theorem foldlM_closing (hstack : ∀ t ∈ stack, IsOpen t) : (stack.map closing).foldlM read_char stack = some [] := by
  induction stack with
  | nil => rfl
  | cons t stack ih =>
    have hread := (read_char_close (isBracket_closing t) hstack).mpr ⟨t, rfl, rfl⟩
    rw [List.map_cons, List.foldlM_cons, hread]
    exact ih fun d hd => hstack d (List.mem_cons_of_mem t hd)

/-- No bracket of a string is refused exactly if some word starts with it. -/
theorem foldlM_isSome_iff (hp : ∀ c ∈ p, IsBracket c) :
    (p.foldlM read_char []).isSome ↔ ∃ rest, Word (p ++ rest) := by
  constructor
  · intro hsome
    obtain ⟨stack, hrun⟩ := Option.isSome_iff_exists.mp hsome
    have hstack := isOpen_of_foldlM hp (by simp) hrun
    refine ⟨stack.map closing, ?_⟩
    have hall : ∀ c ∈ p ++ stack.map closing, IsBracket c := by
      intro c hc
      obtain hc | hc := List.mem_append.mp hc
      · exact hp c hc
      · obtain ⟨t, -, rfl⟩ := List.mem_map.mp hc
        exact Or.inr (isBracket_closing t)
    have hclosed : (p ++ stack.map closing).foldlM read_char [] = some [] := by
      rw [List.foldlM_append, hrun]
      exact foldlM_closing hstack
    exact (foldlM_eq_nil_iff hall (fun t ht => absurd ht List.not_mem_nil)).mp hclosed
  · rintro ⟨rest, hword⟩
    have hrun : (p ++ rest).foldlM read_char [] = some [] :=
      (foldlM_eq_nil_iff hword.isBracket (fun t ht => absurd ht List.not_mem_nil)).mpr hword
    rw [List.foldlM_append] at hrun
    obtain ⟨stack, hp, -⟩ := Option.bind_eq_some_iff.mp hrun
    rw [hp]
    rfl

section Loop

variable {i : Nat}

/-- As long as the index fits, the loop reads the string. -/
theorem loop_eq_some (hfits : i + s.length ≤ 2147483647) :
    isValid_loop s i stack = some ((s.foldlM read_char stack).any List.isEmpty) := by
  induction s generalizing i stack with
  | nil => rfl
  | cons c s ih =>
    rw [List.length_cons] at hfits
    rw [isValid_loop, List.foldlM_cons]
    cases read_char stack c with
    | none => rfl
    | some stack =>
      dsimp only
      rw [if_neg (by omega), ih (by omega)]
      rfl

/-- A longer string is read up to the largest index, unless it is refused there. -/
theorem loop_eq_overflow (hi : i ≤ 2147483647) (hlong : 2147483647 < i + s.length) :
    isValid_loop s i stack =
      if ((s.take (2147483648 - i)).foldlM read_char stack).isSome then none else some false := by
  induction s generalizing i stack with
  | nil =>
    rw [List.length_nil] at hlong
    omega
  | cons c s ih =>
    rw [List.length_cons] at hlong
    have htake : (c :: s).take (2147483648 - i) = c :: s.take (2147483648 - (i + 1)) := by
      rw [show 2147483648 - i = 2147483648 - (i + 1) + 1 by omega, List.take_succ_cons]
    rw [isValid_loop, htake, List.foldlM_cons]
    cases read_char stack c with
    | none => rfl
    | some stack =>
      dsimp only
      by_cases hlast : i = 2147483647
      · subst hlast
        rfl
      · rw [if_neg hlast, ih (by omega) (by omega)]
        rfl

end Loop

theorem isEmpty_any_iff (result : Option (List Char)) : result.any List.isEmpty = true ↔ result = some [] := by
  cases result with
  | none => simp
  | some stack => cases stack <;> simp

/-- A string of brackets is decided exactly if the index fits, that is, if the
string has fewer than `2^31` characters or the first `2^31` do not begin a word. -/
theorem isValid_decides_iff (s : List Char) (hs : ∀ c ∈ s, IsBracket c) :
    (∃ b, isValid s = some b ∧ (b = true ↔ Word s)) ↔
      s.length < 2147483648 ∨ ¬ ∃ rest, Word (s.take 2147483648 ++ rest) := by
  have htake : ∀ c ∈ s.take 2147483648, IsBracket c := fun c hc => hs c (List.mem_of_mem_take hc)
  by_cases hshort : s.length < 2147483648
  · refine iff_of_true ⟨_, loop_eq_some (by omega), ?_⟩ (Or.inl hshort)
    rw [isEmpty_any_iff, foldlM_eq_nil_iff hs (by simp)]
    rfl
  · rw [or_iff_right hshort, ← foldlM_isSome_iff htake, isValid, loop_eq_overflow (Nat.zero_le _) (by omega),
      Nat.sub_zero]
    by_cases hviable : ((s.take 2147483648).foldlM read_char []).isSome = true
    · rw [if_pos hviable]
      simp [hviable]
    · rw [if_neg hviable]
      refine iff_of_true ⟨false, rfl, ?_⟩ hviable
      rw [foldlM_isSome_iff htake] at hviable
      refine iff_of_false Bool.false_ne_true fun hword => hviable ⟨s.drop 2147483648, ?_⟩
      rwa [List.take_append_drop]

theorem isValid_decides_three_pairs :
    (∃ b, isValid ['(', '[', ']', ')', '{', '}'] = some b ∧ (b = true ↔ Word ['(', '[', ']', ')', '{', '}'])) ↔
      ['(', '[', ']', ')', '{', '}'].length < 2147483648 ∨
        ¬ ∃ rest, Word (['(', '[', ']', ')', '{', '}'].take 2147483648 ++ rest) :=
  isValid_decides_iff ['(', '[', ']', ')', '{', '}'] (by simp [IsBracket, IsOpen])

theorem foldlM_pairs (n : Nat) : (List.replicate n ['(', ')']).flatten.foldlM read_char [] = some [] := by
  induction n with
  | zero => rfl
  | succ n ih =>
    rw [List.replicate_succ, List.flatten_cons, List.foldlM_append]
    exact ih

/-- The loop does not get to the end of `2^30` or more pairs of brackets. -/
theorem isValid_pairs {n : Nat} (hn : 1073741824 ≤ n) : isValid (List.replicate n ['(', ')']).flatten = none := by
  have hlength : (List.replicate n ['(', ')']).flatten.length = n * 2 := by
    rw [List.length_flatten, List.map_replicate, List.sum_replicate_nat]
    rfl
  have hread : (((List.replicate n ['(', ')']).flatten.take 2147483648).foldlM read_char []).isSome := by
    have hrun := foldlM_pairs n
    rw [← List.take_append_drop 2147483648 (List.replicate n ['(', ')']).flatten, List.foldlM_append] at hrun
    obtain ⟨stack, hstack, -⟩ := Option.bind_eq_some_iff.mp hrun
    rw [hstack]
    rfl
  rw [isValid, loop_eq_overflow (Nat.zero_le _) (by omega), Nat.sub_zero, if_pos hread]

/-- `2^30` pairs of brackets: the index overflows at the last bracket. -/
theorem isValid_overflow :
    ¬ ∃ b, isValid (List.replicate 1073741824 ['(', ')']).flatten = some b ∧
      (b = true ↔ Word (List.replicate 1073741824 ['(', ')']).flatten) := by
  rintro ⟨b, hrun, -⟩
  rw [isValid_pairs (Nat.le_refl 1073741824)] at hrun
  cases hrun

end csystems.valid_parentheses
