import Mathlib.Algebra.Order.Ring.Int
import Mathlib.Data.List.Basic
import CSystems.Lib.CString

open clib.ctype

namespace clib.token

/-- What `strtok` with one delimiter returns, call by call, until it answers
`NULL`. -/
def tokens {α : Type} [DecidableEq α] (delim : α) (text : List α) : List (List α) :=
  (text.splitOn delim).filter (· ≠ [])

def isdigit (c : UInt8) : Bool := 48 ≤ c && c ≤ 57

/-- The number that a text of digits writes. -/
def number (digits : List UInt8) : Nat := digits.foldl (fun n c => n * 10 + (c.toNat - 48)) 0

def LONG_MAX : Int := 0x7fffffffffffffff
def LONG_MIN : Int := -LONG_MAX - 1

/-- `atoi`: white space, a sign, and digits up to the first other character. The
`long` it reads is cut to its bounds and then converted. -/
def atoi (text : List UInt8) : Int32 :=
  let text := text.dropWhile isspace
  let negative := text.head? = some 45
  let unsigned := if negative ∨ text.head? = some 43 then text.tail else text
  let value : Int := number (unsigned.takeWhile isdigit)
  (Int64.ofInt (max LONG_MIN (min LONG_MAX (if negative then -value else value)))).toInt32

section Tokens

variable {α : Type} {delim : α}

theorem intercalate_cons (field : List α) (fields : List (List α)) :
    [delim].intercalate (field :: fields) = field ++ fields.flatMap (delim :: ·) := by
  induction fields generalizing field with
  | nil => simp [List.intercalate]
  | cons next fields ih =>
    rw [List.intercalate_cons_cons, ih, List.flatMap_cons]
    simp

/-- Fields that are not empty and lack the delimiter are the tokens of the line
they make. -/
theorem tokens_fields [DecidableEq α] {field : List α} {fields : List (List α)}
    (hne : ∀ f ∈ field :: fields, f ≠ []) (hdelim : ∀ f ∈ field :: fields, delim ∉ f) :
    tokens delim (field ++ fields.flatMap (delim :: ·)) = field :: fields := by
  rw [tokens, ← intercalate_cons, List.splitOn_intercalate delim hdelim (List.cons_ne_nil _ _),
    List.filter_eq_self]
  intro f hf
  simpa using hne f hf

/-- A word up to a delimiter is determined by the text that it starts. -/
theorem word_inj {word word' rest rest' : List α} (hword : delim ∉ word) (hword' : delim ∉ word')
    (h : word ++ delim :: rest = word' ++ delim :: rest') : word = word' ∧ rest = rest' := by
  induction word generalizing word' with
  | nil =>
    cases word' with
    | nil => exact ⟨rfl, (List.cons.inj h).2⟩
    | cons c word' => exact absurd (List.cons.inj h).1 (List.ne_of_not_mem_cons hword')
  | cons c word ih =>
    cases word' with
    | nil => exact absurd (List.cons.inj h).1.symm (List.ne_of_not_mem_cons hword)
    | cons c' word' =>
      obtain ⟨rfl, htail⟩ := List.cons.inj h
      obtain ⟨rfl, hrest⟩ := ih (List.not_mem_of_not_mem_cons hword) (List.not_mem_of_not_mem_cons hword') htail
      exact ⟨rfl, hrest⟩

end Tokens

section Numbers

variable {c : UInt8} {digits : List UInt8}

theorem toNat_of_isdigit (h : isdigit c = true) : 48 ≤ c.toNat ∧ c.toNat ≤ 57 := by
  obtain ⟨hlow, hhigh⟩ := Bool.and_eq_true_iff.mp h
  exact ⟨UInt8.le_iff_toNat_le.mp (of_decide_eq_true hlow), UInt8.le_iff_toNat_le.mp (of_decide_eq_true hhigh)⟩

theorem ne_of_isdigit {d : UInt8} (hd : isdigit d = false) (hc : isdigit c = true) : c ≠ d := by
  rintro rfl
  rw [hc] at hd
  cases hd

theorem isspace_of_isdigit (h : isdigit c = true) : isspace c = false := by
  have hlow := (toNat_of_isdigit h).1
  have hblank : c ≠ 32 := ne_of_isdigit (by decide) h
  have htab : ¬c ≤ 13 := fun hle => by
    have hnat := UInt8.le_iff_toNat_le.mp hle
    have h13 : (13 : UInt8).toNat = 13 := rfl
    omega
  simp [isspace, hblank, htab]

theorem foldl_digits_lt (hdigits : ∀ c ∈ digits, isdigit c = true) (n : Nat) :
    digits.foldl (fun n c => n * 10 + (c.toNat - 48)) n < (n + 1) * 10 ^ digits.length := by
  induction digits generalizing n with
  | nil => simp
  | cons c digits ih =>
    have hle := (toNat_of_isdigit (hdigits c List.mem_cons_self)).2
    have hnext : n * 10 + (c.toNat - 48) + 1 ≤ (n + 1) * 10 := by omega
    rw [List.foldl_cons, List.length_cons, Nat.pow_succ', ← Nat.mul_assoc]
    have hrest := ih (fun d hd => hdigits d (List.mem_cons_of_mem c hd)) (n * 10 + (c.toNat - 48))
    exact Nat.lt_of_lt_of_le hrest (Nat.mul_le_mul_right _ hnext)

theorem number_lt (hdigits : ∀ c ∈ digits, isdigit c = true) : number digits < 10 ^ digits.length := by
  simpa [number] using foldl_digits_lt hdigits 0

/-- A text of digits alone is read as its number, if an `int` holds that. -/
theorem toInt_atoi_digits (hdigits : ∀ c ∈ digits, isdigit c = true) (hfits : number digits ≤ 2147483647) :
    (atoi digits).toInt = number digits := by
  have hspace : digits.dropWhile isspace = digits := by
    cases digits with
    | nil => rfl
    | cons c digits => simp [List.dropWhile, isspace_of_isdigit (hdigits c List.mem_cons_self)]
  have hsign (d : UInt8) (hd : isdigit d = false) : digits.head? ≠ some d := fun hhead =>
    ne_of_isdigit hd (hdigits d (List.mem_of_head? hhead)) rfl
  have htake : digits.takeWhile isdigit = digits := List.takeWhile_eq_self_iff.mpr hdigits
  have hvalue : max LONG_MIN (min LONG_MAX (number digits : Int)) = number digits := by
    rw [LONG_MIN, LONG_MAX]
    omega
  have hread : atoi digits = (Int64.ofInt (number digits)).toInt32 := by
    simp [atoi, hspace, hsign 45 (by decide), hsign 43 (by decide), htake, hvalue]
  have hlong : (Int64.ofInt (number digits)).toInt = number digits := by
    have hsize : Int64.size = 18446744073709551616 := rfl
    rw [Int64.toInt_ofInt]
    exact Int.bmod_eq_of_le (by omega) (by omega)
  rw [hread, Int64.toInt_toInt32, hlong]
  exact Int.bmod_eq_of_le (by omega) (by omega)

end Numbers

end clib.token
