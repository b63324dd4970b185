import Mathlib.Data.List.Basic
import CSystems.Lib.CString

open clib.string

namespace clib.format

/-- What the conversion `%d` prints. -/
def decimal (n : Int) : List Char :=
  if n < 0 then '-' :: Nat.toDigits 10 n.natAbs else Nat.toDigits 10 n.natAbs

/-- What `snprintf` leaves in a buffer of `size` bytes, up to the terminator. -/
def snprintf (size : Nat) (text : List Char) : List UInt8 := (text.map Char.toUInt8).take (size - 1)

/-- What `sprintf` leaves in a buffer of `size` bytes; `none` if it writes behind
the buffer. -/
def sprintf (size : Nat) (text : List Char) : Option (List UInt8) :=
  if text.length < size then some (text.map Char.toUInt8) else none

/-- The characters of a C string literal: ASCII, and not NUL. -/
def IsText (text : List Char) : Prop := ∀ c ∈ text, 0 < c.toNat ∧ c.toNat < 128

theorem IsText.append {s t : List Char} (hs : IsText s) (ht : IsText t) : IsText (s ++ t) := by
  intro c hc
  rcases List.mem_append.mp hc with hc | hc
  · exact hs c hc
  · exact ht c hc

private theorem digit_text {c : Char} (hc : c.isDigit = true) : 0 < c.toNat ∧ c.toNat < 128 := by
  simp only [Char.isDigit, ge_iff_le, Bool.and_eq_true, decide_eq_true_eq, UInt32.le_iff_toNat_le] at hc
  obtain ⟨hlow, hhigh⟩ := hc
  have hlow : 48 ≤ c.val.toNat := hlow
  have hhigh : c.val.toNat ≤ 57 := hhigh
  have hval : c.toNat = c.val.toNat := rfl
  omega

private theorem isDigit_of_mem_decimal_digits {n : Nat} {c : Char} (hc : c ∈ Nat.toDigits 10 n) : c.isDigit = true :=
  Nat.isDigit_of_mem_toDigits (by decide) (by decide) hc

/-- An integer prints as digits, after a sign if it is negative. -/
theorem mem_decimal {n : Int} {c : Char} (hc : c ∈ decimal n) : c = '-' ∨ c.isDigit = true := by
  unfold decimal at hc
  split at hc
  · obtain rfl | hc := List.mem_cons.mp hc
    · exact Or.inl rfl
    · exact Or.inr (isDigit_of_mem_decimal_digits hc)
  · exact Or.inr (isDigit_of_mem_decimal_digits hc)

theorem decimal_isText (n : Int) : IsText (decimal n) := by
  have hdigits : IsText (Nat.toDigits 10 n.natAbs) := fun c hc => digit_text (isDigit_of_mem_decimal_digits hc)
  unfold decimal
  split
  · intro c hc
    rcases List.mem_cons.mp hc with rfl | hc
    · decide
    · exact hdigits c hc
  · exact hdigits

private theorem toDigits_inj {m n : Nat} (h : Nat.toDigits 10 m = Nat.toDigits 10 n) : m = n := by
  rw [← Nat.ofDigitChars_toDigits (b := 10) (n := m) (by decide) (by decide), h,
    Nat.ofDigitChars_toDigits (by decide) (by decide)]

private theorem minus_notMem_toDigits (n : Nat) : '-' ∉ Nat.toDigits 10 n := by
  intro hmem
  have hdigit := isDigit_of_mem_decimal_digits hmem
  revert hdigit
  decide

/-- Different integers print differently. -/
theorem decimal_inj {m n : Int} (h : decimal m = decimal n) : m = n := by
  unfold decimal at h
  split at h
  · split at h
    · have habs := toDigits_inj (List.cons.inj h).2
      omega
    · exact absurd (h ▸ List.mem_cons_self) (minus_notMem_toDigits _)
  · split at h
    · exact absurd (h ▸ List.mem_cons_self) (minus_notMem_toDigits _)
    · have habs := toDigits_inj h
      omega

/-- A 32-bit integer prints as at most eleven characters. -/
theorem decimal_length_le (n : Int32) : (decimal n.toInt).length ≤ 11 := by
  have hlow := n.le_toInt
  have hhigh := n.toInt_lt
  have hdigits : (Nat.toDigits 10 n.toInt.natAbs).length ≤ 10 := by
    rw [Nat.length_toDigits_le_iff (by decide) (by decide)]
    omega
  unfold decimal
  split
  · rw [List.length_cons]
    omega
  · omega

private theorem toNat_toUInt8 (c : Char) : c.toUInt8.toNat = c.toNat % 256 := UInt32.toNat_toUInt8 c.val

/-- The bytes of a printed integer. -/
theorem mem_decimal_bytes {n : Int} {c : UInt8} (hc : c ∈ (decimal n).map Char.toUInt8) :
    45 ≤ c.toNat ∧ c.toNat ≤ 57 := by
  obtain ⟨d, hd, rfl⟩ := List.mem_map.mp hc
  have hbyte := toNat_toUInt8 d
  obtain rfl | hdigit := mem_decimal hd
  · decide
  · simp only [Char.isDigit, ge_iff_le, Bool.and_eq_true, decide_eq_true_eq, UInt32.le_iff_toNat_le] at hdigit
    obtain ⟨hlow, hhigh⟩ := hdigit
    have hlow : 48 ≤ d.val.toNat := hlow
    have hhigh : d.val.toNat ≤ 57 := hhigh
    have hval : d.toNat = d.val.toNat := rfl
    omega

private theorem toUInt8_inj {c d : Char} (hc : c.toNat < 128) (hd : d.toNat < 128)
    (h : c.toUInt8 = d.toUInt8) : c = d := by
  have hnat : c.toNat % 256 = d.toNat % 256 := by rw [← toNat_toUInt8, ← toNat_toUInt8, h]
  apply Char.ext
  apply UInt32.toNat_inj.mp
  have hcv : c.toNat = c.val.toNat := rfl
  have hdv : d.toNat = d.val.toNat := rfl
  omega

/-- Texts of the same bytes are the same. -/
theorem map_toUInt8_inj {s t : List Char} (hs : IsText s) (ht : IsText t)
    (h : s.map Char.toUInt8 = t.map Char.toUInt8) : s = t := by
  induction s generalizing t with
  | nil =>
    cases t with
    | nil => rfl
    | cons d t => cases h
  | cons c s ih =>
    cases t with
    | nil => cases h
    | cons d t =>
      obtain ⟨hcd, hst⟩ := List.cons.inj h
      have hhead := toUInt8_inj (hs c (by simp)).2 (ht d (by simp)).2 hcd
      have htail := ih (fun c hc => hs c (by simp [hc])) (fun d hd => ht d (by simp [hd])) hst
      rw [hhead, htail]

private theorem toUInt8_ne_zero {c : Char} (hc : 0 < c.toNat ∧ c.toNat < 128) : c.toUInt8 ≠ 0 := by
  intro h
  have hnat : c.toNat % 256 = 0 := by
    rw [← toNat_toUInt8, h]
    rfl
  omega

/-- A text is a C string. -/
theorem IsText.zero_notMem {text : List Char} (h : IsText text) : 0 ∉ text.map Char.toUInt8 := by
  intro hzero
  obtain ⟨c, hc, heq⟩ := List.mem_map.mp hzero
  exact toUInt8_ne_zero (h c hc) heq

/-- Texts that fit their buffer give different C strings when they differ. -/
theorem snprintf_inj {size : Nat} {s t : List Char} (hs : IsText s) (ht : IsText t) (hsize : s.length < size)
    (htsize : t.length < size) (h : c_str (snprintf size s) = c_str (snprintf size t)) : s = t := by
  have hfull {u : List Char} (hu : IsText u) (hlt : u.length < size) :
      c_str (snprintf size u) = u.map Char.toUInt8 := by
    have htake : (u.map Char.toUInt8).take (size - 1) = u.map Char.toUInt8 :=
      List.take_of_length_le (by rw [List.length_map]; omega)
    rw [snprintf, htake, c_str_eq_self hu.zero_notMem]
  rw [hfull hs hsize, hfull ht htsize] at h
  exact map_toUInt8_inj hs ht h

end clib.format
