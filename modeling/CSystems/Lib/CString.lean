import Mathlib.Data.List.Basic
import Mathlib.Data.List.TakeWhile

namespace clib.ctype

def ascii (chars : List Char) : List UInt8 := chars.map Char.toUInt8

/-- `isspace` in the C locale. -/
def isspace (c : UInt8) : Bool := c = 32 || (9 ≤ c && c ≤ 13)

end clib.ctype

namespace clib.string

/-- The C string stored at the start of a byte buffer: everything before the
first NUL. A buffer without a NUL is read to its end. -/
def c_str (bytes : List UInt8) : List UInt8 := bytes.takeWhile (· ≠ 0)

/-- `strcmp`, comparing unsigned bytes up to the first difference or the
common terminator. The end of a buffer terminates its string. -/
def strcmp : List UInt8 → List UInt8 → Int
  | [], [] => 0
  | [], b :: _ => -(b.toNat : Int)
  | a :: _, [] => a.toNat
  | a :: s, b :: t => if a = b then (if a = 0 then 0 else strcmp s t) else (a.toNat : Int) - b.toNat

/-- `strncpy` into a fixed buffer: at most `count` characters are copied, the
rest of the first `count` bytes is zero-filled, later bytes are kept. -/
def strncpy {n : Nat} (dest : Vector UInt8 n) (src : List UInt8) (count : Nat) : Vector UInt8 n :=
  Vector.ofFn fun i => if i.val < count then (c_str src).getD i 0 else dest[i]

/-- `strcat` into a buffer of `size` bytes; `none` if it writes behind the buffer. -/
def strcat (size : Nat) (dest src : List UInt8) : Option (List UInt8) :=
  if (c_str dest).length + (c_str src).length < size then some (c_str dest ++ c_str src) else none

/-- The value of a (signed) `char` after conversion to `unsigned int`. -/
def char_to_unsigned (b : UInt8) : UInt32 := b.toInt8.toInt32.toUInt32

theorem c_str_nil : c_str [] = [] := rfl

theorem c_str_cons_zero (bytes : List UInt8) : c_str (0 :: bytes) = [] := by simp [c_str]

theorem c_str_cons_of_ne {b : UInt8} (hb : b ≠ 0) (bytes : List UInt8) :
    c_str (b :: bytes) = b :: c_str bytes := by simp [c_str, hb]

theorem ne_zero_of_mem_c_str {b : UInt8} {bytes : List UInt8} (hmem : b ∈ c_str bytes) : b ≠ 0 := by
  simpa using List.mem_takeWhile_imp hmem

/-- A string that is shorter than its buffer ends in a zero. -/
theorem getElem?_length_c_str {bytes : List UInt8} (h : (c_str bytes).length < bytes.length) :
    bytes[(c_str bytes).length]? = some 0 := by
  induction bytes with
  | nil => simp at h
  | cons b bytes ih =>
    by_cases hb : b = 0
    · rw [hb, c_str_cons_zero]
      rfl
    · rw [c_str_cons_of_ne hb, List.length_cons, List.length_cons] at h
      rw [c_str_cons_of_ne hb, List.length_cons, List.getElem?_cons_succ]
      exact ih (Nat.lt_of_succ_lt_succ h)

theorem c_str_c_str (bytes : List UInt8) : c_str (c_str bytes) = c_str bytes := by
  unfold c_str
  rw [List.takeWhile_takeWhile]
  simp

/-- Bytes without a NUL are a string to their end. -/
theorem c_str_eq_self {bytes : List UInt8} (h : 0 ∉ bytes) : c_str bytes = bytes := by
  apply List.takeWhile_eq_self_iff.mpr
  rintro b hb
  have hne : b ≠ 0 := fun heq => h (heq ▸ hb)
  simpa using hne

theorem strcat_eq {size : Nat} {dest src : List UInt8} (hdest : 0 ∉ dest) (hsrc : 0 ∉ src)
    (hfits : dest.length + src.length < size) : strcat size dest src = some (dest ++ src) := by
  rw [strcat, c_str_eq_self hdest, c_str_eq_self hsrc, if_pos hfits]

private theorem toNat_pos {b : UInt8} (hb : b ≠ 0) : 0 < b.toNat := by
  have hnat : b.toNat ≠ 0 := fun h => hb (UInt8.toNat_inj.mp h)
  omega

/-- `strcmp` answers zero exactly on buffers holding the same C string. -/
theorem strcmp_eq_zero_iff (s t : List UInt8) : strcmp s t = 0 ↔ c_str s = c_str t := by
  induction s generalizing t with
  | nil =>
    cases t with
    | nil => simp [strcmp]
    | cons b t =>
      by_cases hb : b = 0
      · simp [strcmp, hb, c_str_cons_zero, c_str_nil]
      · have hpos := toNat_pos hb
        simp [strcmp, c_str_cons_of_ne hb, c_str_nil]
        omega
  | cons a s ih =>
    cases t with
    | nil =>
      by_cases ha : a = 0
      · simp [strcmp, ha, c_str_cons_zero, c_str_nil]
      · have hpos := toNat_pos ha
        simp [strcmp, c_str_cons_of_ne ha, c_str_nil]
        omega
    | cons b t =>
      by_cases hab : a = b
      · subst b
        by_cases ha : a = 0
        · simp [strcmp, ha, c_str_cons_zero]
        · simp [strcmp, ha, c_str_cons_of_ne ha, ih]
      · have hnat : a.toNat ≠ b.toNat := fun h => hab (UInt8.toNat_inj.mp h)
        have hstr : c_str (a :: s) ≠ c_str (b :: t) := by
          by_cases ha : a = 0 <;> by_cases hb : b = 0
          · exact absurd (ha.trans hb.symm) hab
          · simp [ha, c_str_cons_zero, c_str_cons_of_ne hb]
          · simp [hb, c_str_cons_zero, c_str_cons_of_ne ha]
          · simp [c_str_cons_of_ne ha, c_str_cons_of_ne hb, hab]
        simp only [strcmp, if_neg hab, hstr, iff_false]
        omega

/-- A terminated buffer whose bytes after the string are all NUL. -/
def ZeroPadded (bytes : List UInt8) : Prop :=
  (c_str bytes).length < bytes.length ∧
    bytes = c_str bytes ++ List.replicate (bytes.length - (c_str bytes).length) 0

instance (bytes : List UInt8) : Decidable (ZeroPadded bytes) := inferInstanceAs (Decidable (_ ∧ _))

/-- Equal-length zero-padded buffers are determined by their strings. -/
theorem ZeroPadded.eq_of_c_str_eq {s t : List UInt8} (hs : ZeroPadded s) (ht : ZeroPadded t)
    (hlength : s.length = t.length) (hstr : c_str s = c_str t) : s = t := by
  rw [hs.2, ht.2, hstr, hlength]

/-- A string with its terminator is read back. -/
theorem c_str_append_replicate {str : List UInt8} {count : Nat} (hcount : 0 < count) (hstr : ∀ b ∈ str, b ≠ 0) :
    c_str (str ++ List.replicate count 0) = str := by
  obtain ⟨k, rfl⟩ : ∃ k, count = k + 1 := ⟨count - 1, by omega⟩
  rw [List.replicate_succ]
  induction str with
  | nil => exact c_str_cons_zero _
  | cons b str ih =>
    rw [List.cons_append, c_str_cons_of_ne (hstr b (by simp))]
    rw [ih (fun b' hb' => hstr b' (by simp [hb']))]

/-- A terminated buffer that is NUL from its first NUL on is zero-padded. -/
theorem zeroPadded_of_append {str : List UInt8} {count : Nat} (hcount : 0 < count)
    (hstr : ∀ b ∈ str, b ≠ 0) : ZeroPadded (str ++ List.replicate count 0) := by
  have hc := c_str_append_replicate hcount hstr
  constructor
  · rw [hc]
    simp only [List.length_append, List.length_replicate]
    omega
  · rw [hc]
    simp

/-- The bytes of a buffer after a copy with room for the terminator and the store of
that terminator. -/
theorem toList_strncpy_set {n : Nat} (dest : Vector UInt8 (n + 1)) (src : List UInt8) :
    ((strncpy dest src n).set n 0).toList =
      (c_str src).take n ++ List.replicate (n + 1 - ((c_str src).take n).length) 0 := by
  apply List.ext_getElem
  · rw [Vector.length_toList, List.length_append, List.length_replicate, List.length_take]
    omega
  · intro i hi hi'
    simp only [Vector.length_toList] at hi
    simp only [Vector.getElem_toList, strncpy, Vector.getElem_set, Vector.getElem_ofFn,
      List.getElem_append, List.length_take, List.getElem_take, List.getElem_replicate]
    by_cases hn : n = i
    · rw [if_pos hn, dif_neg (by omega)]
    · have hin : i < n := by omega
      rw [if_neg hn, if_pos hin]
      by_cases hlt : i < (c_str src).length
      · rw [dif_pos (by omega)]
        simp [hlt]
      · rw [dif_neg (by omega)]
        simp [hlt]

/-- Copying into a buffer with room for the terminator and then storing that
terminator leaves a zero-padded buffer. -/
theorem zeroPadded_strncpy_set {n : Nat} (dest : Vector UInt8 (n + 1)) (src : List UInt8) :
    ZeroPadded ((strncpy dest src n).set n 0).toList := by
  rw [toList_strncpy_set]
  apply zeroPadded_of_append
  · simp only [List.length_take]
    omega
  · intro b hb
    exact ne_zero_of_mem_c_str (List.mem_of_mem_take hb)

/-- Such a copy holds as much of the string as there is room for. -/
theorem c_str_strncpy_set {n : Nat} (dest : Vector UInt8 (n + 1)) (src : List UInt8) :
    c_str ((strncpy dest src n).set n 0).toList = (c_str src).take n := by
  rw [toList_strncpy_set]
  apply c_str_append_replicate
  · rw [List.length_take]
    omega
  · intro b hb
    exact ne_zero_of_mem_c_str (List.mem_of_mem_take hb)

/-- Where the last byte is a terminator before the copy, storing one changes nothing. -/
theorem strncpy_set_last {n : Nat} {dest : Vector UInt8 (n + 1)} (hlast : dest[n] = 0) (src : List UInt8) :
    (strncpy dest src n).set n 0 = strncpy dest src n := by
  apply Vector.ext
  intro i hi
  rw [Vector.getElem_set]
  split
  case isTrue heq =>
    subst heq
    simp [strncpy, hlast]
  case isFalse => rfl

/-- A C string in a `char` array of `n` bytes. -/
structure CStr (n : Nat) where
  chars : List UInt8
  length_lt : chars.length < n
  no_nul : 0 ∉ chars
  deriving DecidableEq

theorem CStr.eq_of_chars {n : Nat} {s t : CStr n} (h : s.chars = t.chars) : s = t := by
  cases s
  cases t
  congr

end clib.string
