import Mathlib.Data.List.Nodup
import Mathlib.Data.List.Perm.Basic
import CSystems.Lib.CArray
import CSystems.Lib.Bytes
import CSystems.Lib.Format
import CSystems.Lib.Tagged

open clib.array clib.cint clib.string clib.format clib.tag

namespace csystems.group_anagrams

/-- The loop over the characters from index `i` on; `none` if an access is out of
bounds or an `int` overflows. -/
def count_letters : List UInt8 → Int → List Int → Option (List Int)
  | [], _, count => some count
  | c :: str, i, count =>
    if c.toInt8.toInt < 97 then none
    else do
      let n ← count[(c.toInt8.toInt - 97).toNat]?
      let n ← int (n + 1)
      let i ← int (i + 1)
      count_letters str i (count.set (c.toInt8.toInt - 97).toNat n)

/-- The body of the loop over the letters; `none` if `buffer` or `key` overflows. -/
def append_count (count : List Int) (i : Nat) (key : List UInt8) : Option (List UInt8) := do
  let n ← count[i]?
  if 0 < n then do
    let buffer ← sprintf 10 (Char.ofNat ('a'.toNat + i) :: decimal n)
    strcat 100 key buffer
  else some key

def generateKey (str : List UInt8) : Option (List UInt8) := do
  let count ← count_letters (c_str str) 0 (List.replicate 26 0)
  for_up (append_count count) 26 []

def letter (k : Nat) : UInt8 := UInt8.ofNat (97 + k)

/-- The first letters of the alphabet. -/
def letters (n : Nat) : List UInt8 := (List.range n).map letter

def IsLower (c : UInt8) : Prop := 97 ≤ c.toNat ∧ c.toNat ≤ 122

instance (c : UInt8) : Decidable (IsLower c) := inferInstanceAs (Decidable (_ ∧ _))

/-- How often a letter occurs, if it occurs. -/
def occurrences (str : List UInt8) (c : UInt8) : Option (List UInt8) :=
  if str.count c = 0 then none else some ((decimal (str.count c)).map Char.toUInt8)

/-- The letters that occur in a word, each with the number of its occurrences. -/
def letter_key (str : List UInt8) : List UInt8 := tagged (occurrences str) (letters 26)

theorem toNat_letter {k : Nat} (hk : k < 26) : (letter k).toNat = 97 + k := by
  rw [letter, UInt8.toNat_ofNat_of_lt' (by rw [UInt8.size]; omega)]

theorem isLower_letter {k : Nat} (hk : k < 26) : IsLower (letter k) := by
  rw [IsLower, toNat_letter hk]
  omega

theorem letter_inj {j k : Nat} (hj : j < 26) (hk : k < 26) (h : letter j = letter k) : j = k := by
  have hnat := toNat_letter hj
  rw [h, toNat_letter hk] at hnat
  omega

theorem mem_letters_iff {c : UInt8} : c ∈ letters 26 ↔ IsLower c := by
  rw [letters, List.mem_map]
  constructor
  · rintro ⟨k, hk, rfl⟩
    exact isLower_letter (List.mem_range.mp hk)
  · rintro ⟨hlow, hhigh⟩
    have hk : c.toNat - 97 < 26 := by omega
    refine ⟨c.toNat - 97, List.mem_range.mpr hk, UInt8.toNat_inj.mp ?_⟩
    rw [toNat_letter hk]
    omega

theorem nodup_letters : (letters 26).Nodup := by
  refine List.Nodup.map_on ?_ List.nodup_range
  intro j hj k hk h
  exact letter_inj (List.mem_range.mp hj) (List.mem_range.mp hk) h

/-- The counts of the letters as a function of their place in the alphabet. -/
def counts (f : Nat → Int) : List Int := (List.range 26).map f

section Count

variable {f : Nat → Int} {k : Nat}

theorem counts_get (hk : k < 26) : (counts f)[k]? = some (f k) := by
  rw [counts, List.getElem?_map, List.getElem?_range hk, Option.map_some]

theorem length_counts : (counts f).length = 26 := by rw [counts, List.length_map, List.length_range]

theorem counts_set (n : Int) : (counts f).set k n = counts fun j => if j = k then n else f j := by
  apply List.ext_getElem?
  intro j
  by_cases hj : j < 26
  · rw [counts_get hj, List.getElem?_set, length_counts]
    by_cases hkj : k = j
    · rw [if_pos hkj, if_pos (by omega), if_pos hkj.symm]
    · rw [if_neg hkj, if_neg (Ne.symm hkj), counts_get hj]
  · rw [List.getElem?_eq_none (by rw [List.length_set, length_counts]; omega),
      List.getElem?_eq_none (by rw [length_counts]; omega)]

/-- The loop counts the letters, unless the index overflows. -/
theorem count_letters_eq {str : List UInt8} {i : Int} (hstr : ∀ c ∈ str, IsLower c)
    (hi : i ≤ 2147483647) (hf : ∀ k, 0 ≤ f k ∧ f k ≤ i) :
    count_letters str i (counts f) =
      if i + str.length ≤ 2147483647 then some (counts fun k => f k + str.count (letter k)) else none := by
  induction str generalizing i f with
  | nil => 
    rw [count_letters, if_pos (by simpa using hi)]
    simp
  | cons c str ih =>
    obtain ⟨k, hk, rfl⟩ : ∃ k < 26, letter k = c := by
      simpa [letters] using mem_letters_iff.mpr (hstr c List.mem_cons_self)
    have hvalue : (letter k).toInt8.toInt = 97 + k := by
      rw [letter, UInt8.toInt8_ofNat', Int8.toInt_ofNat_of_lt (by omega)]
      omega
    have hindex : ((letter k).toInt8.toInt - 97).toNat = k := by omega
    rw [count_letters, if_neg (by omega), hindex, counts_get hk]
    by_cases hlast : i < 2147483647
    · have hfk := hf k
      have hn : int (f k + 1) = some (f k + 1) := int_eq (by omega) (by omega)
      have hi' : int (i + 1) = some (i + 1) := int_eq (by omega) (by omega)
      have hbound : ∀ j, 0 ≤ (if j = k then f k + 1 else f j) ∧ (if j = k then f k + 1 else f j) ≤ i + 1 := by
        intro j
        have hfj := hf j
        split <;> omega
      simp only [Option.bind_eq_bind, Option.bind_some, hn, hi', counts_set]
      rw [ih (fun d hd => hstr d (List.mem_cons_of_mem _ hd)) (by omega) hbound]
      have hfits : i + 1 + str.length ≤ 2147483647 ↔ i + (letter k :: str).length ≤ 2147483647 := by
        rw [List.length_cons]
        omega
      have hcounts : (counts fun j => (if j = k then f k + 1 else f j) + str.count (letter j)) =
          counts fun j => f j + (letter k :: str).count (letter j) := by
        refine List.map_congr_left fun j hj => ?_
        by_cases hjk : j = k
        · subst hjk
          rw [if_pos rfl, List.count_cons_self]
          omega
        · have hne : letter k ≠ letter j := fun h => hjk (letter_inj (List.mem_range.mp hj) hk h.symm)
          rw [if_neg hjk, List.count_cons_of_ne hne]
      rw [if_congr hfits (congrArg some hcounts) rfl]
    · have hover : int (i + 1) = none := if_neg (by omega)
      rw [if_neg (by rw [List.length_cons]; omega)]
      simp [hover]

end Count

section Key

variable {str : List UInt8} {c : UInt8} {k n : Nat}

theorem letters_succ (n : Nat) : letters (n + 1) = letters n ++ [letter n] := by
  rw [letters, List.range_succ, List.map_append]
  rfl

theorem occurrences_zero (h : str.count c = 0) : occurrences str c = none := if_pos h

theorem occurrences_pos (h : str.count c ≠ 0) :
    occurrences str c = some ((decimal (str.count c)).map Char.toUInt8) := if_neg h

/-- A body of a key is made of digits. -/
theorem digit_of_mem_occurrences {d : UInt8} {b : List UInt8} (hb : occurrences str c = some b) (hd : d ∈ b) :
    45 ≤ d.toNat ∧ d.toNat ≤ 57 := by
  unfold occurrences at hb
  split at hb
  · cases hb
  · obtain rfl := Option.some.inj hb
    exact mem_decimal_bytes hd

theorem zero_notMem_tagged {tags : List UInt8} (htags : ∀ c ∈ tags, IsLower c) :
    0 ∉ tagged (occurrences str) tags := by
  intro hzero
  obtain hmem | ⟨c, -, b, hb, hmem⟩ := mem_tagged hzero
  · exact absurd (htags 0 hmem) (by decide)
  · exact absurd (digit_of_mem_occurrences hb hmem) (by decide)

theorem zero_notMem_letter_key : 0 ∉ letter_key str := zero_notMem_tagged fun _ hc => mem_letters_iff.mp hc

/-- The first letters have no more room in the key than all. -/
theorem length_tagged_le (hn : n ≤ 26) : (tagged (occurrences str) (letters n)).length ≤ (letter_key str).length := by
  obtain ⟨m, hm⟩ : ∃ m, 26 = n + m := ⟨26 - n, by omega⟩
  have hletters : letters 26 = letters n ++ ((List.range m).map (n + ·)).map letter := by
    rw [letters, hm, List.range_add, List.map_append]
    rfl
  rw [letter_key, hletters, tagged_append, List.length_append]
  omega

theorem length_decimal_le_iff (n : Nat) : (decimal n).length ≤ 8 ↔ n < 100000000 := by
  rw [decimal, if_neg (by omega), Int.natAbs_natCast, Nat.length_toDigits_le_iff (by decide) (by decide)]

theorem toUInt8_char : ∀ k < 26, (Char.ofNat ('a'.toNat + k)).toUInt8 = letter k := by decide

/-- The text of a letter with its count fits `buffer` if the count has at most
eight digits. -/
theorem append_count_eq (hk : k < 26) (hsmall : str.count (letter k) < 100000000) {key : List UInt8} (hkey : 0 ∉ key)
    (hfits : key.length + (entry (occurrences str) (letter k)).length < 100) :
    append_count (counts fun k => str.count (letter k)) k key = some (key ++ entry (occurrences str) (letter k)) := by
  rw [append_count, counts_get hk, Option.bind_eq_bind, Option.bind_some]
  by_cases hzero : str.count (letter k) = 0
  · rw [if_neg (by omega), entry_none (occurrences_zero hzero), List.append_nil]
  · have hbody := occurrences_pos hzero
    have hdigits := (length_decimal_le_iff (str.count (letter k))).mpr hsmall
    have hbuffer : sprintf 10 (Char.ofNat ('a'.toNat + k) :: decimal (str.count (letter k))) =
        some (entry (occurrences str) (letter k)) := by
      rw [sprintf, if_pos (by rw [List.length_cons]; omega), List.map_cons, toUInt8_char k hk, entry_some hbody]
    have hnul : 0 ∉ entry (occurrences str) (letter k) := by
      rw [← tagged_singleton]
      exact zero_notMem_tagged (by simpa using isLower_letter hk)
    rw [if_pos (by omega), hbuffer, Option.bind_eq_bind, Option.bind_some, strcat_eq hkey hnul hfits]

theorem append_count_eq_none (hk : k < 26) (hlarge : 100000000 ≤ str.count (letter k)) (key : List UInt8) :
    append_count (counts fun k => str.count (letter k)) k key = none := by
  have hdigits := mt (length_decimal_le_iff (str.count (letter k))).mp (by omega)
  have hbuffer : sprintf 10 (Char.ofNat ('a'.toNat + k) :: decimal (str.count (letter k))) = none := by
    rw [sprintf, if_neg (by rw [List.length_cons]; omega)]
  rw [append_count, counts_get hk, Option.bind_eq_bind, Option.bind_some, if_pos (by omega), hbuffer]
  rfl

/-- The loop over the letters appends their entries. -/
theorem append_counts_eq (hsmall : ∀ k < 26, str.count (letter k) < 100000000) (hfits : (letter_key str).length < 100)
    (hn : n ≤ 26) :
    for_up (append_count (counts fun k => str.count (letter k))) n [] =
      some (tagged (occurrences str) (letters n)) := by
  induction n with
  | zero => rfl
  | succ n ih =>
    have hlength : (tagged (occurrences str) (letters (n + 1))).length ≤ (letter_key str).length := length_tagged_le hn
    have hnul : 0 ∉ tagged (occurrences str) (letters n) := zero_notMem_tagged (by
      intro c hc
      obtain ⟨k, hk, rfl⟩ := List.mem_map.mp hc
      exact isLower_letter (by have hk := List.mem_range.mp hk; omega))
    rw [letters_succ, tagged_append, tagged_singleton, List.length_append] at hlength
    rw [for_up, ih (by omega), letters_succ, tagged_append, tagged_singleton]
    exact append_count_eq hn (hsmall n hn) hnul (by omega)

/-- Counts below `10^8` are at most eleven million for every byte of the entry. -/
theorem count_le_length_entry (hsmall : str.count c < 100000000) :
    str.count c ≤ 11111111 * (entry (occurrences str) c).length := by
  by_cases hzero : str.count c = 0
  · omega
  · have hlength : (decimal (str.count c)).length = (Nat.toDigits 10 (str.count c)).length := by
      rw [decimal, if_neg (by omega), Int.natAbs_natCast]
    have hpos := Nat.length_toDigits_pos (b := 10) (n := str.count c)
    have hlt : str.count c < 10 ^ (decimal (str.count c)).length := by
      rw [hlength, ← Nat.length_toDigits_le_iff (by decide) hpos]
    have hdigits := (length_decimal_le_iff (str.count c)).mpr hsmall
    have hpow : ∀ d < 9, 10 ^ d ≤ 11111111 * (d + 1) + 1 := by decide
    have hle := hpow _ (Nat.lt_succ_of_le hdigits)
    rw [entry_some (occurrences_pos hzero), List.length_cons, List.length_map]
    omega

theorem countP_mem_cons_le (c : UInt8) (tags str : List UInt8) :
    str.countP (· ∈ c :: tags) ≤ str.count c + str.countP (· ∈ tags) := by
  induction str with
  | nil => simp
  | cons d str ih =>
    rw [List.countP_cons, List.countP_cons, List.count_cons]
    have hhead : (if decide (d ∈ c :: tags) = true then 1 else 0) ≤
        (if d == c then 1 else 0) + if decide (d ∈ tags) = true then 1 else 0 := by
      by_cases hd : d = c
      · simp [hd]
      · simp [hd]
    omega

theorem countP_mem_le {tags : List UInt8} (hsmall : ∀ c, str.count c < 100000000) :
    str.countP (· ∈ tags) ≤ 11111111 * (tagged (occurrences str) tags).length := by
  induction tags with
  | nil => simp
  | cons c tags ih =>
    have hcons := countP_mem_cons_le c tags str
    have hentry := count_le_length_entry (hsmall c)
    rw [tagged_cons, List.length_append]
    omega

/-- A word whose key fits has few characters, if it has few of each. -/
theorem length_lt_of_fits (hstr : ∀ c ∈ str, IsLower c) (hsmall : ∀ c, str.count c < 100000000)
    (hfits : (letter_key str).length < 100) : str.length ≤ 2147483647 := by
  have hall : str.countP (· ∈ letters 26) = str.length := by
    refine List.countP_eq_length.mpr fun c hc => ?_
    simpa using mem_letters_iff.mpr (hstr c hc)
  have hle : str.countP (· ∈ letters 26) ≤ 11111111 * (letter_key str).length := countP_mem_le hsmall
  omega

theorem c_str_of_lower (hstr : ∀ c ∈ str, IsLower c) : c_str str = str := by
  apply c_str_eq_self
  intro hzero
  exact absurd (hstr 0 hzero) (by decide)

theorem count_start (hstr : ∀ c ∈ str, IsLower c) :
    count_letters str 0 (List.replicate 26 0) =
      if str.length ≤ 2147483647 then some (counts fun k => str.count (letter k)) else none := by
  have hzero : List.replicate 26 0 = counts fun _ => 0 := rfl
  rw [hzero, count_letters_eq hstr (by omega) (by simp)]
  simp only [Int.zero_add]
  refine if_congr ?_ rfl rfl
  omega

/-- The key of a word, as long as `buffer` holds the text of every count. -/
theorem generateKey_eq (hstr : ∀ c ∈ str, IsLower c) (hfits : (letter_key str).length < 100)
    (hsmall : ∀ c, str.count c < 100000000) : generateKey str = some (letter_key str) := by
  rw [generateKey, c_str_of_lower hstr, count_start hstr, if_pos (length_lt_of_fits hstr hsmall hfits),
    Option.bind_eq_bind, Option.bind_some]
  exact append_counts_eq (fun k _ => hsmall (letter k)) hfits (Nat.le_refl 26)

theorem generateKey_eq_none (hstr : ∀ c ∈ str, IsLower c) (hlarge : 100000000 ≤ str.count c) :
    generateKey str = none := by
  have hmem : c ∈ str := List.count_pos_iff.mp (by omega)
  obtain ⟨k, hk, rfl⟩ : ∃ k < 26, letter k = c := by
    simpa [letters] using mem_letters_iff.mpr (hstr c hmem)
  rw [generateKey, c_str_of_lower hstr, count_start hstr]
  split
  · rw [Option.bind_eq_bind, Option.bind_some]
    exact for_up_eq_none hk (append_count_eq_none hk hlarge) []
  · rfl

theorem occurrences_inj {str str' : List UInt8} (h : occurrences str c = occurrences str' c) :
    str.count c = str'.count c := by
  by_cases hzero : str.count c = 0
  · by_cases hzero' : str'.count c = 0
    · omega
    · rw [occurrences_zero hzero, occurrences_pos hzero'] at h
      cases h
  · by_cases hzero' : str'.count c = 0
    · rw [occurrences_pos hzero, occurrences_zero hzero'] at h
      cases h
    · rw [occurrences_pos hzero, occurrences_pos hzero', Option.some_inj] at h
      exact Int.natCast_inj.mp (decimal_inj (map_toUInt8_inj (decimal_isText _) (decimal_isText _) h))

/-- Words have the same key exactly if they are anagrams of each other. -/
theorem letter_key_eq_iff {str str' : List UInt8} (hstr : ∀ c ∈ str, IsLower c) (hstr' : ∀ c ∈ str', IsLower c) :
    letter_key str = letter_key str' ↔ str.Perm str' := by
  constructor
  · intro h
    have hletters := tagged_inj (p := fun c => decide (c.toNat < 97)) nodup_letters
      (fun c hc => by simpa using (mem_letters_iff.mp hc).1)
      (fun c hc b hb d hd => by have hd := digit_of_mem_occurrences hb hd; simp; omega)
      (fun c hc b hb d hd => by have hd := digit_of_mem_occurrences hb hd; simp; omega) h
    refine List.perm_iff_count.mpr fun c => ?_
    by_cases hc : IsLower c
    · exact occurrences_inj (hletters c (mem_letters_iff.mpr hc))
    · rw [List.count_eq_zero_of_not_mem fun hmem => hc (hstr c hmem),
        List.count_eq_zero_of_not_mem fun hmem => hc (hstr' c hmem)]
  · intro h
    have hsame : occurrences str = occurrences str' := by
      funext c
      rw [occurrences, occurrences, List.perm_iff_count.mp h c]
    rw [letter_key, letter_key, hsame]

end Key

end csystems.group_anagrams
