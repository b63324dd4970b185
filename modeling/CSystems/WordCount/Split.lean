import Mathlib.Algebra.Order.BigOperators.Group.List
import Mathlib.Algebra.Order.Group.Nat
import Mathlib.Algebra.Order.Ring.Int
import CSystems.Lib.CString
import CSystems.Lib.Text

open clib.ctype clib.words

namespace csystems.word_count

def MAX_THREADS : Nat := 4

/-- The part of the buffer that a thread counts. -/
structure ThreadData where
  start : Nat
  end_ : Nat
  deriving DecidableEq, Repr

/-- The locals of the loop of `count_words`. -/
structure scan_t where
  count : Nat
  in_word : Bool
  deriving DecidableEq, Repr

/-- The body of the loop of `count_words`. -/
def scan (s : scan_t) (c : UInt8) : scan_t :=
  if isspace c then { s with in_word := false }
  else if s.in_word then s
  else { count := s.count + 1, in_word := true }

/-- The count of a thread. The loop goes over the bytes from `start` to `end`. -/
def count_words (buffer : List UInt8) (data : ThreadData) : Nat :=
  (((buffer.drop data.start).take (data.end_ - data.start)).foldl scan { count := 0, in_word := false }).count

/-- The loop that moves the start of a part to the next white space. -/
def skip_word (buffer : List UInt8) (start : Nat) : Nat :=
  start + ((buffer.drop start).takeWhile fun c => !isspace c).length

/-- The part that `split_and_count` gives to thread `i`. -/
def thread_data (buffer : List UInt8) (i : Nat) : ThreadData :=
  let filesize := buffer.length
  let chunk_size := filesize / MAX_THREADS
  { start := if i > 0 then skip_word buffer (i * chunk_size) else i * chunk_size
    end_ := if i = MAX_THREADS - 1 then filesize else (i + 1) * chunk_size }

/-- The total that `split_and_count` prints. -/
def split_and_count (buffer : List UInt8) : Nat :=
  ((List.range MAX_THREADS).map fun i => count_words buffer (thread_data buffer i)).sum

/-- A word starts at a position of the buffer. -/
def WordStart (buffer : List UInt8) (p : Nat) : Prop :=
  (∃ c, buffer[p]? = some c ∧ isspace c = false) ∧ (p = 0 ∨ ∃ c, buffer[p - 1]? = some c ∧ isspace c = true)

variable {buffer : List UInt8}

theorem scan_foldl (s : scan_t) (bytes : List UInt8) :
    (bytes.foldl scan s).count = s.count + words_from isspace s.in_word bytes := by
  induction bytes generalizing s with
  | nil => rfl
  | cons c bytes ih =>
    rw [List.foldl_cons, ih]
    cases hc : isspace c with
    | true => simp [scan, words_from, hc]
    | false =>
      cases hin : s.in_word with
      | true => simp [scan, words_from, hc, hin]
      | false =>
        simp [scan, words_from, hc, hin]
        omega

theorem count_words_eq (buffer : List UInt8) (data : ThreadData) :
    count_words buffer data =
      words_from isspace false ((buffer.drop data.start).take (data.end_ - data.start)) := by
  rw [count_words, scan_foldl, Nat.zero_add]

section Chunks

variable (buffer)

/-- Where part `i` would start without the skip, and the part before it ends. -/
def boundary (i : Nat) : Nat :=
  if i = MAX_THREADS then buffer.length else i * (buffer.length / MAX_THREADS)

/-- The bytes between two boundaries. -/
def chunk (i : Nat) : List UInt8 :=
  (buffer.drop (boundary buffer i)).take (boundary buffer (i + 1) - boundary buffer i)

/-- The buffer before chunk `i` ends in a word. -/
def cut (i : Nat) : Bool := ends_in_word isspace false (buffer.take (boundary buffer i))

/-- The words that thread `i` misses: the one that starts at the boundary. -/
def missed (i : Nat) : Nat := if 0 < i ∧ starts_word isspace (cut buffer i) (chunk buffer i) = true then 1 else 0

@[simp] theorem boundary_zero : boundary buffer 0 = 0 := by
  rw [boundary, if_neg (by decide), Nat.zero_mul]

theorem boundary_le_succ {i : Nat} (hi : i < MAX_THREADS) : boundary buffer i ≤ boundary buffer (i + 1) := by
  have hmax : MAX_THREADS = 4 := rfl
  unfold boundary
  rw [hmax] at hi ⊢
  rw [if_neg (by omega)]
  split
  · have hle : i * (buffer.length / 4) ≤ 4 * (buffer.length / 4) := Nat.mul_le_mul_right _ (by omega)
    omega
  · exact Nat.mul_le_mul_right _ (by omega)

theorem take_boundary_succ {i : Nat} (hi : i < MAX_THREADS) :
    buffer.take (boundary buffer (i + 1)) = buffer.take (boundary buffer i) ++ chunk buffer i := by
  have hle := boundary_le_succ buffer hi
  rw [chunk, ← List.take_add]
  congr 1
  omega

/-- A thread counts the words of its chunk, but for the one it misses. -/
theorem count_words_chunk {i : Nat} (hi : i < MAX_THREADS) :
    count_words buffer (thread_data buffer i) + missed buffer i =
      words_from isspace (cut buffer i) (chunk buffer i) := by
  have hmax : MAX_THREADS = 4 := rfl
  have hstart : boundary buffer i = i * (buffer.length / MAX_THREADS) := if_neg (by omega)
  have hend : (thread_data buffer i).end_ = boundary buffer (i + 1) := by
    unfold thread_data boundary
    rw [hmax]
    dsimp only
    by_cases hlast : i = 3
    · rw [if_pos (by omega), if_pos (by omega)]
    · rw [if_neg (by omega), if_neg (by omega)]
  rw [count_words_eq, hend]
  by_cases hpos : 0 < i
  · have hskip : (thread_data buffer i).start = skip_word buffer (boundary buffer i) := by
      rw [hstart]
      exact if_pos hpos
    rw [words_from_skip (cut buffer i), missed, hskip, skip_word, ← List.drop_drop, ← Nat.sub_sub]
    rw [chunk, dropWhile_take]
    simp only [hpos, true_and]
  · obtain rfl : i = 0 := by omega
    have hzero : (thread_data buffer 0).start = boundary buffer 0 := by simp [thread_data]
    have hcut : cut buffer 0 = false := by simp [cut, ends_in_word]
    rw [hzero, hcut, missed, if_neg (by omega)]
    rfl

/-- The threads up to `k` count the words before the boundary, but for those missed. -/
theorem sum_count_words {k : Nat} (hk : k ≤ MAX_THREADS) :
    ((List.range k).map fun i => count_words buffer (thread_data buffer i)).sum +
      ((List.range k).map (missed buffer)).sum = words_from isspace false (buffer.take (boundary buffer k)) := by
  induction k with
  | zero => simp [words_from]
  | succ k ih =>
    have hprevious := ih (by omega)
    have hchunk := count_words_chunk buffer (i := k) (by omega)
    rw [take_boundary_succ buffer (by omega), words_from_append, ← hprevious]
    simp only [List.range_succ, List.map_append, List.sum_append, List.map_singleton, List.sum_singleton]
    unfold cut at hchunk
    omega

/-- The buffer before a position ends in a word unless a space stands right before. -/
theorem ends_in_word_take {p : Nat} (hp : p ≤ buffer.length) :
    ends_in_word isspace false (buffer.take p) = false ↔
      p = 0 ∨ ∃ c, buffer[p - 1]? = some c ∧ isspace c = true := by
  cases p with
  | zero => simp [ends_in_word]
  | succ p =>
    rw [List.take_succ_eq_append_getElem hp, ends_in_word_concat]
    simp [List.getElem?_eq_getElem (show p < buffer.length from hp)]

theorem boundary_le_length {i : Nat} (hi : i < MAX_THREADS) : boundary buffer i ≤ buffer.length := by
  have hmax : MAX_THREADS = 4 := rfl
  rw [boundary, if_neg (by omega), hmax]
  have hle : i * (buffer.length / 4) ≤ 4 * (buffer.length / 4) := Nat.mul_le_mul_right _ (by omega)
  omega

/-- A thread misses a word exactly if one starts at the boundary of its chunk. -/
theorem missed_eq_zero_iff {i : Nat} (hpos : 0 < i) (hi : i < MAX_THREADS) :
    missed buffer i = 0 ↔ ¬ (WordStart buffer (boundary buffer i) ∧ boundary buffer i < boundary buffer (i + 1)) := by
  have hcut := ends_in_word_take buffer (boundary_le_length buffer hi)
  have hhead : (chunk buffer i).head? =
      if boundary buffer (i + 1) - boundary buffer i = 0 then none else buffer[boundary buffer i]? := by
    rw [chunk, List.head?_take, List.head?_drop]
  have hstarts : starts_word isspace (cut buffer i) (chunk buffer i) = true ↔
      WordStart buffer (boundary buffer i) ∧ boundary buffer i < boundary buffer (i + 1) := by
    rw [WordStart, ← hcut, starts_word, hhead, cut, Bool.and_eq_true, Bool.not_eq_true', Option.any_eq_true]
    constructor
    · rintro ⟨hends, c, hc, hspace⟩
      split at hc
      · cases hc
      · exact ⟨⟨⟨c, hc, by simpa using hspace⟩, hends⟩, by omega⟩
    · rintro ⟨⟨⟨c, hc, hspace⟩, hends⟩, hlt⟩
      rw [if_neg (by omega)]
      exact ⟨hends, c, hc, by simpa using hspace⟩
  rw [missed, ← hstarts]
  simp [hpos]

end Chunks

/-- Each word is counted by one thread, exactly if none starts at the boundary between
the parts of two threads. -/
theorem split_and_count_iff (buffer : List UInt8) :
    split_and_count buffer = count_words buffer ⟨0, buffer.length⟩ ↔
      ∀ i, 0 < i → i < MAX_THREADS → ¬ WordStart buffer (i * (buffer.length / MAX_THREADS)) := by
  have hmax : MAX_THREADS = 4 := rfl
  have htotal := sum_count_words buffer (Nat.le_refl MAX_THREADS)
  have hwhole : boundary buffer MAX_THREADS = buffer.length := if_pos rfl
  have hboundary (i : Nat) (hi : i < MAX_THREADS) : boundary buffer i = i * (buffer.length / MAX_THREADS) :=
    if_neg (by omega)
  have hfirst : missed buffer 0 = 0 := if_neg (by omega)
  rw [hwhole, List.take_length] at htotal
  have hnone : split_and_count buffer = count_words buffer ⟨0, buffer.length⟩ ↔
      ∀ i < MAX_THREADS, missed buffer i = 0 := by
    rw [split_and_count, count_words_eq, List.drop_zero, Nat.sub_zero, List.take_length, ← htotal]
    rw [Nat.left_eq_add, List.sum_eq_zero_iff, List.forall_mem_map]
    simp only [List.mem_range]
  rw [hnone]
  constructor
  · intro hall i hpos hi hword
    -- in a buffer shorter than the number of threads, only the last one has a part
    by_cases hempty : buffer.length / MAX_THREADS = 0
    · rw [hempty, Nat.mul_zero] at hword
      have hlast := (missed_eq_zero_iff buffer (i := 3) (by omega) (by decide)).mp (hall 3 (by decide))
      obtain ⟨⟨c, hc, -⟩, -⟩ := id hword
      have hlength := (List.getElem?_eq_some_iff.mp hc).1
      rw [hboundary 3 (by decide), hempty, Nat.mul_zero] at hlast
      exact hlast ⟨hword, hwhole ▸ hlength⟩
    · have hmissed := (missed_eq_zero_iff buffer hpos hi).mp (hall i hi)
      have hlt : boundary buffer i < boundary buffer (i + 1) := by
        rw [hboundary i hi, boundary, hmax] at *
        split
        · have hle : i * (buffer.length / 4) ≤ 3 * (buffer.length / 4) := Nat.mul_le_mul_right _ (by omega)
          omega
        · rw [Nat.succ_mul]
          omega
      rw [hboundary i hi] at hmissed hlt
      exact hmissed ⟨hword, hlt⟩
  · intro hall i hi
    by_cases hpos : 0 < i
    · rw [missed_eq_zero_iff buffer hpos hi, hboundary i hi]
      exact fun hboth => hall i hpos hi hboth.1
    · obtain rfl : i = 0 := by omega
      exact hfirst

/-- `"ab cd ef"`: the third word starts at the boundary before the last part. -/
def lost_text : List UInt8 := [97, 98, 32, 99, 100, 32, 101, 102]

theorem split_and_count_loses :
    split_and_count lost_text ≠ count_words lost_text ⟨0, lost_text.length⟩ := by
  decide

end csystems.word_count
