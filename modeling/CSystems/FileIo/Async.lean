import Mathlib.Data.List.Nodup
import Mathlib.Data.List.Range
import CSystems.Lib.Bytes
import CSystems.Lib.File
import CSystems.Lib.Run

open clib.cint clib.file clib.run

namespace csystems.posix_aio

/-- A number of type `size_t`. -/
def size_t (n : Int) : Nat := (n % 2 ^ 64).toNat

/-- How many writes there are, and of how many bytes; `none` where the product of `int`s
overflows, or the division is by zero. -/
def sizes (total_mb write_size : Int) : Option (Nat × Nat) := do
  let total_kb ← int (total_mb * 1024)
  let total_bytes ← int (total_kb * 1024)
  if size_t write_size = 0 then none
  else some (size_t total_bytes / size_t write_size, size_t write_size)

/-- The sizes of a run. -/
structure config where
  iterations : Nat
  write_size : Nat

def buffer (c : config) : List UInt8 := (List.range c.write_size).map fun i => UInt8.ofNat (i &&& 0xFF)

/-- A request for a write; `aio_return` tells how many bytes were written, or that it
failed. -/
inductive request_t where
  | unused
  | in_progress
  | done (ret : Option Nat)
  deriving DecidableEq

/-- The next statement of `main`. -/
inductive main_t where
  | submit (i : Nat)
  | wait (i : Nat)
  | finished
  /-- A call of `aio_write` failed. -/
  | failed
  deriving DecidableEq

structure state where
  main : main_t
  request : Nat → request_t
  file : List UInt8
  /-- The writes that are reported as failed. -/
  messages : List Nat
  /-- A request has used the memory that was freed. -/
  used_freed : Bool

variable {c : config}

def start : state where
  main := .submit 0
  request _ := .unused
  file := []
  messages := []
  used_freed := false

/-- The offset of a write. The product is one of `size_t`. -/
def offset (c : config) (i : Nat) : Nat := c.write_size * i % 2 ^ 64

/-- The file after a write of the first bytes of the buffer. -/
def put (c : config) (file : List UInt8) (i : Nat) : Option Nat → List UInt8
  | none | some 0 => file
  | some n => write_at file (offset c i) ((buffer c).take n)

/-- What happens next: `main` goes on, with the answer of `aio_write`, or a request is
carried out. -/
inductive action_t where
  | main (accepted : Bool)
  | complete (i : Nat) (ret : Option Nat)

/-- `aio_return` is negative as an `int`. -/
def negative : Option Nat → Bool
  | none => true
  | some n => decide (2 ^ 31 ≤ n % 2 ^ 32)

def main_step (c : config) (s : state) (accepted : Bool) : Option state :=
  match s.main with
  | .submit i =>
    if i < c.iterations then
      if accepted then some { s with main := .submit (i + 1), request := Function.update s.request i .in_progress }
      else some { s with main := .failed }
    else some { s with main := .wait 0 }
  | .wait i =>
    if i < c.iterations then
      match s.request i with
      | .done ret =>
        some { s with main := .wait (i + 1), messages := if negative ret then s.messages ++ [i] else s.messages }
      | _ => none
    else some { s with main := .finished }
  | .finished | .failed => none

/-- `main` has freed the requests and the buffer. -/
def main_t.freed : main_t → Bool
  | .finished | .failed => true
  | _ => false

/-- A request ends with at most the bytes it was for. -/
def complete (c : config) (s : state) (i : Nat) (ret : Option Nat) : Option state :=
  if s.request i = .in_progress ∧ ret.getD 0 ≤ c.write_size then
    if s.main.freed then some { s with used_freed := true, request := Function.update s.request i (.done ret) }
    else some { s with file := put c s.file i ret, request := Function.update s.request i (.done ret) }
  else none

def step (c : config) (s : state) : action_t → Option state
  | .main accepted => main_step c s accepted
  | .complete i ret => complete c s i ret

/-- What a request has returned. -/
def result (s : state) (i : Nat) : Option Nat :=
  match s.request i with
  | .done ret => ret
  | _ => none

/-- The file that the writes make one after the other. -/
def in_sequence (c : config) (results : Nat → Option Nat) (order : List Nat) : List UInt8 :=
  order.foldl (fun file i => put c file i (results i)) []

section Writes

variable {s s' : state} {results : Nat → Option Nat}

@[simp] theorem length_buffer (c : config) : (buffer c).length = c.write_size := by
  rw [buffer, List.length_map, List.length_range]

/-- Requests that do not wrap around. -/
def Fits (c : config) : Prop := c.iterations * c.write_size < 2 ^ 64

theorem offset_eq (hfits : Fits c) {i : Nat} (hi : i < c.iterations) : offset c i = i * c.write_size := by
  have hle : i * c.write_size ≤ c.iterations * c.write_size := Nat.mul_le_mul_right _ (Nat.le_of_lt hi)
  rw [offset, Nat.mul_comm]
  exact Nat.mod_eq_of_lt (Nat.lt_of_le_of_lt hle hfits)

/-- Two of the writes may come in either order. -/
theorem put_comm (hfits : Fits c) {i j : Nat} (hi : i < c.iterations) (hj : j < c.iterations) (hne : i ≠ j)
    (file : List UInt8) (ret ret' : Option Nat) :
    put c (put c file i ret) j ret' = put c (put c file j ret') i ret := by
  have hrange {i j n : Nat} (hi : i < c.iterations) (hj : j < c.iterations) (hlt : i < j) :
      offset c i + ((buffer c).take n).length ≤ offset c j := by
    have hnext : (i + 1) * c.write_size ≤ j * c.write_size := Nat.mul_le_mul_right _ hlt
    rw [offset_eq hfits hi, offset_eq hfits hj, List.length_take, length_buffer]
    rw [Nat.succ_mul] at hnext
    omega
  match ret, ret' with
  | none, _ | some 0, _ => rfl
  | some (n + 1), none | some (n + 1), some 0 => rfl
  | some (n + 1), some (m + 1) =>
    refine write_at_comm file ?_
    obtain hlt | hgt := Nat.lt_or_gt_of_ne hne
    · exact Or.inl (hrange hi hj hlt)
    · exact Or.inr (hrange hj hi hgt)

/-- The order in which the writes are carried out makes no difference. -/
theorem in_sequence_perm (hfits : Fits c) {order order' : List Nat} (hperm : order.Perm order')
    (horder : ∀ i ∈ order, i < c.iterations) : in_sequence c results order = in_sequence c results order' := by
  refine hperm.foldl_eq' (fun i hi j hj file => ?_) []
  by_cases hne : i = j
  · rw [hne]
  · exact put_comm hfits (horder i hi) (horder j hj) hne file _ _

/-- Writes that are complete fill the file. -/
theorem in_sequence_whole (hfits : Fits c) (hpos : 0 < c.write_size) {n : Nat} (hn : n ≤ c.iterations)
    (hresults : ∀ i < n, results i = some c.write_size) :
    in_sequence c results (List.range n) = (List.replicate n (buffer c)).flatten := by
  induction n with
  | zero => rfl
  | succ n ih =>
    have ih := ih (by omega) fun i hi => hresults i (by omega)
    have hlength : (List.replicate n (buffer c)).flatten.length = offset c n := by
      rw [offset_eq hfits hn]
      simp
    have htake : (buffer c).take c.write_size = buffer c := List.take_of_length_le (by simp)
    obtain ⟨m, hm⟩ : ∃ m, c.write_size = m + 1 := ⟨c.write_size - 1, by omega⟩
    have hput (file : List UInt8) : put c file n (some c.write_size) = write_at file (offset c n) (buffer c) := by
      rw [hm, put, ← hm, htake]
      exact fun h => absurd h (by omega)
    rw [in_sequence, List.range_succ, List.foldl_append, ← in_sequence, ih]
    show put c _ n (results n) = _
    rw [hresults n (Nat.lt_succ_self n), hput, ← hlength, write_at_end, List.replicate_succ', List.flatten_append,
      List.flatten_singleton]

end Writes

/-- The requests made so far. -/
def main_t.submitted (c : config) : main_t → Nat
  | .submit i => i
  | _ => c.iterations

/-- The requests that `main` has waited for. -/
def main_t.waited (c : config) : main_t → Nat
  | .wait i => i
  | .finished => c.iterations
  | _ => 0

/-- As long as no call of `aio_write` has failed. -/
structure Good (c : config) (s : state) : Prop where
  submitted_le : s.main.submitted c ≤ c.iterations
  unused_iff : ∀ i, s.request i = .unused ↔ s.main.submitted c ≤ i
  waited : ∀ i < s.main.waited c, ∃ ret, s.request i = .done ret
  bounded : ∀ i n, s.request i = .done (some n) → n ≤ c.write_size
  messages : s.messages = (List.range (s.main.waited c)).filter fun i => negative (result s i)
  file : ∃ order : List Nat, order.Nodup ∧ (∀ i, i ∈ order ↔ ∃ ret, s.request i = .done ret) ∧
    s.file = in_sequence c (result s) order

structure Inv (c : config) (s : state) : Prop where
  used : s.used_freed = true → s.main = .failed
  good : s.main ≠ .failed → Good c s

section Steps

variable {s s' : state}

theorem in_sequence_congr {results results' : Nat → Option Nat} {order : List Nat}
    (h : ∀ i ∈ order, results i = results' i) : in_sequence c results order = in_sequence c results' order :=
  List.foldl_ext _ _ _ fun file i hi => by rw [h i hi]

theorem result_of_done {i : Nat} {ret : Option Nat} (h : s.request i = .done ret) : result s i = ret := by
  rw [result, h]

/-- A call of `aio_write` that succeeds. -/
theorem Good.submit (h : Good c s) {i : Nat} (hmain : s.main = .submit i) (hi : i < c.iterations) :
    Good c { s with main := .submit (i + 1), request := Function.update s.request i .in_progress } := by
  have hunused : s.request i = .unused := (h.unused_iff i).mpr (by rw [hmain]; exact Nat.le_refl i)
  have hne {j : Nat} {ret : Option Nat} :
      Function.update s.request i .in_progress j = .done ret ↔ s.request j = .done ret := by
    by_cases hj : j = i
    · subst hj
      rw [Function.update_self, hunused]
      exact iff_of_false (by simp) (by simp)
    · rw [Function.update_of_ne hj]
  have hresult : result { s with main := .submit (i + 1), request := Function.update s.request i .in_progress } =
      result s := by
    funext j
    rw [result, result]
    by_cases hj : j = i
    · subst hj
      dsimp only
      rw [Function.update_self, hunused]
    · dsimp only
      rw [Function.update_of_ne hj]
  obtain ⟨order, hnodup, horder, hfile⟩ := h.file
  refine ⟨hi, fun j => ?_, fun j hj => absurd hj (Nat.not_lt_zero j), fun j n hj => h.bounded j n (hne.mp hj), ?_,
    order, hnodup, fun j => ?_, ?_⟩
  · show Function.update s.request i .in_progress j = .unused ↔ i + 1 ≤ j
    have hold := h.unused_iff j
    rw [hmain] at hold
    have hold : s.request j = .unused ↔ i ≤ j := hold
    by_cases hj : j = i
    · subst hj
      rw [Function.update_self]
      exact iff_of_false (by simp) (Nat.not_succ_le_self j)
    · rw [Function.update_of_ne hj, hold]
      omega
  · have hmessages := h.messages
    rw [hmain] at hmessages
    exact hmessages
  · exact (horder j).trans (exists_congr fun ret => hne.symm)
  · rw [hresult]
    exact hfile

/-- A request is carried out. -/
theorem Good.complete (h : Good c s) {i : Nat} {ret : Option Nat} (hi : s.request i = .in_progress)
    (hret : ret.getD 0 ≤ c.write_size) :
    Good c { s with file := put c s.file i ret, request := Function.update s.request i (.done ret) } := by
  have hdone {j : Nat} {ret : Option Nat} (hj : s.request j = .done ret) : j ≠ i := by
    rintro rfl
    rw [hi] at hj
    cases hj
  have hresult {j : Nat} (hj : j ≠ i) :
      result { s with file := put c s.file i ret, request := Function.update s.request i (.done ret) } j =
        result s j := by
    rw [result, result]
    dsimp only
    rw [Function.update_of_ne hj]
  obtain ⟨order, hnodup, horder, hfile⟩ := h.file
  refine ⟨h.submitted_le, fun j => ?_, fun j hj => ?_, fun j n hj => ?_, ?_, order ++ [i], ?_, fun j => ?_, ?_⟩
  · show Function.update s.request i (.done ret) j = .unused ↔ _
    rw [← h.unused_iff j]
    by_cases hj : j = i
    · subst hj
      rw [Function.update_self, hi]
      exact iff_of_false (by simp) (by simp)
    · rw [Function.update_of_ne hj]
  · obtain ⟨ret', hj'⟩ := h.waited j hj
    exact ⟨ret', (Function.update_of_ne (hdone hj') ..).trans hj'⟩
  · have hj : Function.update s.request i (.done ret) j = .done (some n) := hj
    by_cases hji : j = i
    · subst hji
      rw [Function.update_self] at hj
      obtain rfl := request_t.done.inj hj
      exact hret
    · rw [Function.update_of_ne hji] at hj
      exact h.bounded j n hj
  · refine h.messages.trans (List.filter_congr fun j hj => ?_)
    obtain ⟨ret', hj'⟩ := h.waited j (List.mem_range.mp hj)
    rw [hresult (hdone hj')]
  · refine List.nodup_append.mpr ⟨hnodup, List.nodup_singleton i, ?_⟩
    rintro j hj k hk rfl
    obtain ⟨ret', hj'⟩ := (horder j).mp hj
    exact hdone hj' (List.mem_singleton.mp hk)
  · show j ∈ order ++ [i] ↔ ∃ ret', Function.update s.request i (.done ret) j = .done ret'
    rw [List.mem_append, List.mem_singleton, horder]
    by_cases hj : j = i
    · subst hj
      rw [Function.update_self]
      exact iff_of_true (Or.inr rfl) ⟨ret, rfl⟩
    · rw [Function.update_of_ne hj, or_iff_left hj]
  · have hsame : in_sequence c (result s) order = in_sequence c (result _) order :=
      in_sequence_congr fun j hj => (hresult (hdone ((horder j).mp hj).choose_spec)).symm
    rw [in_sequence, List.foldl_append, ← in_sequence, ← hsame, ← hfile]
    show put c s.file i ret = put c s.file i _
    rw [result_of_done (Function.update_self ..)]

/-- `main` has seen that a request is done. -/
theorem Good.wait (h : Good c s) {i : Nat} (hmain : s.main = .wait i) (hi : i < c.iterations) {ret : Option Nat}
    (hret : s.request i = .done ret) :
    Good c { s with main := .wait (i + 1), messages := if negative ret then s.messages ++ [i] else s.messages } := by
  have hwaited := h.waited
  have hmessages := h.messages
  rw [hmain] at hwaited hmessages
  have hmessages : s.messages = (List.range i).filter fun j => negative (result s j) := hmessages
  refine ⟨Nat.le_refl _, fun j => ?_, fun j hj => ?_, h.bounded, ?_, h.file⟩
  · have hold := h.unused_iff j
    rw [hmain] at hold
    exact hold
  · obtain hlt | rfl := Nat.lt_succ_iff_lt_or_eq.mp hj
    · exact hwaited j hlt
    · exact ⟨ret, hret⟩
  · show (if negative ret then s.messages ++ [i] else s.messages) =
      (List.range (i + 1)).filter fun j => negative (result s j)
    rw [List.range_succ, List.filter_append, ← hmessages, List.filter_singleton, result_of_done hret]
    cases negative ret <;> simp

theorem Inv.main_step (h : Inv c s) {accepted : Bool} (hstep : main_step c s accepted = some s') : Inv c s' := by
  unfold posix_aio.main_step at hstep
  split at hstep
  · next i hmain =>
    have hnot : s.main ≠ .failed := by rw [hmain]; simp
    have hused : s.used_freed ≠ true := fun hused => hnot (h.used hused)
    have hgood := h.good hnot
    split at hstep
    · next hi =>
      split at hstep
      · obtain rfl := Option.some.inj hstep
        exact ⟨fun hu => absurd hu hused, fun _ => hgood.submit hmain hi⟩
      · obtain rfl := Option.some.inj hstep
        exact ⟨fun _ => rfl, fun hnot => absurd rfl hnot⟩
    · next hi =>
      obtain rfl := Option.some.inj hstep
      have hle := hgood.submitted_le
      have hunused := hgood.unused_iff
      have hmessages := hgood.messages
      rw [hmain] at hle hunused hmessages
      have heq : i = c.iterations := Nat.le_antisymm hle (Nat.le_of_not_lt hi)
      refine ⟨fun hu => absurd hu hused, fun _ => ⟨Nat.le_refl _, fun j => (hunused j).trans ?_,
        fun j hj => absurd hj (Nat.not_lt_zero j), hgood.bounded, hmessages, hgood.file⟩⟩
      show i ≤ j ↔ c.iterations ≤ j
      rw [heq]
  · next i hmain =>
    have hnot : s.main ≠ .failed := by rw [hmain]; simp
    have hused : s.used_freed ≠ true := fun hused => hnot (h.used hused)
    have hgood := h.good hnot
    split at hstep
    · next hi =>
      split at hstep
      · next ret hret =>
        obtain rfl := Option.some.inj hstep
        exact ⟨fun hu => absurd hu hused, fun _ => hgood.wait hmain hi hret⟩
      · cases hstep
    · next hi =>
      obtain rfl := Option.some.inj hstep
      have hunused := hgood.unused_iff
      have hwaited := hgood.waited
      have hmessages := hgood.messages
      rw [hmain] at hunused hwaited hmessages
      have heq : i = c.iterations := by
        by_contra hne
        obtain ⟨ret, hret⟩ := hwaited c.iterations (Nat.lt_of_le_of_ne (Nat.le_of_not_lt hi) (Ne.symm hne))
        rw [(hunused c.iterations).mpr (Nat.le_refl _)] at hret
        cases hret
      subst heq
      exact ⟨fun hu => absurd hu hused,
        fun _ => ⟨Nat.le_refl _, hunused, hwaited, hgood.bounded, hmessages, hgood.file⟩⟩
  · cases hstep
  · cases hstep

/-- No request is in progress when `main` ends, unless it failed. -/
theorem Inv.failed_of_freed (h : Inv c s) (hfreed : s.main.freed = true) {i : Nat}
    (hi : s.request i = .in_progress) : s.main = .failed := by
  by_contra hnot
  have hgood := h.good hnot
  cases hmain : s.main with
  | failed => exact hnot hmain
  | submit j => simp [hmain, main_t.freed] at hfreed
  | wait j => simp [hmain, main_t.freed] at hfreed
  | finished =>
    have hunused := hgood.unused_iff i
    have hwaited := hgood.waited i
    rw [hmain] at hunused hwaited
    obtain hlt | hge := Nat.lt_or_ge i c.iterations
    · obtain ⟨ret, hret⟩ := hwaited hlt
      rw [hi] at hret
      cases hret
    · rw [hunused.mpr hge] at hi
      cases hi

theorem Inv.step (h : Inv c s) {a : action_t} (hstep : step c s a = some s') : Inv c s' := by
  cases a with
  | main accepted => exact h.main_step hstep
  | complete i ret =>
    have hstep : complete c s i ret = some s' := hstep
    unfold posix_aio.complete at hstep
    split at hstep
    · next hcond =>
      split at hstep
      · next hfreed =>
        obtain rfl := Option.some.inj hstep
        have hmain := h.failed_of_freed hfreed hcond.1
        exact ⟨fun _ => hmain, fun hnot => absurd hmain hnot⟩
      · next hfreed =>
        obtain rfl := Option.some.inj hstep
        have hmain : s.main ≠ .failed := fun hmain => hfreed (by rw [hmain]; rfl)
        exact ⟨h.used, fun _ => (h.good hmain).complete hcond.1 hcond.2⟩
    · cases hstep

theorem inv_start (c : config) : Inv c start := by
  refine ⟨fun hused => absurd hused (by simp [start]),
    fun _ => ⟨Nat.zero_le _, fun i => ?_, fun i hi => ?_, ?_, rfl, ?_⟩⟩
  · exact iff_of_true rfl (Nat.zero_le i)
  · exact absurd hi (Nat.not_lt_zero i)
  · exact fun i n hi => absurd hi (by simp [start])
  · exact ⟨[], List.nodup_nil, fun i => by simp [start], rfl⟩

/-- What the arguments lead to. -/
theorem sizes_spec {total_mb write_size : Int} (hmb : 0 ≤ total_mb)
    (hsizes : sizes total_mb write_size = some (c.iterations, c.write_size)) :
    0 < c.write_size ∧ c.iterations * c.write_size < 2 ^ 31 := by
  obtain ⟨total_kb, hkb, hrest⟩ := Option.bind_eq_some_iff.mp hsizes
  obtain ⟨total_bytes, hbytes, hrest⟩ := Option.bind_eq_some_iff.mp hrest
  obtain ⟨⟨-, hkb_le⟩, rfl⟩ := int_eq_some.mp hkb
  obtain ⟨⟨-, hbytes_le⟩, rfl⟩ := int_eq_some.mp hbytes
  split at hrest
  · cases hrest
  · next hne =>
    obtain ⟨hiterations, hsize⟩ := Prod.mk.inj (Option.some.inj hrest)
    have htotal : size_t (total_mb * 1024 * 1024) < 2 ^ 31 := by
      rw [size_t]
      omega
    rw [← hiterations, ← hsize]
    exact ⟨Nat.pos_of_ne_zero hne, Nat.lt_of_le_of_lt (Nat.div_mul_le_self _ _) htotal⟩

/-- `main` does not wait for ever: a request that is not done can be carried out. -/
theorem ended_of_stuck (h : Inv c s) (hend : ∀ a, step c s a = none) : s.main = .finished ∨ s.main = .failed := by
  have hmain_end := hend (.main true)
  cases hmain : s.main with
  | finished => exact Or.inl rfl
  | failed => exact Or.inr rfl
  | submit i => by_cases hi : i < c.iterations <;> simp [step, main_step, hmain, hi] at hmain_end
  | wait i =>
    by_cases hi : i < c.iterations
    · cases hrequest : s.request i with
      | unused =>
        have hle := ((h.good (by rw [hmain]; simp)).unused_iff i).mp hrequest
        rw [hmain] at hle
        exact absurd hi (Nat.not_lt.mpr hle)
      | in_progress =>
        have hcomplete := hend (.complete i none)
        simp [step, complete, hrequest, hmain, main_t.freed] at hcomplete
      | done ret => simp [step, main_step, hmain, hi, hrequest] at hmain_end
    · simp [step, main_step, hmain, hi] at hmain_end

end Steps

end csystems.posix_aio
