import Mathlib.Data.List.Basic
import CSystems.Lib.CString
import CSystems.Lib.Run

open clib.run clib.string

namespace csystems.shared_message

/-- `ShmPayload`. -/
structure ShmPayload where
  ready : Int
  length : Nat
  text : List UInt8
  deriving DecidableEq, Repr

/-- What the programs differ in: the size of `text`, the values of `ready` that end the
reader's loop, and whether the writer resets `ready` itself. -/
structure program where
  cap : Nat
  passes : Int → Bool
  resets : Bool

/-- The separate programs, on a segment that outlives them. -/
def shmWriter : program where
  cap := 256
  passes ready := ready = 1
  resets := true

/-- The parent and its child, on a private segment. -/
def shmForkDemo : program where
  cap := 128
  passes ready := !(ready = 0)
  resets := false

/-- The next access of the writer to the segment. -/
inductive writer_t where
  | reset
  /-- Byte `i` of `memcpy`. -/
  | copy (i : Nat)
  | terminate
  | set_length
  | publish
  | finished
  deriving DecidableEq

/-- The next access of the reader. -/
inductive reader_t where
  | poll
  | load_length
  /-- `printf` has printed `out` of `text`. -/
  | print (length : Nat) (out : List UInt8)
  | finished (length : Nat) (out : List UInt8)
  deriving DecidableEq

structure state where
  payload : ShmPayload
  writer : writer_t
  reader : reader_t

variable {p : program} {message : List UInt8}

/-- What `strnlen` leaves of the message. -/
def program.taken (p : program) (message : List UInt8) : List UInt8 := message.take (p.cap - 1)

def start (p : program) (payload : ShmPayload) : state where
  payload := payload
  writer := if p.resets then .reset else .copy 0
  reader := .poll

def writer_step (p : program) (message : List UInt8) (s : state) : Option state :=
  let n := (p.taken message).length
  match s.writer with
  | .reset => some { s with payload := { s.payload with ready := 0 }, writer := .copy 0 }
  | .copy i =>
    match (p.taken message)[i]? with
    | some b => some { s with payload := { s.payload with text := s.payload.text.set i b }, writer := .copy (i + 1) }
    | none => some { s with writer := .terminate }
  | .terminate => some { s with payload := { s.payload with text := s.payload.text.set n 0 }, writer := .set_length }
  | .set_length => some { s with payload := { s.payload with length := n }, writer := .publish }
  | .publish => some { s with payload := { s.payload with ready := 1 }, writer := .finished }
  | .finished => none

/-- The reader has no step where it would read behind `text`. -/
def reader_step (p : program) (s : state) : Option state :=
  match s.reader with
  | .poll => if p.passes s.payload.ready then some { s with reader := .load_length } else some s
  | .load_length => some { s with reader := .print s.payload.length [] }
  | .print length out => do
    let b ← s.payload.text[out.length]?
    if b = 0 then some { s with reader := .finished length out }
    else some { s with reader := .print length (out ++ [b]) }
  | .finished _ _ => none

inductive actor_t where
  | writer
  | reader

def step (p : program) (message : List UInt8) (s : state) : actor_t → Option state
  | .writer => writer_step p message s
  | .reader => reader_step p s

/-- The message as a reader sees it. -/
structure Shows (p : program) (message : List UInt8) (payload : ShmPayload) : Prop where
  size : payload.text.length = p.cap
  copied : payload.text.take (p.taken message).length = p.taken message
  terminated : payload.text[(p.taken message).length]? = some 0
  length : payload.length = (p.taken message).length

/-- What the writer has written so far. -/
def Written (p : program) (message : List UInt8) (payload : ShmPayload) : writer_t → Prop
  | .reset => True
  | .copy i => i ≤ (p.taken message).length ∧ payload.text.take i = (p.taken message).take i
  | .terminate => payload.text.take (p.taken message).length = p.taken message
  | .set_length => payload.text.take (p.taken message).length = p.taken message ∧
      payload.text[(p.taken message).length]? = some 0
  | .publish => Shows p message payload
  | .finished => Shows p message payload ∧ payload.ready = 1

/-- What the reader has read so far. -/
def Read (p : program) (message : List UInt8) : reader_t → Prop
  | .poll | .load_length => True
  | .print length out => length = (p.taken message).length ∧ out <+: p.taken message
  | .finished length out => length = (p.taken message).length ∧ out = p.taken message

/-- A reader that is past its loop sees the message. -/
structure Inv (p : program) (message : List UInt8) (s : state) : Prop where
  size : s.payload.text.length = p.cap
  written : Written p message s.payload s.writer
  passed : p.passes s.payload.ready = true → Shows p message s.payload
  reading : s.reader ≠ .poll → Shows p message s.payload
  read : Read p message s.reader

section Invariant

variable {s s' : state}

theorem Shows.set_text {payload : ShmPayload} (h : Shows p message payload) {i : Nat} {b : UInt8}
    (hb : payload.text[i]? = some b) : Shows p message { payload with text := payload.text.set i b } := by
  have hsame : payload.text.set i b = payload.text := by
    obtain ⟨hi, rfl⟩ := List.getElem?_eq_some_iff.mp hb
    exact List.set_getElem_self hi
  rwa [hsame]

/-- The bytes that the message shows are its own. -/
theorem Shows.getElem? {payload : ShmPayload} (h : Shows p message payload) {i : Nat}
    (hi : i < (p.taken message).length) : payload.text[i]? = (p.taken message)[i]? := by
  rw [← h.copied, List.getElem?_take_of_lt hi]

theorem Inv.writer_step (h : Inv p message s) (hcap : 0 < p.cap) (hreset : p.passes 0 = false)
    (hstep : writer_step p message s = some s') : Inv p message s' := by
  have hlength : (p.taken message).length < p.cap := by
    rw [program.taken, List.length_take]
    omega
  have hwritten := h.written
  have hsize := h.size
  unfold shared_message.writer_step at hstep
  split at hstep
  · next hwriter =>
    obtain rfl := Option.some.inj hstep
    refine ⟨hsize, ⟨Nat.zero_le _, rfl⟩, fun hpass => ?_, fun hpoll => ?_, h.read⟩
    · rw [hreset] at hpass
      cases hpass
    · obtain ⟨h₁, h₂, h₃, h₄⟩ := h.reading hpoll
      exact ⟨h₁, h₂, h₃, h₄⟩
  · next i hwriter =>
    rw [hwriter] at hwritten
    obtain ⟨hi, htake⟩ := hwritten
    split at hstep
    · next b hb =>
      obtain rfl := Option.some.inj hstep
      obtain ⟨hlt, hget⟩ := List.getElem?_eq_some_iff.mp hb
      have hsame (hshows : Shows p message s.payload) :
          Shows p message { s.payload with text := s.payload.text.set i b } :=
        hshows.set_text ((hshows.getElem? hlt).trans hb)
      refine ⟨by simpa using hsize, ⟨hlt, ?_⟩, fun hpass => hsame (h.passed hpass),
        fun hpoll => hsame (h.reading hpoll),
        h.read⟩
      have hroom : i < s.payload.text.length := by omega
      rw [List.take_add_one, List.take_add_one, hb, List.getElem?_set_self hroom, List.take_set_of_le (Nat.le_refl i),
        htake]
    · next hnone =>
      obtain rfl := Option.some.inj hstep
      have heq : i = (p.taken message).length := Nat.le_antisymm hi (List.getElem?_eq_none_iff.mp hnone)
      refine ⟨hsize, ?_, h.passed, h.reading, h.read⟩
      rw [heq, List.take_length] at htake
      exact htake
  · next hwriter =>
    rw [hwriter] at hwritten
    obtain rfl := Option.some.inj hstep
    have hsame (hshows : Shows p message s.payload) :
        Shows p message { s.payload with text := s.payload.text.set (p.taken message).length 0 } :=
      hshows.set_text hshows.terminated
    refine ⟨by simpa using hsize, ⟨?_, ?_⟩, fun hpass => hsame (h.passed hpass), fun hpoll => hsame (h.reading hpoll),
      h.read⟩
    · rw [List.take_set_of_le (Nat.le_refl _)]
      exact hwritten
    · exact List.getElem?_set_self (by omega)
  · next hwriter =>
    rw [hwriter] at hwritten
    obtain rfl := Option.some.inj hstep
    have hshows : Shows p message { s.payload with length := (p.taken message).length } :=
      ⟨hsize, hwritten.1, hwritten.2, rfl⟩
    exact ⟨hsize, hshows, fun _ => hshows, fun _ => hshows, h.read⟩
  · next hwriter =>
    rw [hwriter] at hwritten
    obtain rfl := Option.some.inj hstep
    have hshows : Shows p message { s.payload with ready := 1 } :=
      ⟨hwritten.size, hwritten.copied, hwritten.terminated, hwritten.length⟩
    exact ⟨hsize, ⟨hshows, rfl⟩, fun _ => hshows, fun _ => hshows, h.read⟩
  · cases hstep

theorem Inv.reader_step (h : Inv p message s) (hmessage : 0 ∉ message) (hstep : reader_step p s = some s') :
    Inv p message s' := by
  have hread := h.read
  unfold shared_message.reader_step at hstep
  split at hstep
  · next hreader =>
    split at hstep
    · next hpass =>
      obtain rfl := Option.some.inj hstep
      exact ⟨h.size, h.written, h.passed, fun _ => h.passed hpass, trivial⟩
    · obtain rfl := Option.some.inj hstep
      exact h
  · next hreader =>
    obtain rfl := Option.some.inj hstep
    have hshows := h.reading (by rw [hreader]; simp)
    exact ⟨h.size, h.written, h.passed, fun _ => hshows, hshows.length, List.nil_prefix⟩
  · next length out hreader =>
    have hshows := h.reading (by rw [hreader]; simp)
    rw [hreader] at hread
    obtain ⟨hlength, hpre⟩ := hread
    obtain ⟨b, hb, hsome⟩ := Option.bind_eq_some_iff.mp hstep
    have hle := hpre.length_le
    have hout : out = (p.taken message).take out.length := List.prefix_iff_eq_take.mp hpre
    split at hsome
    · next hzero =>
      obtain rfl := Option.some.inj hsome
      refine ⟨h.size, h.written, h.passed, fun _ => hshows, hlength, ?_⟩
      -- a byte of the message is not zero, so the end is reached
      by_contra hne
      have hlt : out.length < (p.taken message).length := by
        by_contra hge
        exact hne (hpre.eq_of_length (by omega))
      rw [hshows.getElem? hlt, hzero] at hb
      exact hmessage (List.mem_of_mem_take (List.mem_of_getElem? hb))
    · next hzero =>
      obtain rfl := Option.some.inj hsome
      have hlt : out.length < (p.taken message).length := by
        by_contra hge
        have hend : out.length = (p.taken message).length := by omega
        rw [hend, hshows.terminated] at hb
        exact hzero (Option.some.inj hb).symm
      refine ⟨h.size, h.written, h.passed, fun _ => hshows, hlength, ?_⟩
      rw [hshows.getElem? hlt] at hb
      have hnext : out ++ [b] = (p.taken message).take (out.length + 1) := by
        rw [List.take_add_one, hb, ← hout]
        rfl
      rw [hnext]
      exact List.take_prefix ..
  · cases hstep

theorem Inv.step (h : Inv p message s) (hcap : 0 < p.cap) (hreset : p.passes 0 = false) (hmessage : 0 ∉ message)
    {a : actor_t} (hstep : step p message s a = some s') : Inv p message s' := by
  cases a with
  | writer => exact h.writer_step hcap hreset hstep
  | reader => exact h.reader_step hmessage hstep

theorem start_inv {payload : ShmPayload} (hsize : payload.text.length = p.cap)
    (hshows : p.passes payload.ready = true → Shows p message payload) : Inv p message (start p payload) := by
  refine ⟨hsize, ?_, hshows, fun hpoll => absurd rfl hpoll, trivial⟩
  unfold start
  split
  · trivial
  · exact ⟨Nat.zero_le _, rfl⟩

end Invariant

section Delivery

variable {s s' : state}

/-- `printf` is about to read behind `text`. -/
def Overrun (s : state) : Prop := ∃ length out, s.reader = .print length out ∧ s.payload.text.length ≤ out.length

/-- Whatever the order of the accesses: what the reader prints is the message, all of it
that fits, with its length; it does not read behind it; and it can always still get to
the end. -/
def Delivers (p : program) (message : List UInt8) (payload : ShmPayload) : Prop :=
  ∀ s, Reachable (step p message) (start p payload) s →
    (∀ length out, s.reader = .finished length out → out = p.taken message ∧ length = (p.taken message).length) ∧
      ¬ Overrun s ∧ ∃ s', Reachable (step p message) s s' ∧ ∃ length out, s'.reader = .finished length out

def writer_weight (n : Nat) : writer_t → Nat
  | .reset => n + 6
  | .copy i => n + 5 - i
  | .terminate => 3
  | .set_length => 2
  | .publish => 1
  | .finished => 0

def reader_weight (cap : Nat) : reader_t → Nat
  | .poll => cap + 3
  | .load_length => cap + 2
  | .print _ out => cap + 1 - out.length
  | .finished _ _ => 0

theorem writer_weight_lt (h : Inv p message s) (hstep : writer_step p message s = some s') :
    writer_weight (p.taken message).length s'.writer < writer_weight (p.taken message).length s.writer := by
  have hwritten := h.written
  unfold writer_step at hstep
  split at hstep
  · next hwriter =>
    obtain rfl := Option.some.inj hstep
    rw [hwriter]
    exact Nat.lt_succ_self _
  · next i hwriter =>
    rw [hwriter] at hwritten ⊢
    have hi := hwritten.1
    split at hstep
    · obtain rfl := Option.some.inj hstep
      simp only [writer_weight]
      omega
    · obtain rfl := Option.some.inj hstep
      simp only [writer_weight]
      omega
  · next hwriter =>
    obtain rfl := Option.some.inj hstep
    rw [hwriter]
    exact Nat.lt_succ_self _
  · next hwriter =>
    obtain rfl := Option.some.inj hstep
    rw [hwriter]
    exact Nat.lt_succ_self _
  · next hwriter =>
    obtain rfl := Option.some.inj hstep
    rw [hwriter]
    exact Nat.lt_succ_self _
  · cases hstep

theorem reader_weight_lt (h : Inv p message s) (hpass : p.passes s.payload.ready = true)
    (hstep : reader_step p s = some s') : reader_weight p.cap s'.reader < reader_weight p.cap s.reader := by
  unfold reader_step at hstep
  split at hstep
  · next hreader =>
    rw [if_pos hpass] at hstep
    obtain rfl := Option.some.inj hstep
    rw [hreader]
    exact Nat.lt_succ_self _
  · next hreader =>
    obtain rfl := Option.some.inj hstep
    rw [hreader]
    exact Nat.lt_succ_self _
  · next length out hreader =>
    obtain ⟨b, hb, hsome⟩ := Option.bind_eq_some_iff.mp hstep
    have hsize := h.size
    obtain ⟨hlt, -⟩ := List.getElem?_eq_some_iff.mp hb
    rw [hreader]
    split at hsome
    · obtain rfl := Option.some.inj hsome
      simp only [reader_weight]
      omega
    · obtain rfl := Option.some.inj hsome
      simp only [reader_weight, List.length_append, List.length_singleton]
      omega
  · cases hstep

theorem Inv.no_overrun (h : Inv p message s) (hcap : 0 < p.cap) : ¬ Overrun s := by
  rintro ⟨length, out, hreader, hle⟩
  have hread := h.read
  rw [hreader] at hread
  have hpre := hread.2.length_le
  have hsize := h.size
  have htaken : (p.taken message).length < p.cap := by
    rw [program.taken, List.length_take]
    omega
  omega

/-- The writer gets to its end, and then the reader. -/
theorem can_finish (h : Inv p message s) (hcap : 0 < p.cap) (hreset : p.passes 0 = false) (hset : p.passes 1 = true)
    (hmessage : 0 ∉ message) :
    ∃ s', Reachable (step p message) s s' ∧ ∃ length out, s'.reader = .finished length out := by
  have hkeep (s s' : state) (a : actor_t) (h : Inv p message s) (hstep : step p message s a = some s') :
      Inv p message s' := h.step hcap hreset hmessage hstep
  have hwriter (s s' : state) (a : actor_t) (h : Inv p message s) (ha : a = .writer)
      (hstep : step p message s a = some s') :
      writer_weight (p.taken message).length s'.writer < writer_weight (p.taken message).length s.writer := by
    subst ha
    exact writer_weight_lt h hstep
  obtain ⟨s₁, hwritten, hend⟩ := exists_final (P := fun a => a = .writer) hkeep hwriter .start h
  have hinv₁ := hwritten.invariant h fun s s' a => hkeep s s' a
  have hfinished : s₁.writer = .finished := by
    have hnone : writer_step p message s₁ = none := hend .writer rfl
    unfold writer_step at hnone
    split at hnone
    · cases hnone
    · split at hnone <;> cases hnone
    · cases hnone
    · cases hnone
    · cases hnone
    · assumption
  have hkeep₁ (s s' : state) (a : actor_t) (h : Inv p message s ∧ s.writer = .finished)
      (hstep : step p message s a = some s') : Inv p message s' ∧ s'.writer = .finished := by
    refine ⟨hkeep s s' a h.1 hstep, ?_⟩
    cases a with
    | writer => simp [step, writer_step, h.2] at hstep
    | reader =>
      simp only [step, reader_step] at hstep
      split at hstep
      · split at hstep <;> obtain rfl := Option.some.inj hstep <;> exact h.2
      · obtain rfl := Option.some.inj hstep
        exact h.2
      · obtain ⟨b, -, hsome⟩ := Option.bind_eq_some_iff.mp hstep
        split at hsome <;> obtain rfl := Option.some.inj hsome <;> exact h.2
      · cases hstep
  have hreader (s s' : state) (a : actor_t) (h : Inv p message s ∧ s.writer = .finished) (ha : a = .reader)
      (hstep : step p message s a = some s') : reader_weight p.cap s'.reader < reader_weight p.cap s.reader := by
    subst ha
    have hready := h.1.written
    rw [h.2] at hready
    exact reader_weight_lt h.1 (by rw [hready.2]; exact hset) hstep
  obtain ⟨s₂, hread, hend₂⟩ := exists_final (P := fun a => a = .reader) hkeep₁ hreader .start ⟨hinv₁, hfinished⟩
  obtain ⟨hinv₂, -⟩ := hread.invariant ⟨hinv₁, hfinished⟩ fun s s' a => hkeep₁ s s' a
  refine ⟨s₂, hread.trans hwritten, ?_⟩
  have hnone : reader_step p s₂ = none := hend₂ .reader rfl
  cases hcases : s₂.reader with
  | poll =>
    simp only [reader_step, hcases] at hnone
    split at hnone <;> cases hnone
  | load_length => simp [reader_step, hcases] at hnone
  | print length out =>
    have hno := hinv₂.no_overrun hcap
    cases hbyte : s₂.payload.text[out.length]? with
    | none => exact absurd ⟨length, out, hcases, List.getElem?_eq_none_iff.mp hbyte⟩ hno
    | some b =>
      simp only [reader_step, hcases, hbyte, Option.bind_eq_bind, Option.bind_some] at hnone
      split at hnone <;> cases hnone
  | finished length out => exact ⟨length, out, rfl⟩

/-- A reader that passes its loop before the writer starts prints what it finds. -/
theorem reader_alone {payload : ShmPayload} (hpass : p.passes payload.ready = true) {k : Nat}
    (hk : k ≤ (c_str payload.text).length) :
    Reachable (step p message) (start p payload)
      { start p payload with reader := .print payload.length (payload.text.take k) } := by
  induction k with
  | zero =>
    have hfirst : Reachable (step p message) (start p payload) { start p payload with reader := .load_length } :=
      .step .reader .start (by simp [step, reader_step, start, hpass])
    exact .step .reader hfirst rfl
  | succ k ih =>
    have hpre : c_str payload.text <+: payload.text := List.takeWhile_prefix _
    have hle := hpre.length_le
    have hlt : k < payload.text.length := by omega
    have hbyte : payload.text[k] ≠ 0 := by
      have hmem : (c_str payload.text)[k] = payload.text[k] := hpre.getElem hk
      rw [← hmem]
      exact ne_zero_of_mem_c_str (List.getElem_mem _)
    refine .step .reader (ih (by omega)) ?_
    have hlength : (payload.text.take k).length = k := List.length_take_of_le (Nat.le_of_lt hlt)
    simp only [step, reader_step, start, hlength, List.getElem?_eq_getElem hlt, Option.bind_eq_bind, Option.bind_some,
      if_neg hbyte]
    rw [List.take_add_one, List.getElem?_eq_getElem hlt, Option.toList_some]

/-- The protocol delivers exactly where a reader that finds the segment open already
finds the message in it. -/
theorem delivers_iff (hcap : 0 < p.cap) (hreset : p.passes 0 = false) (hset : p.passes 1 = true)
    (hmessage : 0 ∉ message)
    {payload : ShmPayload} (hsize : payload.text.length = p.cap) :
    Delivers p message payload ↔ (p.passes payload.ready = true → Shows p message payload) := by
  constructor
  · intro hdelivers hpass
    have hread : Reachable (step p message) (start p payload)
        { start p payload with reader := .print payload.length (payload.text.take (c_str payload.text).length) } :=
      reader_alone hpass (Nat.le_refl _)
    have hpre : c_str payload.text <+: payload.text := List.takeWhile_prefix _
    have htake : payload.text.take (c_str payload.text).length = c_str payload.text :=
      (List.prefix_iff_eq_take.mp hpre).symm
    rw [htake] at hread
    -- the string ends within `text`, and the reader prints it
    have hlt : (c_str payload.text).length < payload.text.length := by
      by_contra hge
      exact (hdelivers _ hread).2.1 ⟨payload.length, c_str payload.text, rfl, Nat.le_of_not_lt hge⟩
    have hzero := getElem?_length_c_str hlt
    have hlast : Reachable (step p message) (start p payload)
        { start p payload with reader := .finished payload.length (c_str payload.text) } := by
      refine .step .reader hread ?_
      simp [step, reader_step, start, hzero]
    obtain ⟨hout, hlength⟩ := (hdelivers _ hlast).1 _ _ rfl
    rw [hout] at htake hzero
    exact ⟨hsize, htake, hzero, hlength⟩
  · intro hshows s hreachable
    have hinv : Inv p message s :=
      hreachable.invariant (start_inv hsize hshows) fun s s' a h hstep => h.step hcap hreset hmessage hstep
    refine ⟨fun length out hreader => ?_, hinv.no_overrun hcap, can_finish hinv hcap hreset hset hmessage⟩
    have hread := hinv.read
    rw [hreader] at hread
    exact ⟨hread.2, hread.1⟩

/-- The reader of a segment that a writer may have used before gets the message in every
order of the accesses exactly where the segment was not left ready, or with the same
message. The child of the fork demo, whose segment is new, always gets it. -/
theorem message_delivered (hmessage : 0 ∉ message) (payload : ShmPayload) :
    (payload.text.length = shmWriter.cap →
      (Delivers shmWriter message payload ↔ (payload.ready = 1 → Shows shmWriter message payload))) ∧
      (payload.text.length = shmForkDemo.cap → payload.ready = 0 → Delivers shmForkDemo message payload) := by
  refine ⟨fun hsize => ?_, fun hsize hready => ?_⟩
  · rw [delivers_iff (by decide) rfl rfl hmessage hsize]
    simp [shmWriter]
  · rw [delivers_iff (by decide) rfl rfl hmessage hsize, hready]
    intro hpass
    cases hpass

theorem message_delivered_hello :
    ((List.replicate 256 (0 : UInt8)).length = shmWriter.cap →
      (Delivers shmWriter [72, 105] ⟨0, 0, List.replicate 256 0⟩ ↔
        ((0 : Int) = 1 → Shows shmWriter [72, 105] ⟨0, 0, List.replicate 256 0⟩))) ∧
      ((List.replicate 256 (0 : UInt8)).length = shmForkDemo.cap → (0 : Int) = 0 →
        Delivers shmForkDemo [72, 105] ⟨0, 0, List.replicate 256 0⟩) :=
  message_delivered (by decide) ⟨0, 0, List.replicate 256 0⟩

end Delivery

end csystems.shared_message
