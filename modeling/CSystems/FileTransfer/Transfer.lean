import CSystems.Lib.File

open clib.stream

namespace csystems.file_transfer

/-- The size of the buffers of both programs. -/
def MAX : Nat := 1024

/-- The string `"EOF"`, without its terminator. -/
def EOF : List UInt8 := [69, 79, 70]

/-- The four bytes that end a transfer. -/
def END_MARKER : List UInt8 := EOF ++ [0]

/-- The writes of the sender: what each `fread` of the file yields, and the marker. -/
def sender : List UInt8 → List (List UInt8)
  | [] => [END_MARKER]
  | c :: file => (c :: file).take MAX :: sender ((c :: file).drop MAX)
termination_by file => file.length
decreasing_by
  have hMAX : MAX = 1024 := rfl
  rw [List.length_drop, List.length_cons]
  omega

/-- The loop of the receiver over the reads it makes, with the bytes of its buffer and of
the file it has written: the reads left over and the file when it leaves the loop, `none`
while it waits for more. -/
def receiver (buffer file : List UInt8) : List (List UInt8) → Option (List (List UInt8) × List UInt8)
  | [] => none
  | r :: reads =>
    let buffer := fill buffer r
    if strncmp 3 buffer EOF = 0 then some (reads, file) else receiver buffer (file ++ r) reads

/-- A file to send, the bytes in the receiver's buffer before its first read, and the
reads in which the stream arrives. -/
structure transfer_t where
  file : List UInt8
  buffer : List UInt8
  buffer_size : buffer.length = MAX
  stream : Segmentation (sender file).flatten MAX

/-- The receiver leaves its loop with the last byte of the marker, and has written the file. -/
def Delivered (t : transfer_t) : Prop := receiver t.buffer [] t.stream.reads = some ([], t.file)

/-- What the sender writes is the file and then the marker. -/
theorem sender_flatten (file : List UInt8) : (sender file).flatten = file ++ END_MARKER := by
  induction file using sender.induct with
  | case1 =>
    rw [sender]
    rfl
  | case2 c file ih => rw [sender, List.flatten_cons, ih, ← List.append_assoc, List.take_append_drop]

theorem strncmp_EOF (buffer : List UInt8) : strncmp 3 buffer EOF = 0 ↔ EOF <+: buffer :=
  strncmp_eq_zero_iff EOF (by decide) buffer

/-- The receiver leaves its loop at the last read exactly if the buffer then starts with
`"EOF"`, and did not after any read before. -/
theorem receiver_eq_some_iff (buffer file out : List UInt8) (reads : List (List UInt8)) :
    receiver buffer file reads = some ([], out) ↔
      ∃ body last, reads = body ++ [last] ∧ out = file ++ body.flatten ∧
        (∀ now, now ≠ [] → now <+: body → ¬ EOF <+: now.foldl fill buffer) ∧
        EOF <+: reads.foldl fill buffer := by
  induction reads generalizing buffer file with
  | nil => simp [receiver]
  | cons r reads ih =>
    rw [receiver]
    simp only [strncmp_EOF]
    split
    case isTrue hmarked =>
      constructor
      · intro h
        obtain ⟨rfl, rfl⟩ := Prod.mk.inj (Option.some.inj h)
        refine ⟨[], r, rfl, by simp, fun now hnow hprefix => ?_, hmarked⟩
        exact absurd (List.prefix_nil.mp hprefix) hnow
      · rintro ⟨body, last, hreads, rfl, hbody, -⟩
        cases body with
        | nil =>
          obtain ⟨-, rfl⟩ := List.cons.inj hreads
          simp
        | cons r' body =>
          obtain ⟨rfl, -⟩ := List.cons.inj hreads
          exact absurd hmarked (hbody [r] (by simp) ⟨body, rfl⟩)
    case isFalse hclear =>
      rw [ih]
      constructor
      · rintro ⟨body, last, rfl, rfl, hbody, hlast⟩
        refine ⟨r :: body, last, rfl, by simp, ?_, hlast⟩
        intro now hnow hprefix
        cases now with
        | nil => exact absurd rfl hnow
        | cons r' now =>
          obtain ⟨rfl, htail⟩ := List.cons_prefix_cons.mp hprefix
          by_cases hempty : now = []
          · rw [hempty]
            exact hclear
          · exact hbody now hempty htail
      · rintro ⟨body, last, hreads, rfl, hbody, hlast⟩
        cases body with
        | nil =>
          obtain ⟨rfl, rfl⟩ := List.cons.inj hreads
          exact absurd hlast hclear
        | cons r' body =>
          obtain ⟨rfl, rfl⟩ := List.cons.inj hreads
          refine ⟨body, last, rfl, by simp, fun now hnow hprefix => ?_, hlast⟩
          exact hbody (r :: now) (by simp) (List.cons_prefix_cons.mpr ⟨rfl, hprefix⟩)

/-- A transfer delivers the file exactly if the marker arrives in a read of its own, and
no read before leaves `"EOF"` at the start of the buffer. -/
theorem file_delivered_iff (t : transfer_t) :
    Delivered t ↔ ∃ body, t.stream.reads = body ++ [END_MARKER] ∧
      ∀ now, now ≠ [] → now <+: body → ¬ EOF <+: now.foldl fill t.buffer := by
  have hcomplete : t.stream.reads.flatten = t.file ++ END_MARKER := t.stream.complete.trans (sender_flatten t.file)
  rw [Delivered, receiver_eq_some_iff]
  constructor
  · rintro ⟨body, last, hreads, hfile, hbody, -⟩
    rw [hreads, List.flatten_append, List.flatten_singleton, hfile, List.nil_append] at hcomplete
    have hlast : last = END_MARKER := List.append_cancel_left hcomplete
    exact ⟨body, by rw [hreads, hlast], hbody⟩
  · rintro ⟨body, hreads, hbody⟩
    rw [hreads, List.flatten_append, List.flatten_singleton] at hcomplete
    have hfile : body.flatten = t.file := List.append_cancel_right hcomplete
    refine ⟨body, END_MARKER, hreads, by rw [hfile, List.nil_append], hbody, ?_⟩
    rw [hreads, List.foldl_append]
    exact ⟨0 :: _, rfl⟩

/-- The file `"Hi"`, and all six bytes of its stream in one read. -/
def merged : transfer_t where
  file := [72, 105]
  buffer := List.replicate MAX 0
  buffer_size := List.length_replicate
  stream :=
    { reads := [[72, 105] ++ END_MARKER]
      nonempty := by simp
      fits := by simp [END_MARKER, EOF, MAX]
      complete := by rw [sender_flatten, List.flatten_singleton] }

theorem merged_not_delivered : ¬ Delivered merged := by
  have hwaits : receiver merged.buffer [] merged.stream.reads = none := by decide
  rw [Delivered, hwaits]
  simp

end csystems.file_transfer
