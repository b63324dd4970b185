import CSystems.KeyValueStore.Server

open clib.ctype clib.stream clib.string

namespace csystems.key_value_store.server

/-- A stream read byte by byte. -/
def single_bytes (stream : List UInt8) : List (List UInt8) := stream.map fun c => [c]

theorem single_bytes_flatten (stream : List UInt8) : (single_bytes stream).flatten = stream := by
  rw [single_bytes, ← List.flatMap_def, List.flatMap_singleton']

theorem cut_line_single (c : UInt8) : (cut_line [c]).length ≤ 1 :=
  ((List.takeWhile_sublist _).trans (List.takeWhile_sublist _)).length_le

/-- No command fits into one byte. -/
theorem parse_single (c : UInt8) : parse [c] = .unknown := by
  have hlength := cut_line_single c
  have hnot {word : List UInt8} (hword : 0 ∉ word) (hfour : word.length = 4) :
      ¬ strncmp 4 (cut_line [c]) word = 0 := by
    rw [← hfour, strncmp_eq_zero_iff word hword]
    intro hprefix
    have hle := hprefix.length_le
    omega
  have hexit : ¬ strcmp (cut_line [c]) EXIT = 0 := by
    rw [strcmp_eq_zero_iff]
    intro heq
    have hle : (c_str (cut_line [c])).length ≤ 1 := Nat.le_trans (List.takeWhile_sublist _).length_le hlength
    rw [heq] at hle
    exact absurd hle (by decide)
  unfold parse
  dsimp only
  rw [if_neg (hnot (by decide) (by decide)), if_neg (hnot (by decide) (by decide)), if_neg hexit]

theorem handle_single_bytes (store : List KVPair) (stream : List UInt8) :
    (handle_reads store (single_bytes stream)).executed = [] ∧
      (handle_reads store (single_bytes stream)).store = store := by
  apply handle_reads_of_none
  intro r hr
  obtain ⟨c, -, rfl⟩ := List.mem_map.mp hr
  rw [parse_single]
  rfl

/-- Bytes read one by one before other reads do not change what those execute. -/
theorem handle_single_bytes_append (store : List KVPair) (stream : List UInt8) (reads : List (List UInt8)) :
    (handle_reads store (single_bytes stream ++ reads)).executed = (handle_reads store reads).executed := by
  induction stream with
  | nil => rfl
  | cons c stream ih =>
    have hcons : single_bytes (c :: stream) ++ reads = [c] :: (single_bytes stream ++ reads) := rfl
    rw [hcons, handle_reads, parse_single]
    exact ih

/-- A read that is taken for a request executes at least that one. -/
theorem handle_request {r : List UInt8} (hr : (parse r).is_request = true) (store : List KVPair)
    (reads : List (List UInt8)) : (handle_reads store (r :: reads)).executed ≠ [] := by
  rw [handle_reads]
  cases hparse : parse r with
  | set key val => simp [command_t.is_request]
  | get key => simp [command_t.is_request]
  | _ => simp [hparse, command_t.is_request] at hr

/-- The segmentation into single bytes. -/
def byte_reads (stream : List UInt8) : Segmentation stream (BUF_SIZE - 1) where
  reads := single_bytes stream
  nonempty := by simp [single_bytes]
  fits := by simp [single_bytes, BUF_SIZE]
  complete := single_bytes_flatten stream

/-- The segmentation into single bytes, but for one stretch that is read at once. -/
def stretch_reads (before r after : List UInt8) (hr : r ≠ []) (hfits : r.length ≤ BUF_SIZE - 1) :
    Segmentation (before ++ r ++ after) (BUF_SIZE - 1) where
  reads := single_bytes before ++ r :: single_bytes after
  nonempty := by
    intro s hs
    simp only [single_bytes, List.mem_append, List.mem_cons, List.mem_map] at hs
    obtain ⟨c, -, rfl⟩ | rfl | ⟨c, -, rfl⟩ := hs
    · simp
    · exact hr
    · simp
  fits := by
    intro s hs
    simp only [single_bytes, List.mem_append, List.mem_cons, List.mem_map] at hs
    obtain ⟨c, -, rfl⟩ | rfl | ⟨c, -, rfl⟩ := hs
    · simp [BUF_SIZE]
    · exact hfits
    · simp [BUF_SIZE]
  complete := by simp [single_bytes_flatten]

/-- What a session does depends only on the stream, exactly if no stretch of it that fits
into a read is taken for a request. -/
theorem segmentation_independent_iff (stream : List UInt8) :
    (∀ (store : List KVPair) (a b : Segmentation stream (BUF_SIZE - 1)),
      (client_handler store a.reads).executed = (client_handler store b.reads).executed ∧
        (client_handler store a.reads).store = (client_handler store b.reads).store) ↔
    ∀ r, r <:+: stream → r ≠ [] → r.length ≤ BUF_SIZE - 1 → (parse r).is_request = false := by
  constructor
  · rintro hall r ⟨before, after, rfl⟩ hr hfits
    by_contra hrequest
    obtain ⟨hexecuted, -⟩ := hall [] (stretch_reads before r after hr hfits) (byte_reads _)
    have hnone := (handle_single_bytes [] (before ++ r ++ after)).1
    have hsome := handle_request (by simpa using hrequest) [] (single_bytes after)
    rw [← handle_single_bytes_append [] before] at hsome
    exact hsome (hexecuted.trans hnone)
  · intro hall store a b
    have hquiet (a : Segmentation stream (BUF_SIZE - 1)) : ∀ r ∈ a.reads, (parse r).is_request = false := by
      intro r hr
      have hwithin : r <:+: stream := a.complete ▸ List.infix_of_mem_flatten hr
      exact hall r hwithin (a.nonempty r hr) (a.fits r hr)
    have ha := handle_reads_of_none (hquiet a) store
    have hb := handle_reads_of_none (hquiet b) store
    exact ⟨ha.1.trans hb.1.symm, ha.2.trans hb.2.symm⟩

/-- `"SET a 1\n"`. -/
def set_stream : List UInt8 := SET ++ [97, 32, 49, NEWLINE]

/-- The line in one read. -/
def whole_line : Segmentation set_stream (BUF_SIZE - 1) where
  reads := [set_stream]
  nonempty := by decide
  fits := by decide
  complete := rfl

/-- The line cut after its key. -/
def cut_after_key : Segmentation set_stream (BUF_SIZE - 1) where
  reads := [SET ++ [97], [32, 49, NEWLINE]]
  nonempty := by decide
  fits := by decide
  complete := rfl

theorem segmentation_matters :
    ¬ ∀ (store : List KVPair) (a b : Segmentation set_stream (BUF_SIZE - 1)),
      (client_handler store a.reads).executed = (client_handler store b.reads).executed ∧
        (client_handler store a.reads).store = (client_handler store b.reads).store := by
  intro hall
  have hexecuted := (hall [] whole_line cut_after_key).1
  have hwhole : (client_handler [] whole_line.reads).executed = [.set [97] [49]] := by decide
  have hcut : (client_handler [] cut_after_key.reads).executed = [] := by decide
  rw [hwhole, hcut] at hexecuted
  cases hexecuted

end csystems.key_value_store.server
