import CSystems.CrashRecovery.WalFile
import CSystems.CrashRecovery.Truncation

open clib.bytes clib.file

namespace csystems.crash_recovery

/-- The surroundings of a replay loop in which every `msync` succeeds. -/
def os_ok (stack : Nat → Vector UInt8 16) (i : Nat) : replay_env := { stack := stack i, msync_ok := true }

/-- One `write_wal_entry` call that succeeds completely. With `applied`, the
process goes on to apply the record, as `insert_record` does. -/
structure append_t where
  padding : Vector UInt8 4
  env : call_env
  record : record_t
  applied : Bool

def append_t.entry (append : append_t) : wal_entry_t := make_wal_entry append.env append.record

def append_step (files : files_t) (append : append_t) : files_t :=
  let files := append_entry append.padding append.env files append.record
  if append.applied then { files with slots := (apply_to_database true files.slots append.record).1 } else files

/-- The WAL of a crash in the middle of `write_wal_entry`. -/
def torn_files (slots : slots_t) (complete : List (Vector UInt8 4 × wal_entry_t)) (torn : List UInt8) : files_t :=
  { slots, wal := entries_bytes complete ++ torn }

/-- One iteration of the replay loop reads the bytes at the offset. They are the
entry, its checksum matches, and it is applied or found already applied. -/
def ReadIntact (env : Nat → replay_env) (files : files_t) (offset : Nat) (entry : wal_entry_t) : Prop :=
  ∃ i, offset = i * sizeof_wal_entry ∧ (read_entries ⟨files.wal, 0⟩)[i]? = some entry ∧
    checksum_matches (env i).stack entry = true ∧
    (already_applied (replay_loop env 0 (files.slots, 0) ((read_entries ⟨files.wal, 0⟩).take i)).1 entry.data = true ∨
      (apply_to_database (env i).msync_ok
        (replay_loop env 0 (files.slots, 0) ((read_entries ⟨files.wal, 0⟩).take i)).1 entry.data).2 = 0)

/-- After a startup recovery and further appends, the next run reads each entry
that was appended, where it was appended. -/
def LaterReadIntact (first second : Nat → Vector UInt8 16) (files : files_t) (later : List append_t) : Prop :=
  ∀ k, ∀ hk : k < later.length,
    ReadIntact (os_ok second) (later.foldl append_step (recover_files (os_ok first) files).1)
      ((recover_files (os_ok first) files).1.wal.length + k * sizeof_wal_entry) later[k].entry

theorem wal_foldl_append_step (later : List append_t) (files : files_t) :
    (later.foldl append_step files).wal =
      files.wal ++ entries_bytes (later.map fun append => (append.padding, append.entry)) := by
  induction later generalizing files with
  | nil => simp [entries_bytes]
  | cons append rest ih =>
    have hstep : (append_step files append).wal = files.wal ++ entry_bytes append.padding append.entry := by
      unfold append_step
      split <;> rfl
    rw [List.foldl_cons, ih, hstep, List.append_assoc]
    rfl

theorem EnoughRoom.appended {ids : List Int32} {later : List append_t} (files : files_t)
    (h : EnoughRoom files.slots ids) (hids : ∀ append ∈ later, append.record.id ∈ ids) :
    EnoughRoom (later.foldl append_step files).slots ids := by
  induction later generalizing files with
  | nil => exact h
  | cons append rest ih =>
    refine ih (append_step files append) ?_ fun a ha => hids a (by simp [ha])
    unfold append_step
    split
    · exact h.applied (hids append (by simp)) true
    · exact h

/-- Entries that start at a multiple of the entry size, behind complete entries
only, are read intact while there is room for the records. -/
theorem later_read_intact_of_aligned {slots : slots_t} (complete : List (Vector UInt8 4 × wal_entry_t))
    {ids : List Int32} {later : List append_t} (hroom : EnoughRoom slots ids)
    (hcomplete : ∀ record ∈ valid_records (complete.map Prod.snd), record.id ∈ ids)
    (hlater : ∀ append ∈ later, append.record.id ∈ ids) (second : Nat → Vector UInt8 16) {k : Nat}
    (hk : k < later.length) :
    ReadIntact (os_ok second) (later.foldl append_step { slots, wal := entries_bytes complete })
      ((entries_bytes complete).length + k * sizeof_wal_entry) later[k].entry := by
  have hentries : read_entries ⟨(later.foldl append_step { slots, wal := entries_bytes complete }).wal, 0⟩ =
      complete.map Prod.snd ++ later.map append_t.entry := by
    have hbytes : (later.foldl append_step { slots, wal := entries_bytes complete }).wal =
        entries_bytes (complete ++ later.map fun append => (append.padding, append.entry)) ++ [] := by
      rw [wal_foldl_append_step]
      simp [entries_bytes]
    rw [hbytes, read_entries_bytes _ (by simp [sizeof_wal_entry])]
    simp
  have hrecords : ∀ record ∈ valid_records
      ((complete.map Prod.snd ++ later.map append_t.entry).take (complete.length + k)), record.id ∈ ids := by
    intro record hrecord
    obtain ⟨entry, hmem, hvalid, rfl⟩ := mem_valid_records.mp hrecord
    rcases List.mem_append.mp (List.mem_of_mem_take hmem) with hmem | hmem
    · exact hcomplete _ (mem_valid_records.mpr ⟨entry, hmem, hvalid, rfl⟩)
    · obtain ⟨append, happend, rfl⟩ := List.mem_map.mp hmem
      exact hlater append happend
  refine ⟨complete.length + k, ?_, ?_, ?_, ?_⟩
  · rw [length_entries_bytes, Nat.add_mul]
  · rw [hentries, List.getElem?_append_right (by simp)]
    simp [hk]
  · rw [checksum_matches_eq]
    exact decide_eq_true (make_wal_entry_valid _ _)
  · right
    have hroom := EnoughRoom.appended { slots, wal := entries_bytes complete } hroom hlater
    rw [hentries, replay_loop_slots]
    exact (hroom.replay hrecords).accepted (hlater _ (List.getElem_mem hk))

/-- Records that are applied already are all skipped. -/
theorem foldl_replay_applied {slots : slots_t} {records : List record_t}
    (happlied : ∀ record ∈ records, already_applied slots record = true) :
    records.foldl replay_record slots = slots := by
  induction records with
  | nil => rfl
  | cons record rest ih =>
    have hskip : replay_record slots record = slots := if_pos (happlied record (by simp))
    rw [List.foldl_cons, hskip]
    exact ih fun r hr => happlied r (by simp [hr])

/-- With room for the records, recovery replays something exactly if some valid
entry is not in the database yet. -/
theorem replays_iff_pending {slots : slots_t} {wal : List wal_entry_t} {ids : List Int32}
    (hroom : EnoughRoom slots ids) (hids : ∀ record ∈ valid_records wal, record.id ∈ ids)
    (stack : Nat → Vector UInt8 16) :
    0 < (replay_loop (os_ok stack) 0 (slots, 0) wal).2 ↔
      ∃ entry ∈ wal, ChecksumValid entry ∧ already_applied slots entry.data = false := by
  have hcounts := replay_loop_counts_iff (os_ok stack) 0 (slots, 0) wal
  rw [hcounts]
  constructor
  · rintro ⟨i, hi, hvalid, hpending, -⟩
    by_contra hnone
    have happlied : ∀ entry ∈ wal, ChecksumValid entry → already_applied slots entry.data = true := by
      intro entry hentry hvalid
      by_contra hnot
      exact hnone ⟨entry, hentry, hvalid, by simpa using hnot⟩
    have hbefore : ∀ record ∈ valid_records (wal.take i), already_applied slots record = true := by
      intro record hrecord
      obtain ⟨entry, hmem, hvalid, rfl⟩ := mem_valid_records.mp hrecord
      exact happlied entry (List.mem_of_mem_take hmem) hvalid
    rw [foldl_replay_applied hbefore, happlied _ (List.getElem_mem hi) hvalid] at hpending
    exact absurd hpending (by decide)
  · rintro ⟨entry, hentry, hvalid, hpending⟩
    have hfind : (wal.find? fun e => decide (ChecksumValid e) && !already_applied slots e.data).isSome := by
      rw [List.find?_isSome]
      exact ⟨entry, hentry, by simp [hvalid, hpending]⟩
    obtain ⟨first, hfirst⟩ := Option.isSome_iff_exists.mp hfind
    obtain ⟨hpending, front, back, rfl, hfront⟩ := List.find?_eq_some_iff_append.mp hfirst
    simp only [Bool.and_eq_true, decide_eq_true_eq, Bool.not_eq_true'] at hpending
    -- the entries before the first pending one leave the slots as they are
    have hbefore : ∀ record ∈ valid_records front, already_applied slots record = true := by
      intro record hrecord
      obtain ⟨e, hmem, hvalid, rfl⟩ := mem_valid_records.mp hrecord
      simpa [hvalid] using hfront e hmem
    have hid : first.data.id ∈ ids := hids _ (mem_valid_records.mpr ⟨first, by simp, hpending.1, rfl⟩)
    have hslot : HasId slots first.data.id ∨ ¬ Full slots := by
      by_cases hhas : HasId slots first.data.id
      · exact Or.inl hhas
      · exact Or.inr (hroom.not_full hid hhas)
    refine ⟨front.length, by simp, ?_⟩
    simp only [List.take_left, foldl_replay_applied hbefore, List.getElem_append_right (Nat.le_refl _), Nat.sub_self,
      List.getElem_cons_zero]
    exact ⟨hpending.1, hpending.2, hslot, rfl⟩

/-- Recovery stops in front of a torn tail. It keeps the tail if it has replayed
nothing. -/
theorem recover_torn_files (slots : slots_t) (complete : List (Vector UInt8 4 × wal_entry_t)) {torn : List UInt8}
    (hshort : torn.length < sizeof_wal_entry) (stack : Nat → Vector UInt8 16) :
    (recover_files (os_ok stack) (torn_files slots complete torn)).1 =
      { slots := (valid_records (complete.map Prod.snd)).foldl replay_record slots
        wal := if 0 < (replay_loop (os_ok stack) 0 (slots, 0) (complete.map Prod.snd)).2 then []
          else entries_bytes complete ++ torn } := by
  have hread := read_entries_bytes complete hshort
  have hslots := replay_loop_slots (os_ok stack) 0 (slots, 0) (complete.map Prod.snd)
  simp [recover_files, torn_files, clib.file.lseek, hread, hslots]

/-- A torn WAL tail poisons every later entry unless there is no torn tail, no
later entry, or the startup recovery replays something, so that it clears the
WAL with the torn tail in it. -/
theorem later_read_intact_iff (slots : slots_t) (complete : List (Vector UInt8 4 × wal_entry_t)) (torn : List UInt8)
    (htorn : ∃ padding entry, torn <+: entry_bytes padding entry ∧ torn ≠ entry_bytes padding entry)
    (later : List append_t)
    (hroom : EnoughRoom slots
      ((valid_records (complete.map Prod.snd)).map record_t.id ++ later.map fun append => append.record.id))
    (first second : Nat → Vector UInt8 16) :
    LaterReadIntact first second (torn_files slots complete torn) later ↔
      torn = [] ∨ later = [] ∨
        ∃ entry ∈ complete.map Prod.snd, ChecksumValid entry ∧ already_applied slots entry.data = false := by
  obtain ⟨padding, entry, hfront, hne⟩ := htorn
  have hshort : torn.length < sizeof_wal_entry := by
    rw [← length_entry_bytes padding entry]
    exact Nat.lt_of_le_of_ne hfront.length_le fun h => hne (hfront.eq_of_length h)
  have hvalid : ∀ record ∈ valid_records (complete.map Prod.snd), record.id ∈
      (valid_records (complete.map Prod.snd)).map record_t.id ++ later.map fun append => append.record.id :=
    fun record hrecord => List.mem_append_left _ (List.mem_map_of_mem hrecord)
  have hlater : ∀ append ∈ later, append.record.id ∈
      (valid_records (complete.map Prod.snd)).map record_t.id ++ later.map fun append => append.record.id :=
    fun append happend => List.mem_append_right _ (List.mem_map_of_mem happend)
  generalize (valid_records (complete.map Prod.snd)).map record_t.id ++
    later.map (fun append => append.record.id) = ids at hroom hvalid hlater
  have hpending := replays_iff_pending hroom hvalid first
  have hroom := hroom.replay hvalid
  unfold LaterReadIntact
  rw [recover_torn_files slots complete hshort]
  by_cases hreplayed : 0 < (replay_loop (os_ok first) 0 (slots, 0) (complete.map Prod.snd)).2
  · rw [if_pos hreplayed]
    refine iff_of_true (fun k hk => ?_) (Or.inr (Or.inr (hpending.mp hreplayed)))
    exact later_read_intact_of_aligned [] hroom (by simp [valid_records]) hlater second hk
  · rw [if_neg hreplayed, ← hpending]
    by_cases hempty : torn = []
    · rw [hempty, List.append_nil]
      refine iff_of_true (fun k hk => ?_) (Or.inl rfl)
      exact later_read_intact_of_aligned complete hroom hvalid hlater second hk
    · cases later with
      | nil => exact iff_of_true (fun k hk => absurd hk (by simp)) (Or.inr (Or.inl rfl))
      | cons append rest =>
        refine iff_of_false (fun hintact => ?_) (by simp [hempty, hreplayed])
        obtain ⟨i, hoffset, -⟩ := hintact 0 (by simp)
        -- the first later entry does not start at a multiple of the entry size
        have hpositive : 0 < torn.length := List.length_pos_iff.mpr hempty
        simp only [List.length_append, length_entries_bytes, sizeof_wal_entry] at hoffset hshort
        omega

def demo_append (id : Int32) : append_t where
  padding := Vector.replicate 4 9
  env := { time := 0, stack := Vector.replicate 16 7 }
  record := new_record id [65]
  applied := true

/-- The database is new, its WAL has one entry pending and a torn one behind it,
and one more is written after the startup recovery. -/
theorem later_read_intact_pending :
    LaterReadIntact (fun _ => Vector.replicate 16 9) (fun _ => Vector.replicate 16 9)
      (torn_files (Vector.replicate MAX_RECORDS zero_record)
        [((demo_append 1).padding, (demo_append 1).entry)]
        ((entry_bytes (demo_append 2).padding (demo_append 2).entry).take 3)) [demo_append 3] := by
  refine (later_read_intact_iff _ _ _ ⟨_, _, List.take_prefix 3 _, ?_⟩ _ ?_ _ _).mpr (Or.inr (Or.inr ?_))
  · intro h
    have hlength := congrArg List.length h
    simp [sizeof_wal_entry] at hlength
  · decide +kernel
  · exact ⟨_, List.mem_singleton_self _, make_wal_entry_valid _ _, by decide +kernel⟩

/-- The WAL holds nothing but three bytes of an entry: the startup recovery
leaves them, and the entry written next is not read back. -/
theorem later_read_intact_fails :
    ((entry_bytes (demo_append 2).padding (demo_append 2).entry).take 3 ≠
      entry_bytes (demo_append 2).padding (demo_append 2).entry) ∧
    EnoughRoom (Vector.replicate MAX_RECORDS zero_record) [(demo_append 3).record.id] ∧
    ¬ LaterReadIntact (fun _ => Vector.replicate 16 9) (fun _ => Vector.replicate 16 9)
      (torn_files (Vector.replicate MAX_RECORDS zero_record) []
        ((entry_bytes (demo_append 2).padding (demo_append 2).entry).take 3)) [demo_append 3] := by
  have hlength : ((entry_bytes (demo_append 2).padding (demo_append 2).entry).take 3).length = 3 := by
    simp [sizeof_wal_entry]
  refine ⟨fun h => ?_, by decide +kernel, fun hintact => ?_⟩
  · rw [h, length_entry_bytes] at hlength
    exact absurd hlength (by decide)
  · obtain ⟨i, hoffset, -⟩ := hintact 0 (by simp)
    have hshort : ((entry_bytes (demo_append 2).padding (demo_append 2).entry).take 3).length < sizeof_wal_entry := by
      rw [hlength]
      decide
    rw [recover_torn_files _ [] hshort, show (replay_loop _ 0 _ (List.map Prod.snd [])).2 = 0 from rfl,
      if_neg (by decide)] at hoffset
    simp only [entries_bytes, List.flatMap_nil, List.nil_append, hlength, sizeof_wal_entry] at hoffset
    omega

end csystems.crash_recovery
