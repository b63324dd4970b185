import CSystems.CrashRecovery.Contents

open clib.string clib.scan

namespace csystems.crash_recovery

/-- The files of a database that has lost nothing: all but possibly the last
logged record are in their slots, and the last one is at the end of the WAL. -/
structure Consistent (disk : disk_t) (logged : List record_t) (applied : Nat) : Prop where
  numbered : Numbered logged
  holds : Holds disk.slots (logged.take applied)
  applied_le : applied ≤ logged.length
  length_le : logged.length ≤ applied + 1
  valid : ∀ entry ∈ disk.wal, ChecksumValid entry
  wal : ∃ front back, disk.wal = front ++ back ∧
    (∀ entry ∈ front, entry.data ∈ logged.take applied) ∧ back.map wal_entry_t.data = logged.drop applied

/-- The context of a process that has caught up with the log. -/
structure Ready (ctx : db_context_t) (logged : List record_t) : Prop where
  numbered : Numbered logged
  holds : Holds ctx.db_mmap logged
  valid : ∀ entry ∈ ctx.wal, ChecksumValid entry
  wal : ∀ entry ∈ ctx.wal, entry.data ∈ logged

theorem make_wal_entry_valid (env : call_env) (record : record_t) :
    ChecksumValid (make_wal_entry env record) :=
  c_str_calculate_checksum record env.stack

private theorem foldl_next_id {records : List record_t} {start : Nat}
    (hids : ∀ i (hi : i < records.length), records[i].active ≠ 0 ∧ records[i].id = Int32.ofNat (start + i)) :
    records.foldl (fun next_id slot =>
      if slot.active ≠ 0 ∧ slot.id ≥ next_id then slot.id + 1 else next_id) (Int32.ofNat start) =
      Int32.ofNat (start + records.length) := by
  induction records generalizing start with
  | nil => rfl
  | cons record rest ih =>
    have hfirst := hids 0 (by simp)
    simp only [List.getElem_cons_zero, Nat.add_zero] at hfirst
    rw [List.foldl_cons, if_pos ⟨hfirst.1, by rw [hfirst.2]; exact Int32.le_refl _⟩, hfirst.2]
    have hnext : Int32.ofNat start + 1 = Int32.ofNat (start + 1) := by rw [Int32.ofNat_add]; rfl
    rw [hnext, ih, List.length_cons, Nat.add_assoc, Nat.add_comm 1]
    intro i hi
    have hi' := hids (i + 1) (by simpa using hi)
    simpa [Nat.add_assoc, Nat.add_comm 1] using hi'

private theorem foldl_zero_records (count : Nat) (id : Int32) :
    (List.replicate count zero_record).foldl (fun next_id slot =>
      if slot.active ≠ 0 ∧ slot.id ≥ next_id then slot.id + 1 else next_id) id = id := by
  induction count with
  | zero => rfl
  | succ count ih => simpa [List.replicate_succ, zero_record] using ih

/-- The identifier computed by `init_database` follows the applied records. -/
theorem Holds.next_id {disk : disk_t} {records : List record_t} (hholds : Holds disk.slots records)
    (hnumbered : Numbered records) :
    (init_database disk).next_id = Int32.ofNat (records.length + 1) := by
  have hids : ∀ i (hi : i < records.length),
      records[i].active ≠ 0 ∧ records[i].id = Int32.ofNat (1 + i) := by
    intro i hi
    rw [Nat.add_comm]
    exact ⟨(hnumbered i hi).2.active_ne_zero, (hnumbered i hi).1⟩
  unfold init_database
  dsimp only
  rw [← Vector.foldl_toList, hholds, List.foldl_append]
  have hfold := foldl_next_id hids
  rw [show Int32.ofNat 1 = 1 from rfl] at hfold
  rw [hfold, foldl_zero_records, Nat.add_comm]

private theorem replay_loop_append (env : Nat → replay_env) (i : Nat) (state : slots_t × Nat)
    (front back : List wal_entry_t) :
    replay_loop env i state (front ++ back) =
      replay_loop env (i + front.length) (replay_loop env i state front) back := by
  induction front generalizing i state with
  | nil => rfl
  | cons entry rest ih =>
    simp only [List.cons_append, replay_loop, ih, List.length_cons]
    rw [Nat.add_assoc, Nat.add_comm 1]

private theorem replay_loop_applied {slots : slots_t} {records : List record_t} (hholds : Holds slots records)
    (hlogged : ∀ r ∈ records, Logged r) (env : Nat → replay_env) (count : Nat) {front : List wal_entry_t}
    (hfront : ∀ entry ∈ front, entry.data ∈ records) (i : Nat) :
    replay_loop env i (slots, count) front = (slots, count) := by
  induction front generalizing i with
  | nil => rfl
  | cons entry rest ih =>
    have hmem := hfront entry (by simp)
    have happlied := hholds.already_applied (hlogged _ hmem) hmem
    have hstep : replay_entry (env i) (slots, count) entry = (slots, count) := by
      simp [replay_entry, happlied]
    rw [replay_loop, hstep]
    exact ih (fun e he => hfront e (by simp [he])) (i + 1)

/-- Replay skips the entries of applied records. -/
theorem Consistent.replay_loop_eq {disk : disk_t} {logged : List record_t} {applied : Nat}
    (hdisk : Consistent disk logged applied) (env : Nat → replay_env) :
    ∃ i back, back.map wal_entry_t.data = logged.drop applied ∧ (∀ entry ∈ back, ChecksumValid entry) ∧
      replay_loop env 0 (disk.slots, 0) disk.wal = replay_loop env i (disk.slots, 0) back := by
  obtain ⟨front, back, hwal, hfront, hback⟩ := hdisk.wal
  refine ⟨0 + front.length, back, hback, fun entry he => hdisk.valid entry (by simp [hwal, he]), ?_⟩
  rw [hwal, replay_loop_append,
    replay_loop_applied hdisk.holds (hdisk.numbered.take applied).logged env 0 hfront]

/-- The first unapplied record has an identifier that is not in the database. -/
theorem Consistent.pending_new {disk : disk_t} {logged : List record_t} {applied : Nat}
    (hdisk : Consistent disk logged applied) (hbound : logged.length ≤ MAX_RECORDS)
    (hlt : applied < logged.length) :
    ¬ ∃ r ∈ logged.take applied, r.id = (logged[applied]).id := by
  have hlength : (logged.take applied).length = applied := List.length_take_of_le hdisk.applied_le
  have hnew := (hdisk.numbered.take applied).next_new (by omega)
  rwa [hlength, ← (hdisk.numbered applied hlt).1] at hnew

/-- A pending record is replayed into the first free slot. -/
theorem Consistent.replay_pending {disk : disk_t} {logged : List record_t} {applied : Nat}
    (hdisk : Consistent disk logged applied) (hbound : logged.length ≤ MAX_RECORDS)
    (hlt : applied < logged.length) (stack : Nat → Vector UInt8 16) :
    ∃ slots, replay_loop (fun i => { stack := stack i, msync_ok := true }) 0 (disk.slots, 0) disk.wal =
      (slots, 1) ∧ Holds slots logged := by
  obtain ⟨i, back, hback, hvalid, hloop⟩ :=
    hdisk.replay_loop_eq fun i => { stack := stack i, msync_ok := true }
  have hlast : logged.drop applied = [logged[applied]] := by
    have hlength := hdisk.length_le
    rw [List.drop_eq_getElem_cons hlt, List.drop_eq_nil_of_le (by omega)]
  obtain ⟨entry, rfl, hdata⟩ : ∃ entry, back = [entry] ∧ entry.data = logged[applied] := by
    rw [hlast] at hback
    cases back with
    | nil => simp at hback
    | cons entry rest => exact ⟨entry, by simp_all, by simp_all⟩
  have hlogged := (hdisk.numbered.take applied).logged
  have hroom : (logged.take applied).length < MAX_RECORDS := by
    rw [List.length_take]
    omega
  have hnew : ¬ ∃ r ∈ logged.take applied, r.id = entry.data.id := by
    rw [hdata]
    exact hdisk.pending_new hbound hlt
  have hnot : ¬ already_applied disk.slots entry.data = true := by
    intro happlied
    obtain ⟨i, hi, hiid, -⟩ := already_applied_iff.mp happlied
    exact hnew ((hdisk.holds.hasId_iff hlogged _).mp ⟨i, hi, hiid⟩)
  have happly := hdisk.holds.apply_to_database hlogged hroom hnew
  have hall : logged.take applied ++ [entry.data] = logged := by
    rw [hdata, ← hlast, List.take_append_drop]
  refine ⟨disk.slots.set (logged.take applied).length entry.data, ?_, ?_⟩
  · rw [hloop]
    simp only [replay_loop, replay_entry, checksum_matches_eq, hvalid entry (by simp), decide_true,
      Bool.not_true, Bool.false_eq_true, if_false, hnot, happly]
    rfl
  · have hholds := holds_append hdisk.holds hroom entry.data
    rwa [hall] at hholds

/-- Without a pending record, replay changes nothing. -/
theorem Consistent.replay_none {disk : disk_t} {logged : List record_t}
    (hdisk : Consistent disk logged logged.length) (env : Nat → replay_env) :
    replay_loop env 0 (disk.slots, 0) disk.wal = (disk.slots, 0) := by
  obtain ⟨i, back, hback, -, hloop⟩ := hdisk.replay_loop_eq env
  rw [List.drop_length, List.map_eq_nil_iff] at hback
  rw [hloop, hback]
  rfl

/-- Startup recovery catches up with the log. The identifier counter still
follows the records that were in the database before the replay. -/
theorem Consistent.startup_ready {disk : disk_t} {logged : List record_t} {applied : Nat}
    (hdisk : Consistent disk logged applied) (hbound : logged.length ≤ MAX_RECORDS)
    (stack : Nat → Vector UInt8 16) :
    Ready (startup stack disk) logged ∧ (startup stack disk).next_id = Int32.ofNat (applied + 1) := by
  have hnext : (startup stack disk).next_id = Int32.ofNat (applied + 1) := by
    have hlength : (logged.take applied).length = applied := List.length_take_of_le hdisk.applied_le
    rw [← hlength, ← hdisk.holds.next_id (hdisk.numbered.take applied)]
    rfl
  refine ⟨?_, hnext⟩
  rcases Nat.lt_or_eq_of_le hdisk.applied_le with hlt | rfl
  · obtain ⟨slots, hreplay, hholds⟩ := hdisk.replay_pending hbound hlt stack
    have hctx : startup stack disk = { init_database disk with db_mmap := slots, wal := [] } := by
      simp [startup, recover_from_wal, init_database, hreplay]
    rw [hctx]
    exact ⟨hdisk.numbered, hholds, by simp, by simp⟩
  · have hreplay := hdisk.replay_none fun i => { stack := stack i, msync_ok := true }
    have hctx : startup stack disk = init_database disk := by
      simp [startup, recover_from_wal, init_database, hreplay]
    have hholds := hdisk.holds
    obtain ⟨front, back, hwal, hfront, hback⟩ := hdisk.wal
    rw [List.drop_length, List.map_eq_nil_iff] at hback
    subst hback
    rw [List.take_length] at hholds hfront
    rw [hctx]
    refine ⟨hdisk.numbered, hholds, hdisk.valid, ?_⟩
    intro entry he
    exact hfront entry (by simpa [init_database, hwal] using he)

/-- In a database that has lost nothing, the WAL entries are all applied exactly
when all logged records are. -/
theorem Consistent.nothingPending_iff {disk : disk_t} {logged : List record_t} {applied : Nat}
    (hdisk : Consistent disk logged applied) (hbound : logged.length ≤ MAX_RECORDS) :
    NothingPending disk ↔ applied = logged.length := by
  have hlogged := (hdisk.numbered.take applied).logged
  obtain ⟨front, back, hwal, hfront, hback⟩ := hdisk.wal
  constructor
  · intro hnone
    by_contra hne
    have hlt : applied < logged.length := Nat.lt_of_le_of_ne hdisk.applied_le hne
    have hmem : logged[applied] ∈ back.map wal_entry_t.data := by
      rw [hback, List.drop_eq_getElem_cons hlt]
      exact List.mem_cons_self
    obtain ⟨entry, he, hdata⟩ := List.mem_map.mp hmem
    have hentry : entry ∈ disk.wal := by simp [hwal, he]
    obtain ⟨i, hi, hid, -⟩ := already_applied_iff.mp (hnone entry hentry (hdisk.valid entry hentry))
    rw [hdata] at hid
    exact hdisk.pending_new hbound hlt ((hdisk.holds.hasId_iff hlogged _).mp ⟨i, hi, hid⟩)
  · intro heq entry he _
    rw [heq, List.drop_length, List.map_eq_nil_iff] at hback
    subst hback
    have hmem := hfront entry (by simpa [hwal] using he)
    exact hdisk.holds.already_applied (hlogged _ hmem) hmem

/-- A successful insertion by a process that counts on from the log. -/
theorem Ready.insert_call {ctx : db_context_t} {logged : List record_t} (hready : Ready ctx logged)
    (hnext : ctx.next_id = Int32.ofNat (logged.length + 1)) (hroom : logged.length < MAX_RECORDS)
    (call : call_t) :
    Ready (insert_record ctx call.env call.name).1 (logged ++ [new_record ctx.next_id call.name]) := by
  have hnumbered := hready.numbered.append_numbered [call.name]
  simp only [numbered_records, ← hnext] at hnumbered
  have hnew : ¬ ∃ r ∈ logged, r.id = (new_record ctx.next_id call.name).id := by
    have h := hready.numbered.next_new hroom
    rwa [← hnext] at h
  have happly := hready.holds.apply_to_database hready.numbered.logged hroom hnew
  have hctx : (insert_record ctx call.env call.name).1 =
      { db_mmap := ctx.db_mmap.set logged.length (new_record ctx.next_id call.name)
        wal := ctx.wal ++ [make_wal_entry call.env (new_record ctx.next_id call.name)]
        next_id := ctx.next_id + 1 } := by
    simp [insert_record, write_wal_entry, happly]
  rw [hctx]
  refine ⟨hnumbered, holds_append hready.holds hroom _, ?_, ?_⟩
  · intro entry he
    rcases List.mem_append.mp he with he | he
    · exact hready.valid entry he
    · rw [List.mem_singleton.mp he]
      exact make_wal_entry_valid call.env _
  · intro entry he
    rcases List.mem_append.mp he with he | he
    · exact List.mem_append_left _ (hready.wal entry he)
    · rw [List.mem_singleton.mp he]
      simp [make_wal_entry]

theorem Ready.insert_calls {ctx : db_context_t} {logged : List record_t} (hready : Ready ctx logged)
    (hnext : ctx.next_id = Int32.ofNat (logged.length + 1)) (calls : List call_t)
    (hroom : logged.length + calls.length ≤ MAX_RECORDS) :
    Ready (insert_all ctx calls) (logged ++ numbered_records ctx.next_id (calls.map call_t.name)) := by
  induction calls generalizing ctx logged with
  | nil => simpa [insert_all, numbered_records] using hready
  | cons call rest ih =>
    simp only [List.length_cons] at hroom
    have hstep := hready.insert_call hnext (by omega) call
    have hnext' : (insert_record ctx call.env call.name).1.next_id = ctx.next_id + 1 := rfl
    have hrest := ih hstep
      (by rw [hnext', hnext, List.length_append, List.length_singleton, Int32.ofNat_add (logged.length + 1)]; rfl)
      (by simp only [List.length_append, List.length_singleton]; omega)
    rw [hnext', List.append_assoc] at hrest
    exact hrest

/-- The files left by a process that exits after its last insertion. -/
theorem Ready.consistent {ctx : db_context_t} {logged : List record_t} (hready : Ready ctx logged) :
    Consistent { slots := ctx.db_mmap, wal := ctx.wal } logged logged.length := by
  refine ⟨hready.numbered, ?_, Nat.le_refl _, Nat.le_succ _, hready.valid, ctx.wal, [], by simp, ?_, by simp⟩
  · rw [List.take_length]
    exact hready.holds
  · rw [List.take_length]
    exact hready.wal

/-- The files left by a process that crashes after one more WAL write. -/
theorem Ready.consistent_crash {ctx : db_context_t} {logged : List record_t} (hready : Ready ctx logged)
    (hnext : ctx.next_id = Int32.ofNat (logged.length + 1)) (call : call_t) :
    Consistent { slots := (crash_after_wal ctx call.env call.name).db_mmap
                 wal := (crash_after_wal ctx call.env call.name).wal }
      (logged ++ [new_record ctx.next_id call.name]) logged.length := by
  have hnumbered := hready.numbered.append_numbered [call.name]
  simp only [numbered_records, ← hnext] at hnumbered
  refine ⟨hnumbered, ?_, by simp, by simp, ?_, ctx.wal,
    [make_wal_entry call.env (new_record ctx.next_id call.name)], rfl, ?_, ?_⟩
  · rw [List.take_left]
    exact hready.holds
  · intro entry he
    rcases List.mem_append.mp he with he | he
    · exact hready.valid entry he
    · rw [List.mem_singleton.mp he]
      exact make_wal_entry_valid call.env _
  · rw [List.take_left]
    exact hready.wal
  · rw [List.drop_left]
    rfl

/-- A process that counts on from the log keeps the files consistent, whether it
exits normally or crashes after its last WAL write. -/
theorem Ready.run_consistent {disk : disk_t} {run : run_t} {logged : List record_t}
    (hready : Ready (startup run.stack disk) logged)
    (hnext : (init_database disk).next_id = Int32.ofNat (logged.length + 1))
    (hroom : logged.length + run.names.length ≤ MAX_RECORDS) :
    ∃ applied, Consistent (run_process disk run) (logged ++ written_records disk run) applied := by
  have hlength : run.inserts.length ≤ run.names.length := by simp [run_t.names]
  have hinserted := hready.insert_calls hnext run.inserts (by omega)
  obtain ⟨entries, -, -, hcount⟩ := insert_all_wal (startup run.stack disk) run.inserts
  rw [show (startup run.stack disk).next_id = (init_database disk).next_id from rfl] at hinserted hcount
  rw [written_records_eq]
  cases hcrash : run.crash with
  | none =>
    have hmain : run_process disk run =
        { slots := (insert_all (startup run.stack disk) run.inserts).db_mmap
          wal := (insert_all (startup run.stack disk) run.inserts).wal } := by
      simp [run_process, run_main, hcrash]
    have hnames : run.names = run.inserts.map call_t.name := by simp [run_t.names, hcrash]
    rw [hmain, hnames]
    exact ⟨_, hinserted.consistent⟩
  | some call =>
    let ctx := insert_all (startup run.stack disk) run.inserts
    have hmain : run_process disk run =
        { slots := (crash_after_wal ctx call.env call.name).db_mmap
          wal := (crash_after_wal ctx call.env call.name).wal } := by
      simp [run_process, run_main, hcrash, ctx]
    have hnames : run.names = run.inserts.map call_t.name ++ [call.name] := by simp [run_t.names, hcrash]
    have hctx : ctx.next_id = Int32.ofNat
        ((logged ++ numbered_records (init_database disk).next_id (run.inserts.map call_t.name)).length + 1) := by
      rw [List.length_append, numbered_records_length, List.length_map, Nat.add_right_comm, Int32.ofNat_add,
        ← hnext]
      exact hcount
    have hfinal := hinserted.consistent_crash hctx call
    rw [List.append_assoc, hcount] at hfinal
    rw [hmain, hnames, numbered_records_append, List.length_map]
    exact ⟨_, hfinal⟩

end csystems.crash_recovery
