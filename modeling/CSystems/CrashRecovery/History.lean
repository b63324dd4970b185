import CSystems.CrashRecovery.Restart

open clib.string clib.scan

namespace csystems.crash_recovery

/-- One `insert_record` (or crash-after-wal) request of a process. -/
structure call_t where
  env : call_env
  name : List UInt8
  deriving DecidableEq, Repr

/-- One process: startup, any number of insertions, and possibly the
crash-after-wal path at the end. `stack` is the buffer seen by each iteration
of its replay loop. -/
structure run_t where
  stack : Nat → Vector UInt8 16
  inserts : List call_t
  crash : Option call_t

/-- The files of a freshly created database. -/
def new_disk : disk_t where
  slots := Vector.replicate MAX_RECORDS zero_record
  wal := []

/-- `init_database` followed by `recover_from_wal`, every OS call succeeding. -/
def startup (stack : Nat → Vector UInt8 16) (disk : disk_t) : db_context_t :=
  (recover_from_wal (fun i => { stack := stack i, msync_ok := true }) (init_database disk)).1

def insert_all (ctx : db_context_t) (calls : List call_t) : db_context_t :=
  calls.foldl (fun ctx call => (insert_record ctx call.env call.name).1) ctx

/-- The context in which the process `run` ends, normally or by its crash. -/
def run_main (disk : disk_t) (run : run_t) : db_context_t :=
  let ctx := insert_all (startup run.stack disk) run.inserts
  match run.crash with
  | none => ctx
  | some call => crash_after_wal ctx call.env call.name

/-- The files that the process `run` leaves behind. -/
def run_process (disk : disk_t) (run : run_t) : disk_t where
  slots := (run_main disk run).db_mmap
  wal := (run_main disk run).wal

/-- The records whose WAL entries the process writes: what its WAL has gained
since the end of the startup recovery. -/
def written_records (disk : disk_t) (run : run_t) : List record_t :=
  ((run_main disk run).wal.drop (startup run.stack disk).wal.length).map wal_entry_t.data

/-- The files after a sequence of processes on a new database, with all
records whose WAL entries were written on the way. -/
def history (runs : List run_t) : disk_t × List record_t :=
  runs.foldl (fun state run => (run_process state.1 run, state.2 ++ written_records state.1 run)) (new_disk, [])

/-- The record is an active one of the database, under its own identifier and
with its own name. -/
def Survives (slots : slots_t) (record : record_t) : Prop :=
  ∃ k : Fin MAX_RECORDS, (slots.get k).active ≠ 0 ∧ (slots.get k).id = record.id ∧ (slots.get k).name = record.name

instance (slots : slots_t) (record : record_t) : Decidable (Survives slots record) :=
  inferInstanceAs (Decidable (∃ _, _))

/-- Every logged record survives the startup recovery of one more process, and
no later record took its identifier. -/
def Durable (state : disk_t × List record_t) : Prop :=
  ∀ (stack : Nat → Vector UInt8 16) (i : Fin state.2.length),
    Survives (startup stack state.1).db_mmap (state.2.get i) ∧
    ∀ j : Fin state.2.length, i < j → (state.2.get j).id ≠ (state.2.get i).id

/-- The names a process logs, in order. -/
def run_t.names (run : run_t) : List (List UInt8) :=
  run.inserts.map call_t.name ++ run.crash.toList.map call_t.name

/-- Every checksum-valid entry of the WAL is already in the database. -/
def NothingPending (disk : disk_t) : Prop :=
  ∀ entry ∈ disk.wal, ChecksumValid entry → already_applied disk.slots entry.data = true

instance (disk : disk_t) : Decidable (NothingPending disk) := inferInstanceAs (Decidable (∀ _ ∈ _, _))

/-- No process of the sequence logs a record after it found, at its start, a
WAL entry that was not yet in the database. -/
def NoInsertAfterReplay (runs : List run_t) : Prop :=
  ∀ before run after, runs = before ++ run :: after →
    run.names = [] ∨ NothingPending (history before).1

/-- The records built for a list of names, with consecutive identifiers. -/
def numbered_records : Int32 → List (List UInt8) → List record_t
  | _, [] => []
  | id, name :: rest => new_record id name :: numbered_records (id + 1) rest

theorem numbered_records_append (id : Int32) (first second : List (List UInt8)) :
    numbered_records id (first ++ second) =
      numbered_records id first ++ numbered_records (id + Int32.ofNat first.length) second := by
  induction first generalizing id with
  | nil => simp [numbered_records]
  | cons name rest ih =>
    simp only [List.cons_append, numbered_records, ih, List.length_cons, Int32.ofNat_add]
    rw [Int32.add_assoc, Int32.add_comm 1]
    rfl

theorem numbered_records_length (id : Int32) (names : List (List UInt8)) :
    (numbered_records id names).length = names.length := by
  induction names generalizing id with
  | nil => rfl
  | cons name rest ih => simp [numbered_records, ih]

theorem history_append (runs : List run_t) (run : run_t) :
    history (runs ++ [run]) = (run_process (history runs).1 run,
      (history runs).2 ++ written_records (history runs).1 run) := by
  simp [history]

/-- Inserting extends the WAL by one valid entry per call, with consecutive
identifiers, whether or not the database accepts the records. -/
theorem insert_all_wal (ctx : db_context_t) (calls : List call_t) :
    ∃ entries, (insert_all ctx calls).wal = ctx.wal ++ entries ∧
      entries.map wal_entry_t.data = numbered_records ctx.next_id (calls.map call_t.name) ∧
      (insert_all ctx calls).next_id = ctx.next_id + Int32.ofNat calls.length := by
  induction calls generalizing ctx with
  | nil => exact ⟨[], by simp [insert_all], rfl, by simp [insert_all]⟩
  | cons call rest ih =>
    obtain ⟨entries, hwal, hdata, hnext⟩ := ih (insert_record ctx call.env call.name).1
    refine ⟨make_wal_entry call.env (new_record ctx.next_id call.name) :: entries, ?_, ?_, ?_⟩
    · simpa [insert_all, insert_record, write_wal_entry] using hwal
    · simpa [insert_record, write_wal_entry, make_wal_entry, numbered_records] using hdata
    · have hstep : (insert_record ctx call.env call.name).1.next_id = ctx.next_id + 1 := rfl
      rw [hstep, Int32.add_assoc, Int32.add_comm 1] at hnext
      rw [List.length_cons, Int32.ofNat_add]
      exact hnext

/-- A process writes one record per name, numbered from the identifier that
`init_database` computed before the replay. -/
theorem written_records_eq (disk : disk_t) (run : run_t) :
    written_records disk run = numbered_records (init_database disk).next_id run.names := by
  obtain ⟨entries, hwal, hdata, hnext⟩ := insert_all_wal (startup run.stack disk) run.inserts
  have hid : (startup run.stack disk).next_id = (init_database disk).next_id := rfl
  rw [hid] at hdata hnext
  unfold written_records run_main run_t.names
  cases run.crash with
  | none =>
    rw [hwal]
    simpa using hdata
  | some call =>
    simp only [crash_after_wal, write_wal_entry, hwal, hnext, List.append_assoc, List.drop_left,
      List.map_append, hdata, Option.toList_some, List.map_cons, List.map_nil, make_wal_entry]
    rw [numbered_records_append, List.length_map]
    rfl

end csystems.crash_recovery
