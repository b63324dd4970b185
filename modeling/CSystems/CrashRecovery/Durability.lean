import CSystems.CrashRecovery.Consistent

open clib.string clib.scan

namespace csystems.crash_recovery

/-- Some logged record's identifier is used again by a later one. -/
def IdReused (records : List record_t) : Prop :=
  ∃ i j : Fin records.length, i < j ∧ (records.get j).id = (records.get i).id

theorem IdReused.append {first : List record_t} (h : IdReused first) (second : List record_t) :
    IdReused (first ++ second) := by
  obtain ⟨i, j, hij, hid⟩ := h
  refine ⟨⟨i, by simp; omega⟩, ⟨j, by simp; omega⟩, hij, ?_⟩
  simpa [List.getElem_append_left i.isLt, List.getElem_append_left j.isLt] using hid

theorem Durable.not_idReused {state : disk_t × List record_t} (hdurable : Durable state) :
    ¬ IdReused state.2 := by
  rintro ⟨i, j, hij, hid⟩
  exact (hdurable (fun _ => Vector.replicate 16 0) i).2 j hij hid

theorem Durable.survives {state : disk_t × List record_t} (hdurable : Durable state) {record : record_t}
    (hlogged : record ∈ state.2) (stack : Nat → Vector UInt8 16) :
    Survives (startup stack state.1).db_mmap record := by
  obtain ⟨i, hi, rfl⟩ := List.getElem_of_mem hlogged
  exact (hdurable stack ⟨i, hi⟩).1

/-- Files that have lost nothing are durable. -/
theorem Consistent.durable {disk : disk_t} {logged : List record_t} {applied : Nat}
    (hdisk : Consistent disk logged applied) (hbound : logged.length ≤ MAX_RECORDS) :
    Durable (disk, logged) := by
  intro stack i
  obtain ⟨hready, -⟩ := hdisk.startup_ready hbound stack
  have hi : i.val < logged.length := i.isLt
  constructor
  · have hslot : (startup stack disk).db_mmap.get ⟨i.val, by omega⟩ = logged[i.val] :=
      hready.holds.get_of_lt hi
    refine ⟨⟨i.val, by omega⟩, ?_⟩
    rw [hslot]
    exact ⟨(hdisk.numbered i hi).2.active_ne_zero, rfl, rfl⟩
  · intro j hij hid
    have hj : j.val < logged.length := j.isLt
    have hid : logged[j.val].id = logged[i.val].id := hid
    rw [(hdisk.numbered j hj).1, (hdisk.numbered i hi).1] at hid
    have := id_inj (by omega) (by omega) hid
    omega

theorem new_disk_consistent : Consistent new_disk [] 0 := by
  refine ⟨by intro i hi; simp at hi, ?_, Nat.le_refl _, Nat.zero_le _, by simp [new_disk], [], [], rfl, by simp, rfl⟩
  simp [Holds, new_disk]

/-- A process that logs nothing only catches up with the log. -/
theorem Consistent.run_nothing {disk : disk_t} {logged : List record_t} {applied : Nat} {run : run_t}
    (hdisk : Consistent disk logged applied) (hbound : logged.length ≤ MAX_RECORDS) (hnames : run.names = []) :
    Consistent (run_process disk run) (logged ++ written_records disk run) logged.length := by
  have hready := (hdisk.startup_ready hbound run.stack).1
  obtain ⟨hinserts, hcrash⟩ : run.inserts = [] ∧ run.crash = none := by
    simpa [run_t.names] using hnames
  have hmain : run_process disk run =
      { slots := (startup run.stack disk).db_mmap, wal := (startup run.stack disk).wal } := by
    simp [run_process, run_main, hinserts, hcrash, insert_all]
  rw [written_records_eq, hnames, hmain]
  simpa [numbered_records] using hready.consistent

/-- A process that logs a record although it found a pending one reuses the
pending record's identifier. -/
theorem Consistent.run_reuses {disk : disk_t} {logged : List record_t} {applied : Nat} {run : run_t}
    (hdisk : Consistent disk logged applied) (hbound : logged.length ≤ MAX_RECORDS)
    (hnames : run.names ≠ []) (hpending : ¬ NothingPending disk) :
    IdReused (logged ++ written_records disk run) := by
  have hne : applied ≠ logged.length := fun h => hpending ((hdisk.nothingPending_iff hbound).mpr h)
  have hlt : applied < logged.length := Nat.lt_of_le_of_ne hdisk.applied_le hne
  have hlength : logged.length = applied + 1 := by have := hdisk.length_le; omega
  obtain ⟨name, rest, hcons⟩ := List.exists_cons_of_ne_nil hnames
  have hnext : (init_database disk).next_id = Int32.ofNat (applied + 1) :=
    (hdisk.startup_ready hbound run.stack).2
  rw [written_records_eq, hcons, numbered_records, hnext]
  refine ⟨⟨applied, by simp; omega⟩, ⟨logged.length, by simp⟩, by simpa using hlt, ?_⟩
  simp [List.getElem_append_left hlt, new_record, (hdisk.numbered applied hlt).1]

theorem noInsertAfterReplay_append (runs : List run_t) (run : run_t) :
    NoInsertAfterReplay (runs ++ [run]) ↔
      NoInsertAfterReplay runs ∧ (run.names = [] ∨ NothingPending (history runs).1) := by
  constructor
  · intro h
    refine ⟨?_, h runs run [] rfl⟩
    intro before r after heq
    exact h before r (after ++ [run]) (by simp [heq])
  · rintro ⟨hruns, hlast⟩ before r after heq
    rcases List.eq_nil_or_concat after with rfl | ⟨init, last, rfl⟩
    · obtain ⟨rfl, hr⟩ := List.append_inj' heq rfl
      obtain rfl : run = r := by simpa using hr
      exact hlast
    · have heq : runs ++ [run] = (before ++ r :: init) ++ [last] := by simpa using heq
      exact hruns before r init (List.append_inj' heq rfl).1

theorem length_written_records (disk : disk_t) (run : run_t) :
    (written_records disk run).length = run.names.length := by
  rw [written_records_eq, numbered_records_length]

/-- Every process logs one record for each of its names. -/
theorem length_history (runs : List run_t) :
    (history runs).2.length = (runs.map fun run => run.names.length).sum := by
  induction runs using List.reverseRecOn with
  | nil => rfl
  | append_singleton runs run ih =>
    rw [history_append, List.length_append, ih, length_written_records]
    simp

/-- A sequence of processes keeps the files consistent as long as none of them
logs after a replay; the first one that does reuses an identifier for good. -/
theorem history_spec (runs : List run_t) (hbound : (history runs).2.length ≤ MAX_RECORDS) :
    (NoInsertAfterReplay runs → ∃ applied, Consistent (history runs).1 (history runs).2 applied) ∧
    (¬ NoInsertAfterReplay runs → IdReused (history runs).2) := by
  induction runs using List.reverseRecOn with
  | nil =>
    refine ⟨fun _ => ⟨0, new_disk_consistent⟩, fun h => absurd ?_ h⟩
    intro before run after heq
    simp at heq
  | append_singleton runs run ih =>
    rw [history_append] at hbound ⊢
    simp only [List.length_append] at hbound
    have hwritten := length_written_records (history runs).1 run
    have hbefore : (history runs).2.length ≤ MAX_RECORDS := by omega
    obtain ⟨hsafe, hdanger⟩ := ih hbefore
    rw [noInsertAfterReplay_append]
    constructor
    · rintro ⟨hruns, hlast⟩
      obtain ⟨applied, hdisk⟩ := hsafe hruns
      rcases hlast with hnames | hnone
      · exact ⟨_, hdisk.run_nothing hbefore hnames⟩
      · have happlied := (hdisk.nothingPending_iff hbefore).mp hnone
        obtain ⟨hready, hnext⟩ := hdisk.startup_ready hbefore run.stack
        rw [happlied] at hnext
        exact hready.run_consistent hnext (by omega)
    · intro hnot
      by_cases hruns : NoInsertAfterReplay runs
      · obtain ⟨applied, hdisk⟩ := hsafe hruns
        have hlast : ¬ (run.names = [] ∨ NothingPending (history runs).1) := fun h => hnot ⟨hruns, h⟩
        rw [not_or] at hlast
        exact hdisk.run_reuses hbefore hlast.1 hlast.2
      · exact (hdanger hruns).append _

/-- Durability over whole histories: after any sequence of processes that logs
at most as many records as there are slots, every logged record survives the
next startup recovery under its own identifier and name, and is not replaced,
exactly if no process of the sequence logged a record after its own startup
found a WAL entry to replay. -/
theorem history_durable_iff (runs : List run_t) (hbound : (history runs).2.length ≤ MAX_RECORDS) :
    Durable (history runs) ↔ NoInsertAfterReplay runs := by
  obtain ⟨hsafe, hdanger⟩ := history_spec runs hbound
  constructor
  · intro hdurable
    by_contra hnot
    exact hdurable.not_idReused (hdanger hnot)
  · intro hruns
    obtain ⟨applied, hdisk⟩ := hsafe hruns
    exact hdisk.durable hbound

/-- A process seeing a fixed clock and fixed stack contents. -/
def demo_run (inserts : List (List UInt8)) (crash : Option (List UInt8)) : run_t :=
  let env : call_env := { time := 0, stack := Vector.replicate 16 7 }
  { stack := fun _ => Vector.replicate 16 9
    inserts := inserts.map fun name => { env, name }
    crash := crash.map fun name => { env, name } }

/-- A crash that leaves "B" pending, a process that only recovers, and a further
insertion. -/
def kept_runs : List run_t := [demo_run [[65]] (some [66]), demo_run [] none, demo_run [[67]] none]

theorem history_durable_kept : Durable (history kept_runs) := by
  have hbound : (history kept_runs).2.length ≤ MAX_RECORDS := by
    rw [length_history]
    decide
  refine (history_durable_iff kept_runs hbound).mpr ?_
  have hnil : NoInsertAfterReplay [] := fun before run after heq => by simp at heq
  have hone := (noInsertAfterReplay_append [] (demo_run [[65]] (some [66]))).mpr
    ⟨hnil, Or.inr (by decide +kernel)⟩
  have htwo := (noInsertAfterReplay_append _ (demo_run [] none)).mpr ⟨hone, Or.inl rfl⟩
  exact (noInsertAfterReplay_append _ (demo_run [[67]] none)).mpr ⟨htwo, Or.inr (by decide +kernel)⟩

/-- A crash that leaves "A" pending, and a process that inserts "B" after
replaying it. -/
def lost_runs : List run_t := [demo_run [] (some [65]), demo_run [[66]] none]

theorem history_loses_record :
    (history lost_runs).2.length ≤ MAX_RECORDS ∧ new_record 1 [65] ∈ (history lost_runs).2 ∧
    ¬ Survives (startup (demo_run [] none).stack (history lost_runs).1).db_mmap (new_record 1 [65]) ∧
    ¬ Durable (history lost_runs) := by
  have hlogged : new_record 1 [65] ∈ (history lost_runs).2 := by decide +kernel
  have hlost : ¬ Survives (startup (demo_run [] none).stack (history lost_runs).1).db_mmap
    (new_record 1 [65]) := by decide +kernel
  have hbound : (history lost_runs).2.length ≤ MAX_RECORDS := by
    rw [length_history]
    decide
  exact ⟨hbound, hlogged, hlost, fun hdurable => hlost (hdurable.survives hlogged _)⟩

end csystems.crash_recovery
