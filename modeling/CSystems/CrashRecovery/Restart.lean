import Mathlib.Data.List.Induction
import CSystems.CrashRecovery.Replay

open clib.string clib.scan

namespace csystems.crash_recovery

/-- A replayed record keeps identifiers distinct: it takes over its own slot or
introduces an identifier that no active slot carries. -/
theorem DistinctIds.replay_record {slots : slots_t} (hdistinct : DistinctIds slots) (record : record_t) :
    DistinctIds (replay_record slots record) := by
  unfold crash_recovery.replay_record
  split
  · exact hdistinct
  · exact hdistinct.apply_to_database true record

/-- The identifier can no longer take a free slot: it is present, or the
database is full. -/
def Placed (slots : slots_t) (id : Int32) : Prop := HasId slots id ∨ Full slots

/-- Slots are never freed by a replay, so a placed identifier stays placed. -/
theorem Placed.replay_record {slots : slots_t} {id : Int32} (hplaced : Placed slots id) {record : record_t}
    (hlogged : Logged record) : Placed (replay_record slots record) id := by
  have hactive := hlogged.active_ne_zero
  rcases replay_record_cases slots record with ⟨i, hi, hid, heq⟩ | ⟨hnot, i, hfree, heq⟩ | ⟨-, -, heq⟩
  · have hupdate : (update_slot (slots.get i) record).active ≠ 0 ∧
        (update_slot (slots.get i) record).id = (slots.get i).id := by
      unfold update_slot
      split
      · exact ⟨hi, rfl⟩
      · exact ⟨hactive, hid.symm⟩
    rw [heq]
    rcases hplaced with ⟨j, hj, hjid⟩ | hfull
    · refine Or.inl ⟨j, ?_⟩
      rw [get_set_fin]
      by_cases hij : i = j
      · subst j
        rw [if_pos rfl]
        exact ⟨hupdate.1, hupdate.2.trans hjid⟩
      · rw [if_neg hij]
        exact ⟨hj, hjid⟩
    · refine Or.inr fun j => ?_
      rw [get_set_fin]
      split
      · exact hupdate.1
      · exact hfull j
  · rw [heq]
    rcases hplaced with ⟨j, hj, hjid⟩ | hfull
    · refine Or.inl ⟨j, ?_⟩
      have hij : i ≠ j := by
        intro hij
        subst j
        exact hj hfree
      rw [get_set_fin, if_neg hij]
      exact ⟨hj, hjid⟩
    · exact absurd hfree (hfull i)
  · rwa [heq]

/-- Replaying a record places its identifier. -/
theorem placed_replay_record (slots : slots_t) {record : record_t} (hlogged : Logged record) :
    Placed (replay_record slots record) record.id := by
  by_cases hplaced : Placed slots record.id
  · exact hplaced.replay_record hlogged
  · rcases replay_record_cases slots record with ⟨i, hi, hid, -⟩ | ⟨-, i, -, heq⟩ | ⟨-, hfull, -⟩
    · exact absurd (Or.inl ⟨i, hi, hid⟩) hplaced
    · refine Or.inl ⟨i, ?_⟩
      rw [heq, get_set_fin, if_pos rfl]
      exact ⟨hlogged.active_ne_zero, rfl⟩
    · exact absurd (Or.inr hfull) hplaced

/-- The effect of one record on one slot when no slot is newly taken. -/
def refresh_slot (slot record : record_t) : record_t :=
  if slot.active ≠ 0 ∧ slot.id = record.id then update_slot slot record else slot

/-- Once an identifier is placed, replaying its record works slot by slot. -/
theorem replay_record_eq_map {slots : slots_t} (hdistinct : DistinctIds slots) {record : record_t}
    (hplaced : Placed slots record.id) :
    replay_record slots record = slots.map (refresh_slot · record) := by
  apply ext_fin
  intro j
  rw [get_map_fin]
  rcases replay_record_cases slots record with ⟨i, hi, hid, heq⟩ | ⟨hnot, i, hfree, -⟩ | ⟨hnot, -, heq⟩
  · rw [heq, get_set_fin]
    by_cases hij : i = j
    · subst j
      rw [if_pos rfl, refresh_slot, if_pos ⟨hi, hid⟩]
    · rw [if_neg hij, refresh_slot, if_neg]
      rintro ⟨hj, hjid⟩
      exact hij (hdistinct i j hi hj (hid.trans hjid.symm))
  · rcases hplaced with hhas | hfull
    · exact absurd hhas hnot
    · exact absurd hfree (hfull i)
  · rw [heq, refresh_slot, if_neg]
    rintro ⟨hj, hjid⟩
    exact hnot ⟨j, hj, hjid⟩

/-- Replaying records whose identifiers are all placed works slot by slot. -/
theorem replay_eq_map {slots : slots_t} (hdistinct : DistinctIds slots) {records : List record_t}
    (hlogged : ∀ record ∈ records, Logged record)
    (hplaced : ∀ record ∈ records, Placed slots record.id) :
    records.foldl replay_record slots = slots.map (records.foldl refresh_slot ·) := by
  induction records generalizing slots with
  | nil => simp
  | cons record rest ih =>
    have hfirst := hlogged record (by simp)
    rw [List.foldl_cons, ih (hdistinct.replay_record record)
      (fun r hr => hlogged r (by simp [hr]))
      (fun r hr => (hplaced r (by simp [hr])).replay_record hfirst)]
    rw [replay_record_eq_map hdistinct (hplaced record (by simp)), Vector.map_map]
    rfl

/-- Refreshing a logged record with logged records yields a logged record of the
same identifier. -/
theorem refresh_logged {record : record_t} (hrecord : Logged record) {records : List record_t}
    (hlogged : ∀ r ∈ records, Logged r) :
    Logged (records.foldl refresh_slot record) ∧ (records.foldl refresh_slot record).id = record.id := by
  induction records generalizing record with
  | nil => exact ⟨hrecord, rfl⟩
  | cons r rest ih =>
    have hstep : Logged (refresh_slot record r) ∧ (refresh_slot record r).id = record.id := by
      unfold refresh_slot update_slot
      split
      · next hcond =>
        split
        · exact ⟨hrecord, rfl⟩
        · exact ⟨hlogged r (by simp), hcond.2.symm⟩
      · exact ⟨hrecord, rfl⟩
    obtain ⟨hresult, hid⟩ := ih hstep.1 (fun r' hr' => hlogged r' (by simp [hr']))
    exact ⟨hresult, hid.trans hstep.2⟩

/-- Refreshing a slot that holds a logged record, with any logged records and
finally with that record itself, gives the record back. -/
theorem refresh_back {record : record_t} (hrecord : Logged record) {records : List record_t}
    (hlogged : ∀ r ∈ records, Logged r) :
    refresh_slot (records.foldl refresh_slot record) record = record := by
  obtain ⟨hlast, hid⟩ := refresh_logged hrecord hlogged
  rw [refresh_slot, if_pos ⟨hlast.active_ne_zero, hid⟩, update_slot]
  split
  · next hname => exact hlast.eq_of_sameName hrecord hid hname
  · rfl

/-- The state of the replay loop after a list of records: identifiers are
distinct, every record seen is placed, and no slot would change if the same
records were replayed once more. -/
structure Settled (slots : slots_t) (records : List record_t) : Prop where
  distinct : DistinctIds slots
  placed : ∀ record ∈ records, Placed slots record.id
  stable : ∀ i : Fin MAX_RECORDS, records.foldl refresh_slot (slots.get i) = slots.get i

theorem Settled.step {slots : slots_t} {records : List record_t} (hsettled : Settled slots records)
    (hlogged : ∀ r ∈ records, Logged r) {record : record_t} (hrecord : Logged record) :
    Settled (replay_record slots record) (records ++ [record]) := by
  refine ⟨hsettled.distinct.replay_record record, ?_, ?_⟩
  · intro r hr
    rcases List.mem_append.mp hr with hr | hr
    · exact (hsettled.placed r hr).replay_record hrecord
    · rw [List.mem_singleton.mp hr]
      exact placed_replay_record _ hrecord
  · intro j
    rw [List.foldl_append]
    simp only [List.foldl_cons, List.foldl_nil]
    have hother (hne : ¬ ((slots.get j).active ≠ 0 ∧ (slots.get j).id = record.id)) :
        refresh_slot (records.foldl refresh_slot (slots.get j)) record = slots.get j := by
      rw [hsettled.stable j, refresh_slot, if_neg hne]
    rcases replay_record_cases _ record with ⟨i, hi, hid, heq⟩ | ⟨hnot, i, hfree, heq⟩ | ⟨hnot, -, heq⟩
    · rw [heq, get_set_fin]
      by_cases hij : i = j
      · subst j
        rw [if_pos rfl]
        by_cases hname : SameName (slots.get i) record
        · rw [update_slot, if_pos hname, hsettled.stable i, refresh_slot, if_pos ⟨hi, hid⟩, update_slot,
            if_pos hname]
        · rw [update_slot, if_neg hname]
          exact refresh_back hrecord hlogged
      · rw [if_neg hij]
        apply hother
        rintro ⟨hj, hjid⟩
        exact hij (hsettled.distinct i j hi hj (hid.trans hjid.symm))
    · rw [heq, get_set_fin]
      by_cases hij : i = j
      · rw [if_pos hij]
        exact refresh_back hrecord hlogged
      · rw [if_neg hij]
        exact hother fun h => hnot ⟨j, h⟩
    · rw [heq]
      exact hother fun h => hnot ⟨j, h⟩

/-- Replaying logged records onto distinct identifiers settles them all. -/
theorem settled_replay {slots : slots_t} (hdistinct : DistinctIds slots) {records : List record_t}
    (hlogged : ∀ r ∈ records, Logged r) : Settled (records.foldl replay_record slots) records := by
  induction records using List.reverseRecOn with
  | nil => exact ⟨hdistinct, by simp, by simp⟩
  | append_singleton records record ih =>
    rw [List.foldl_append]
    exact (ih fun r hr => hlogged r (by simp [hr])).step (fun r hr => hlogged r (by simp [hr]))
      (hlogged record (by simp))

/-- Replaying the same records twice in a row changes nothing the second time. -/
theorem replay_twice {slots : slots_t} (hdistinct : DistinctIds slots) {records : List record_t}
    (hlogged : ∀ r ∈ records, Logged r) :
    records.foldl replay_record (records.foldl replay_record slots) = records.foldl replay_record slots := by
  have hsettled := settled_replay hdistinct hlogged
  rw [replay_eq_map hsettled.distinct hlogged hsettled.placed]
  apply ext_fin
  intro i
  rw [get_map_fin]
  exact hsettled.stable i

theorem recover_from_wal_slots (env : Nat → replay_env) (ctx : db_context_t) :
    (recover_from_wal env ctx).1.db_mmap = (valid_records ctx.wal).foldl replay_record ctx.db_mmap := by
  rw [← replay_loop_slots env 0 (ctx.db_mmap, 0)]
  rfl

/-- Recovery is restartable: if the replay loop is interrupted after any number
of iterations, with the slots changed so far kept and the WAL intact, running
recovery again from the start of the WAL ends with the slots of one
uninterrupted recovery. Corrupted entries, repeated identifiers with different
names, and a database that fills up on the way are all covered, and the three
replays may see different `msync` outcomes and stack contents. -/
theorem recover_from_wal_restart (ctx : db_context_t) (hdistinct : DistinctIds ctx.db_mmap)
    (hlogged : ∀ entry ∈ ctx.wal, ChecksumValid entry → Logged entry.data)
    (env interrupted restarted : Nat → replay_env) (count : Nat) :
    (recover_from_wal restarted
      { ctx with db_mmap := (replay_loop interrupted 0 (ctx.db_mmap, 0) (ctx.wal.take count)).1 }).1.db_mmap =
      (recover_from_wal env ctx).1.db_mmap := by
  have hsplit : valid_records ctx.wal =
      valid_records (ctx.wal.take count) ++ valid_records (ctx.wal.drop count) := by
    rw [← valid_records_append, List.take_append_drop]
  have hfirst : ∀ r ∈ valid_records (ctx.wal.take count), Logged r := by
    intro r hr
    obtain ⟨entry, hmem, hvalid, rfl⟩ := mem_valid_records.mp hr
    exact hlogged entry (List.mem_of_mem_take hmem) hvalid
  rw [recover_from_wal_slots, recover_from_wal_slots, replay_loop_slots, hsplit, List.foldl_append,
    List.foldl_append]
  dsimp only
  rw [replay_twice hdistinct hfirst]

/-- A slot holding "A" under identifier 1, and a WAL that renames it to "B",
contains a corrupted entry, adds identifier 2 and restores the first name. -/
def renaming_ctx : db_context_t where
  db_mmap := (Vector.replicate MAX_RECORDS zero_record).set 0 (new_record 1 [65])
  wal :=
    let env : call_env := { time := 0, stack := Vector.replicate 16 7 }
    let second := make_wal_entry env (new_record 2 [67])
    [make_wal_entry env (new_record 1 [66]), { second with data := new_record 2 [68] }, second,
      make_wal_entry env (new_record 1 [65])]
  next_id := 2

def steady_env (_ : Nat) : replay_env := { stack := Vector.replicate 16 9, msync_ok := true }

theorem recover_from_wal_restart_renaming :
    (recover_from_wal steady_env
      { db_mmap := (replay_loop steady_env 0 (renaming_ctx.db_mmap, 0) (renaming_ctx.wal.take 3)).1
        wal := renaming_ctx.wal
        next_id := renaming_ctx.next_id }).1.db_mmap =
      (recover_from_wal steady_env renaming_ctx).1.db_mmap := by
  have hdistinct : DistinctIds renaming_ctx.db_mmap := by decide +kernel
  have hlogged : ∀ entry ∈ renaming_ctx.wal, ChecksumValid entry → Logged entry.data := by decide +kernel
  exact recover_from_wal_restart renaming_ctx hdistinct hlogged steady_env steady_env steady_env 3

end csystems.crash_recovery
