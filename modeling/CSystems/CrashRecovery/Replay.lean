import Mathlib.Tactic.IntervalCases
import CSystems.CrashRecovery.Slots

open clib.string clib.scan

namespace csystems.crash_recovery

/-- The stored checksum string is the one of the stored record. -/
def ChecksumValid (entry : wal_entry_t) : Prop :=
  c_str entry.checksum.toList = format_08X (record_hash entry.data)

instance (entry : wal_entry_t) : Decidable (ChecksumValid entry) := inferInstanceAs (Decidable (_ = _))

private theorem hex_digit_ne_zero (b : UInt8) : hex_digit (b &&& 15) ≠ 0 := by
  have hlow : (b &&& 15).toNat ≤ 15 := by
    rw [UInt8.toNat_and]
    exact Nat.and_le_right
  intro hzero
  have hnat := congrArg UInt8.toNat hzero
  unfold hex_digit at hnat
  split at hnat
  · simp only [UInt8.toNat_add, UInt8.reduceToNat] at hnat
    omega
  · simp only [UInt8.toNat_add, UInt8.reduceToNat] at hnat
    omega

/-- The checksum string does not depend on the bytes left behind its terminator. -/
theorem c_str_calculate_checksum (record : record_t) (stack : Vector UInt8 16) :
    c_str (calculate_checksum record stack).toList = format_08X (record_hash record) := by
  have hbytes : (calculate_checksum record stack).toList =
      format_08X (record_hash record) ++ 0 :: stack.toList.drop 9 := by
    apply List.ext_getElem
    · simp [format_08X]
    · intro i hi hi'
      simp only [Vector.length_toList] at hi
      simp only [calculate_checksum, Vector.getElem_toList, Vector.getElem_ofFn]
      by_cases hprinted : i < 9
      · interval_cases i <;> simp [format_08X]
      · have hlength : (format_08X (record_hash record)).length = 8 := by simp [format_08X]
        obtain ⟨k, rfl⟩ : ∃ k, i = k + 9 := ⟨i - 9, by omega⟩
        simp [hlength, Nat.add_comm]
  have hprinted : ∀ b ∈ format_08X (record_hash record), decide (b ≠ 0) = true := by
    intro b hb
    simp only [format_08X, List.mem_map] at hb
    obtain ⟨shift, -, rfl⟩ := hb
    simpa using hex_digit_ne_zero _
  rw [hbytes, c_str, List.takeWhile_append_of_pos hprinted]
  simp

/-- The checksum test of the replay loop is independent of its stack buffer. -/
theorem checksum_matches_eq (stack : Vector UInt8 16) (entry : wal_entry_t) :
    checksum_matches stack entry = decide (ChecksumValid entry) := by
  unfold checksum_matches ChecksumValid
  simp only [strcmp_eq_zero_iff, c_str_calculate_checksum]
  congr

/-- The slot change made by one replayed record. -/
def replay_record (slots : slots_t) (record : record_t) : slots_t :=
  if already_applied slots record then slots else (apply_to_database true slots record).1

/-- The records that the replay loop considers, in log order. -/
def valid_records (wal : List wal_entry_t) : List record_t :=
  (wal.filter fun entry => decide (ChecksumValid entry)).map wal_entry_t.data

theorem valid_records_append (first second : List wal_entry_t) :
    valid_records (first ++ second) = valid_records first ++ valid_records second := by
  simp [valid_records]

theorem mem_valid_records {wal : List wal_entry_t} {record : record_t} :
    record ∈ valid_records wal ↔ ∃ entry ∈ wal, ChecksumValid entry ∧ entry.data = record := by
  simp [valid_records, and_assoc]

private theorem apply_to_database_slots (msync_ok : Bool) (slots : slots_t) (record : record_t) :
    (apply_to_database msync_ok slots record).1 = (apply_to_database true slots record).1 := by
  unfold apply_to_database
  cases find_slot slots record <;> rfl

theorem replay_entry_slots (env : replay_env) (state : slots_t × Nat) (entry : wal_entry_t) :
    (replay_entry env state entry).1 =
      if ChecksumValid entry then replay_record state.1 entry.data else state.1 := by
  unfold replay_entry replay_record
  rw [checksum_matches_eq]
  by_cases hvalid : ChecksumValid entry
  · by_cases happlied : already_applied state.1 entry.data = true
    · simp [hvalid, happlied]
    · simp only [hvalid, decide_true, Bool.not_true, Bool.false_eq_true, if_false, happlied, if_true]
      rw [← apply_to_database_slots env.msync_ok]
      split <;> rfl
  · simp [hvalid]

/-- The slots left by the replay loop are those of replaying the valid records
in order. Neither `msync` outcomes nor stack contents matter. -/
theorem replay_loop_slots (env : Nat → replay_env) (i : Nat) (state : slots_t × Nat)
    (wal : List wal_entry_t) :
    (replay_loop env i state wal).1 = (valid_records wal).foldl replay_record state.1 := by
  induction wal generalizing i state with
  | nil => rfl
  | cons entry rest ih =>
    rw [replay_loop, ih, replay_entry_slots]
    by_cases hvalid : ChecksumValid entry
    · simp [valid_records, hvalid]
    · simp [valid_records, hvalid]

/-- Replaying onto the slot that already carries the identifier. -/
def update_slot (slot record : record_t) : record_t := if SameName slot record then slot else record

/-- Everything one replayed record can do to a database with distinct
identifiers: overwrite its own slot, take a free slot, or be refused. -/
theorem replay_record_cases (slots : slots_t) (record : record_t) :
    (∃ i : Fin MAX_RECORDS, (slots.get i).active ≠ 0 ∧ (slots.get i).id = record.id ∧
      replay_record slots record = slots.set i.val (update_slot (slots.get i) record) i.isLt) ∨
    (¬ HasId slots record.id ∧ ∃ i : Fin MAX_RECORDS, (slots.get i).active = 0 ∧
      replay_record slots record = slots.set i.val record i.isLt) ∨
    (¬ HasId slots record.id ∧ Full slots ∧ replay_record slots record = slots) := by
  by_cases happlied : already_applied slots record = true
  · obtain ⟨i, hactive, hid, hname⟩ := already_applied_iff.mp happlied
    refine Or.inl ⟨i, hactive, hid, ?_⟩
    rw [replay_record, if_pos happlied, update_slot, if_pos hname, set_get_fin]
  · rw [replay_record, if_neg happlied]
    rcases apply_to_database_cases true slots record with
      ⟨i, hactive, hid, heq⟩ | ⟨hnot, i, hfree, heq⟩ | ⟨hnot, hfull, heq⟩
    · have hname : ¬ SameName (slots.get i) record := fun hname =>
        happlied (already_applied_iff.mpr ⟨i, hactive, hid, hname⟩)
      exact Or.inl ⟨i, hactive, hid, by rw [heq, update_slot, if_neg hname]⟩
    · exact Or.inr (Or.inl ⟨hnot, i, hfree, by rw [heq]⟩)
    · exact Or.inr (Or.inr ⟨hnot, hfull, by rw [heq]⟩)

end csystems.crash_recovery
