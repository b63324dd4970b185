import CSystems.Lib.CArray
import CSystems.CrashRecovery.Database

open clib.string clib.scan

namespace csystems.crash_recovery

/-- Some active slot carries the identifier. -/
def HasId (slots : slots_t) (id : Int32) : Prop :=
  ∃ i : Fin MAX_RECORDS, (slots.get i).active ≠ 0 ∧ (slots.get i).id = id

/-- No inactive slot is left. -/
def Full (slots : slots_t) : Prop := ∀ i : Fin MAX_RECORDS, (slots.get i).active ≠ 0

/-- Active slots carry pairwise distinct identifiers. -/
def DistinctIds (slots : slots_t) : Prop :=
  ∀ i j : Fin MAX_RECORDS, (slots.get i).active ≠ 0 → (slots.get j).active ≠ 0 → (slots.get i).id = (slots.get j).id → i = j

instance (slots : slots_t) : Decidable (DistinctIds slots) := inferInstanceAs (Decidable (∀ _ _, _))

/-- A record as `insert_record` builds it: active, with a zero-padded name. -/
def Logged (record : record_t) : Prop := record.active = 1 ∧ ZeroPadded record.name.toList

instance (record : record_t) : Decidable (Logged record) := inferInstanceAs (Decidable (_ ∧ _))

theorem Logged.active_ne_zero {record : record_t} (h : Logged record) : record.active ≠ 0 := by
  rw [h.1]
  decide

/-- The names of two records hold the same C string. -/
def SameName (first second : record_t) : Prop := c_str first.name.toList = c_str second.name.toList

instance (first second : record_t) : Decidable (SameName first second) :=
  inferInstanceAs (Decidable (_ = _))

/-- Logged records are determined by their identifier and their C string name. -/
theorem Logged.eq_of_sameName {first second : record_t} (hf : Logged first) (hs : Logged second)
    (hid : first.id = second.id) (hname : SameName first second) : first = second := by
  have hbytes : first.name.toList = second.name.toList := hf.2.eq_of_c_str_eq hs.2 (by simp) hname
  have hname : first.name = second.name := Vector.toList_inj.mp hbytes
  cases first
  cases second
  simp_all [Logged]

/-- Records built for insertion are logged records, whatever name is given. -/
theorem new_record_logged (id : Int32) (name : List UInt8) : Logged (new_record id name) :=
  ⟨rfl, zeroPadded_strncpy_set (n := 31) _ name⟩

/-- An identifier already present selects its (first) active slot. -/
theorem find_slot_of_hasId {slots : slots_t} {record : record_t} (hhas : HasId slots record.id) :
    ∃ i, find_slot slots record = some i ∧ (slots.get i).active ≠ 0 ∧ (slots.get i).id = record.id := by
  unfold find_slot
  cases hscan : slots.findFinIdx? fun slot => slot.active != 0 && slot.id == record.id with
  | none =>
    obtain ⟨i, hactive, hid⟩ := hhas
    have hmiss := findFinIdx?_eq_none_iff.mp hscan i
    simp_all
  | some i =>
    have hhit := (findFinIdx?_eq_some_iff.mp hscan).1
    simp only [Bool.and_eq_true, bne_iff_ne, ne_eq, beq_iff_eq] at hhit
    exact ⟨i, rfl, hhit⟩

private theorem find_slot_eq_scan {slots : slots_t} {record : record_t} (hnot : ¬ HasId slots record.id) :
    find_slot slots record = slots.findFinIdx? fun slot => slot.active == 0 := by
  have hscan : (slots.findFinIdx? fun slot => slot.active != 0 && slot.id == record.id) = none := by
    rw [findFinIdx?_eq_none_iff]
    intro i
    by_contra hhit
    simp only [Bool.not_eq_false, Bool.and_eq_true, bne_iff_ne, ne_eq, beq_iff_eq] at hhit
    exact hnot ⟨i, hhit⟩
  simp only [find_slot, hscan]

/-- A new identifier selects the first inactive slot, if there is one. -/
theorem find_slot_of_not_hasId {slots : slots_t} {record : record_t}
    (hnot : ¬ HasId slots record.id) (hroom : ¬ Full slots) :
    ∃ i, find_slot slots record = some i ∧ (slots.get i).active = 0 ∧
      ∀ j : Fin MAX_RECORDS, j < i → (slots.get j).active ≠ 0 := by
  rw [find_slot_eq_scan hnot]
  cases hscan : slots.findFinIdx? fun slot => slot.active == 0 with
  | none =>
    exfalso
    apply hroom
    intro i
    simpa using findFinIdx?_eq_none_iff.mp hscan i
  | some i =>
    obtain ⟨hhit, hbefore⟩ := findFinIdx?_eq_some_iff.mp hscan
    exact ⟨i, rfl, by simpa using hhit, fun j hj => by simpa using hbefore j hj⟩

/-- A new identifier is refused when every slot is active. -/
theorem find_slot_of_full {slots : slots_t} {record : record_t}
    (hnot : ¬ HasId slots record.id) (hfull : Full slots) : find_slot slots record = none := by
  rw [find_slot_eq_scan hnot, findFinIdx?_eq_none_iff]
  intro i
  simpa using hfull i

theorem already_applied_iff {slots : slots_t} {record : record_t} :
    already_applied slots record = true ↔
      ∃ i : Fin MAX_RECORDS, (slots.get i).active ≠ 0 ∧ (slots.get i).id = record.id ∧ SameName (slots.get i) record := by
  unfold already_applied
  rw [any_eq_true_iff]
  simp [strcmp_eq_zero_iff, SameName, and_assoc]

/-- Everything one `apply_to_database` call can do: overwrite the slot of its
identifier, take the first free slot, or be refused. -/
theorem apply_to_database_cases (msync_ok : Bool) (slots : slots_t) (record : record_t) :
    (∃ i : Fin MAX_RECORDS, (slots.get i).active ≠ 0 ∧ (slots.get i).id = record.id ∧
      apply_to_database msync_ok slots record = (slots.set i.val record i.isLt, if msync_ok then 0 else -1)) ∨
    (¬ HasId slots record.id ∧ ∃ i : Fin MAX_RECORDS, (slots.get i).active = 0 ∧
      apply_to_database msync_ok slots record = (slots.set i.val record i.isLt, if msync_ok then 0 else -1)) ∨
    (¬ HasId slots record.id ∧ Full slots ∧ apply_to_database msync_ok slots record = (slots, -1)) := by
  by_cases hhas : HasId slots record.id
  · left
    obtain ⟨i, hfind, hactive, hid⟩ := find_slot_of_hasId hhas
    exact ⟨i, hactive, hid, by simp [apply_to_database, hfind]⟩
  · right
    by_cases hfull : Full slots
    · right
      exact ⟨hhas, hfull, by simp [apply_to_database, find_slot_of_full hhas hfull]⟩
    · left
      obtain ⟨i, hfind, hfree, -⟩ := find_slot_of_not_hasId hhas hfull
      exact ⟨hhas, i, hfree, by simp [apply_to_database, hfind]⟩

/-- Storing a record in a slot keeps identifiers distinct if no other active
slot has its identifier. -/
theorem DistinctIds.set {slots : slots_t} (hdistinct : DistinctIds slots) {i : Fin MAX_RECORDS} {record : record_t}
    (hothers : ∀ j : Fin MAX_RECORDS, j ≠ i → (slots.get j).active ≠ 0 → (slots.get j).id ≠ record.id) :
    DistinctIds (slots.set i.val record i.isLt) := by
  intro j k hj hk hjk
  rw [get_set_fin] at hj hk
  rw [get_set_fin, get_set_fin] at hjk
  by_cases hij : i = j <;> by_cases hik : i = k
  · exact hij.symm.trans hik
  · rw [if_pos hij, if_neg hik] at hjk
    rw [if_neg hik] at hk
    exact absurd hjk.symm (hothers k (Ne.symm hik) hk)
  · rw [if_neg hij, if_pos hik] at hjk
    rw [if_neg hij] at hj
    exact absurd hjk (hothers j (Ne.symm hij) hj)
  · rw [if_neg hij, if_neg hik] at hjk
    rw [if_neg hij] at hj
    rw [if_neg hik] at hk
    exact hdistinct j k hj hk hjk

/-- With distinct identifiers, the slot of an identifier is the only one. -/
theorem DistinctIds.others {slots : slots_t} (hdistinct : DistinctIds slots) {i : Fin MAX_RECORDS} {id : Int32}
    (hactive : (slots.get i).active ≠ 0) (hid : (slots.get i).id = id) :
    ∀ j : Fin MAX_RECORDS, j ≠ i → (slots.get j).active ≠ 0 → (slots.get j).id ≠ id := by
  intro j hji hj hjid
  exact hji (hdistinct j i hj hactive (hjid.trans hid.symm))

theorem others_of_not_hasId {slots : slots_t} {id : Int32} (hnot : ¬ HasId slots id) (i : Fin MAX_RECORDS) :
    ∀ j : Fin MAX_RECORDS, j ≠ i → (slots.get j).active ≠ 0 → (slots.get j).id ≠ id := by
  intro j _ hj hjid
  exact hnot ⟨j, hj, hjid⟩

/-- The slot an accepted record goes to: an inactive one or the one of its
identifier, and no other active slot has that identifier. -/
theorem DistinctIds.apply_cases {slots : slots_t} (hdistinct : DistinctIds slots) (msync_ok : Bool)
    (record : record_t) :
    (∃ i : Fin MAX_RECORDS, ((slots.get i).active ≠ 0 → (slots.get i).id = record.id) ∧
      (∀ j : Fin MAX_RECORDS, j ≠ i → (slots.get j).active ≠ 0 → (slots.get j).id ≠ record.id) ∧
      (HasId slots record.id ∨ ¬ Full slots) ∧
      apply_to_database msync_ok slots record = (slots.set i.val record i.isLt, if msync_ok then 0 else -1)) ∨
    (¬ HasId slots record.id ∧ Full slots ∧ apply_to_database msync_ok slots record = (slots, -1)) := by
  rcases apply_to_database_cases msync_ok slots record with
    ⟨i, hactive, hid, heq⟩ | ⟨hnot, i, hfree, heq⟩ | hrefused
  · exact Or.inl ⟨i, fun _ => hid, hdistinct.others hactive hid, Or.inl ⟨i, hactive, hid⟩, heq⟩
  · exact Or.inl ⟨i, fun h => absurd hfree h, others_of_not_hasId hnot i, Or.inr fun hfull => hfull i hfree, heq⟩
  · exact Or.inr hrefused

theorem DistinctIds.apply_to_database {slots : slots_t} (hdistinct : DistinctIds slots) (msync_ok : Bool)
    (record : record_t) : DistinctIds (apply_to_database msync_ok slots record).1 := by
  rcases hdistinct.apply_cases msync_ok record with ⟨i, -, hothers, -, heq⟩ | ⟨-, -, heq⟩
  · rw [heq]
    exact hdistinct.set hothers
  · rwa [heq]

end csystems.crash_recovery
