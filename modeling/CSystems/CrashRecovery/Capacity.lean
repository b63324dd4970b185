import Mathlib.Data.Finset.Card
import Mathlib.Data.Fintype.Basic
import CSystems.CrashRecovery.Consistent
import CSystems.CrashRecovery.BoundedMap

open clib.string clib.scan

namespace csystems.crash_recovery

instance (slots : slots_t) (id : Int32) : Decidable (HasId slots id) := inferInstanceAs (Decidable (∃ _, _))

/-- The slots that a new identifier can still take. -/
def free_slots (slots : slots_t) : Finset (Fin MAX_RECORDS) := Finset.univ.filter fun i => (slots.get i).active = 0

/-- The identifiers among `ids`, each counted once, that no active slot carries. -/
def absent_ids (slots : slots_t) (ids : List Int32) : Finset Int32 := ids.toFinset.filter fun id => ¬ HasId slots id

/-- There is a free slot for every absent identifier. -/
def EnoughRoom (slots : slots_t) (ids : List Int32) : Prop := (absent_ids slots ids).card ≤ (free_slots slots).card

instance (slots : slots_t) (ids : List Int32) : Decidable (EnoughRoom slots ids) :=
  inferInstanceAs (Decidable (_ ≤ _))

@[simp] theorem mem_free_slots {slots : slots_t} {i : Fin MAX_RECORDS} :
    i ∈ free_slots slots ↔ (slots.get i).active = 0 := by
  simp [free_slots]

@[simp] theorem mem_absent_ids {slots : slots_t} {ids : List Int32} {id : Int32} :
    id ∈ absent_ids slots ids ↔ id ∈ ids ∧ ¬ HasId slots id := by
  simp [absent_ids]

/-- With enough room, an absent identifier finds a free slot. -/
theorem EnoughRoom.not_full {slots : slots_t} {ids : List Int32} (h : EnoughRoom slots ids) {id : Int32}
    (hid : id ∈ ids) (hnot : ¬ HasId slots id) : ¬ Full slots := by
  intro hfull
  have hfree : free_slots slots = ∅ := by
    rw [Finset.eq_empty_iff_forall_notMem]
    intro i hi
    exact hfull i (mem_free_slots.mp hi)
  have habsent : 0 < (absent_ids slots ids).card := Finset.card_pos.mpr ⟨id, mem_absent_ids.mpr ⟨hid, hnot⟩⟩
  rw [EnoughRoom, hfree, Finset.card_empty] at h
  omega

theorem free_slots_set {slots : slots_t} {i : Fin MAX_RECORDS} {record : record_t} :
    free_slots (slots.set i.val record i.isLt) =
      if record.active = 0 then insert i (free_slots slots) else (free_slots slots).erase i := by
  ext j
  by_cases hij : i = j
  · subst hij
    split <;> simp_all [get_set_fin]
  · split <;> simp [get_set_fin, hij, Ne.symm hij]

/-- An identifier other than the stored one is neither added nor lost. -/
theorem hasId_set_of_ne {slots : slots_t} {i : Fin MAX_RECORDS} {record : record_t} {id : Int32}
    (hslot : (slots.get i).active ≠ 0 → (slots.get i).id = record.id) (hne : id ≠ record.id) :
    HasId (slots.set i.val record i.isLt) id ↔ HasId slots id := by
  constructor
  · rintro ⟨j, hj, hjid⟩
    rw [get_set_fin] at hj hjid
    by_cases hij : i = j
    · rw [if_pos hij] at hjid
      exact absurd hjid.symm hne
    · rw [if_neg hij] at hj hjid
      exact ⟨j, hj, hjid⟩
  · rintro ⟨j, hj, hjid⟩
    refine ⟨j, ?_⟩
    have hij : i ≠ j := by
      rintro rfl
      exact hne (hjid.symm.trans (hslot hj))
    rw [get_set_fin, if_neg hij]
    exact ⟨hj, hjid⟩

theorem hasId_set_self {slots : slots_t} (i : Fin MAX_RECORDS) {record : record_t} (hrecord : record.active ≠ 0) :
    HasId (slots.set i.val record i.isLt) record.id := by
  refine ⟨i, ?_⟩
  rw [get_set_fin, if_pos rfl]
  exact ⟨hrecord, rfl⟩

/-- Storing one of the records, active or not, in a slot of its own uses up at
most the room counted for it. -/
theorem EnoughRoom.set {slots : slots_t} {record : record_t} {ids : List Int32}
    (h : EnoughRoom slots ids) (hmem : record.id ∈ ids) {i : Fin MAX_RECORDS}
    (hslot : (slots.get i).active ≠ 0 → (slots.get i).id = record.id)
    (hfree : (slots.get i).active = 0 → ¬ HasId slots record.id) :
    EnoughRoom (slots.set i.val record i.isLt) ids := by
  have hothers : ((absent_ids (slots.set i.val record i.isLt) ids).erase record.id).card ≤
      ((absent_ids slots ids).erase record.id).card := by
    refine Finset.card_le_card fun id hid => ?_
    obtain ⟨hne, hid⟩ := Finset.mem_erase.mp hid
    rw [mem_absent_ids, hasId_set_of_ne hslot hne] at hid
    exact Finset.mem_erase.mpr ⟨hne, mem_absent_ids.mpr hid⟩
  have hle := Finset.card_erase_le (s := absent_ids slots ids) (a := record.id)
  have habsent (hi : (slots.get i).active = 0) :
      ((absent_ids slots ids).erase record.id).card + 1 = (absent_ids slots ids).card :=
    Finset.card_erase_add_one (mem_absent_ids.mpr ⟨hmem, hfree hi⟩)
  unfold EnoughRoom at h ⊢
  rw [free_slots_set]
  by_cases hrecord : record.active = 0
  · have hself :=
      Finset.pred_card_le_card_erase (s := absent_ids (slots.set i.val record i.isLt) ids) (a := record.id)
    rw [if_pos hrecord]
    by_cases hi : (slots.get i).active = 0
    · -- the slot was and stays free
      have hcount := habsent hi
      rw [Finset.insert_eq_of_mem (mem_free_slots.mpr hi)]
      omega
    · -- the slot is freed, and its identifier may be absent from now on
      rw [Finset.card_insert_of_notMem (by rwa [mem_free_slots])]
      omega
  · have hself : record.id ∉ absent_ids (slots.set i.val record i.isLt) ids := by
      rw [mem_absent_ids]
      exact fun hid => hid.2 (hasId_set_self i hrecord)
    rw [Finset.erase_eq_of_notMem hself] at hothers
    rw [if_neg hrecord]
    by_cases hi : (slots.get i).active = 0
    · have hcount := habsent hi
      rw [Finset.card_erase_of_mem (mem_free_slots.mpr hi)]
      omega
    · rw [Finset.erase_eq_of_notMem (by rwa [mem_free_slots])]
      omega

theorem EnoughRoom.applied {slots : slots_t} {record : record_t} {ids : List Int32}
    (h : EnoughRoom slots ids) (hmem : record.id ∈ ids) (msync_ok : Bool) :
    EnoughRoom (apply_to_database msync_ok slots record).1 ids := by
  rcases apply_to_database_cases msync_ok slots record with
    ⟨i, hactive, hid, heq⟩ | ⟨hnot, i, hfree, heq⟩ | ⟨hnot, hfull, -⟩
  · rw [heq]
    exact h.set hmem (fun _ => hid) fun hfree => absurd hfree hactive
  · rw [heq]
    exact h.set hmem (fun hactive => absurd hfree hactive) fun _ => hnot
  · exact absurd hfull (h.not_full hmem hnot)

/-- With enough room nothing is refused. -/
theorem EnoughRoom.accepted {slots : slots_t} {record : record_t} {ids : List Int32}
    (h : EnoughRoom slots ids) (hmem : record.id ∈ ids) : (apply_to_database true slots record).2 = 0 := by
  rcases apply_to_database_cases true slots record with ⟨i, -, -, heq⟩ | ⟨-, i, -, heq⟩ | ⟨hnot, hfull, -⟩
  · rw [heq]
    rfl
  · rw [heq]
    rfl
  · exact absurd hfull (h.not_full hmem hnot)

theorem EnoughRoom.replayed {slots : slots_t} {record : record_t} {ids : List Int32}
    (h : EnoughRoom slots ids) (hmem : record.id ∈ ids) : EnoughRoom (replay_record slots record) ids := by
  unfold replay_record
  split
  · exact h
  · exact h.applied hmem true

theorem EnoughRoom.replay {slots : slots_t} {records : List record_t} {ids : List Int32} (h : EnoughRoom slots ids)
    (hmem : ∀ record ∈ records, record.id ∈ ids) : EnoughRoom (records.foldl replay_record slots) ids := by
  induction records generalizing slots with
  | nil => exact h
  | cons record rest ih => exact ih (h.replayed (hmem record (by simp))) fun r hr => hmem r (by simp [hr])

end csystems.crash_recovery
