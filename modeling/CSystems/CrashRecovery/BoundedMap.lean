import Mathlib.Data.List.Induction
import Mathlib.Logic.Function.Basic
import CSystems.CrashRecovery.Slots

open clib.scan

namespace csystems.crash_recovery

/-- The slots after a sequence of `apply_to_database` calls, `msync` succeeding. -/
def apply_all (slots : slots_t) (records : List record_t) : slots_t :=
  records.foldl (fun slots record => (apply_to_database true slots record).1) slots

/-- The records of the sequence whose calls do not return -1. -/
def accepted_records : slots_t → List record_t → List record_t
  | _, [] => []
  | slots, record :: rest =>
    let (slots, code) := apply_to_database true slots record
    if code = -1 then accepted_records slots rest else record :: accepted_records slots rest

/-- Map insertion under the identifier of the record. -/
def insert_by_id (contents : Int32 → Option record_t) (record : record_t) : Int32 → Option record_t :=
  Function.update contents record.id (some record)

/-- The map from identifiers to records that the active slots give. -/
def Represents (slots : slots_t) (contents : Int32 → Option record_t) : Prop :=
  ∀ id record, contents id = some record ↔
    ∃ i : Fin MAX_RECORDS, slots.get i = record ∧ record.active ≠ 0 ∧ record.id = id

/-- Storing an active record under its identifier inserts it into the map. -/
theorem Represents.set {slots : slots_t} {contents : Int32 → Option record_t} (hmap : Represents slots contents)
    {i : Fin MAX_RECORDS} {record : record_t} (hrecord : record.active ≠ 0)
    (hslot : (slots.get i).active ≠ 0 → (slots.get i).id = record.id)
    (hothers : ∀ j : Fin MAX_RECORDS, j ≠ i → (slots.get j).active ≠ 0 → (slots.get j).id ≠ record.id) :
    Represents (slots.set i.val record i.isLt) (insert_by_id contents record) := by
  intro id r
  unfold insert_by_id
  by_cases hid : id = record.id
  · subst hid
    rw [Function.update_self]
    constructor
    · intro heq
      obtain rfl := Option.some.inj heq
      exact ⟨i, by rw [get_set_fin, if_pos rfl], hrecord, rfl⟩
    · rintro ⟨j, hget, hactive, hrid⟩
      rw [get_set_fin] at hget
      by_cases hij : i = j
      · rw [if_pos hij] at hget
        rw [hget]
      · rw [if_neg hij] at hget
        subst hget
        exact absurd hrid (hothers j (Ne.symm hij) hactive)
  · rw [Function.update_of_ne hid, hmap]
    constructor
    · rintro ⟨j, rfl, hactive, hrid⟩
      have hij : i ≠ j := by
        rintro rfl
        exact hid (hrid.symm.trans (hslot hactive))
      exact ⟨j, by rw [get_set_fin, if_neg hij], hactive, hrid⟩
    · rintro ⟨j, hget, hactive, hrid⟩
      rw [get_set_fin] at hget
      by_cases hij : i = j
      · rw [if_pos hij] at hget
        subst hget
        exact absurd hrid.symm hid
      · rw [if_neg hij] at hget
        exact ⟨j, hget, hactive, hrid⟩

/-- The slots stay a map: what the run of accepted records inserts is what the
active slots hold. -/
theorem represents_apply_all {slots : slots_t} {contents : Int32 → Option record_t} {records : List record_t}
    (hdistinct : DistinctIds slots) (hmap : Represents slots contents)
    (hactive : ∀ record ∈ records, record.active ≠ 0) :
    DistinctIds (apply_all slots records) ∧
      Represents (apply_all slots records) ((accepted_records slots records).foldl insert_by_id contents) := by
  induction records generalizing slots contents with
  | nil => exact ⟨hdistinct, hmap⟩
  | cons record rest ih =>
    have hrest : ∀ r ∈ rest, r.active ≠ 0 := fun r hr => hactive r (by simp [hr])
    have hnext := hdistinct.apply_to_database true record
    unfold apply_all accepted_records
    rw [List.foldl_cons]
    rcases hdistinct.apply_cases true record with ⟨i, hslot, hothers, -, heq⟩ | ⟨-, -, heq⟩
    · rw [heq] at hnext ⊢
      exact ih hnext (hmap.set (hactive record (by simp)) hslot hothers) hrest
    · rw [heq] at hnext ⊢
      exact ih hnext hmap hrest

/-- The database is a bounded map. From a database with no active slot, after
any sequence of applied records, the active slots have distinct identifiers and
hold what inserting the accepted records in order gives; the next record is
refused, and nothing changes, exactly when its identifier is absent and no slot
is inactive, and otherwise it replaces exactly one slot. -/
theorem apply_to_database_bounded_map (slots : slots_t)
    (hempty : ∀ i : Fin MAX_RECORDS, (slots.get i).active = 0) (records : List record_t)
    (hrecords : ∀ record ∈ records, record.active = 1) (record : record_t) (hrecord : record.active = 1) :
    DistinctIds (apply_all slots records) ∧
    Represents (apply_all slots records) ((accepted_records slots records).foldl insert_by_id fun _ => none) ∧
    ((apply_to_database true (apply_all slots records) record).2 = -1 ↔
      ¬ HasId (apply_all slots records) record.id ∧ Full (apply_all slots records)) ∧
    ((apply_to_database true (apply_all slots records) record).2 = -1 →
      (apply_to_database true (apply_all slots records) record).1 = apply_all slots records) ∧
    ((apply_to_database true (apply_all slots records) record).2 ≠ -1 →
      (apply_to_database true (apply_all slots records) record).2 = 0 ∧
      ∃! i : Fin MAX_RECORDS, (apply_to_database true (apply_all slots records) record).1 =
        (apply_all slots records).set i.val record i.isLt) := by
  have hactive : ∀ r ∈ records, r.active ≠ 0 := by
    intro r hr
    rw [hrecords r hr]
    decide
  have hdistinct : DistinctIds slots := fun i _ hi _ _ => absurd (hempty i) hi
  have hmap : Represents slots fun _ => none := by
    intro id r
    refine iff_of_false (by simp) ?_
    rintro ⟨i, rfl, hi, -⟩
    exact hi (hempty i)
  obtain ⟨hdistinct, hmap⟩ := represents_apply_all hdistinct hmap hactive
  refine ⟨hdistinct, hmap, ?_⟩
  generalize apply_all slots records = slots at *
  rcases hdistinct.apply_cases true record with ⟨i, -, hothers, hroom, heq⟩ | ⟨hnot, hfull, heq⟩
  · rw [heq]
    refine ⟨iff_of_false (by simp) ?_, fun h => absurd h (by simp), fun _ => ⟨rfl, i, rfl, ?_⟩⟩
    · rintro ⟨hnot, hfull⟩
      exact hroom.elim hnot fun h => h hfull
    · intro j hj
      by_contra hji
      -- slot `j` would hold the record already, next to slot `i`
      have hget := congrArg (fun s : slots_t => s.get j) hj
      simp only [get_set_fin, if_neg (Ne.symm hji), if_true] at hget
      refine hothers j hji ?_ (by rw [hget])
      rw [hget, hrecord]
      decide
  · rw [heq]
    exact ⟨iff_of_true rfl ⟨hnot, hfull⟩, fun _ => rfl, fun h => absurd rfl h⟩

/-- Two records of one identifier are stored in one slot of a new database. -/
theorem apply_to_database_bounded_map_new :
    Represents (apply_all (Vector.replicate MAX_RECORDS zero_record) [new_record 7 [65], new_record 7 [66]])
      ((accepted_records (Vector.replicate MAX_RECORDS zero_record) [new_record 7 [65], new_record 7 [66]]).foldl
        insert_by_id fun _ => none) := by
  have hempty : ∀ i : Fin MAX_RECORDS, ((Vector.replicate MAX_RECORDS zero_record).get i).active = 0 := by decide
  have hrecords : ∀ record ∈ [new_record 7 [65], new_record 7 [66]], record.active = 1 := by decide
  exact (apply_to_database_bounded_map _ hempty _ hrecords (new_record 8 []) rfl).2.1

end csystems.crash_recovery
