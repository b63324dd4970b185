import CSystems.CrashRecovery.History

open clib.string clib.scan

namespace csystems.crash_recovery

/-- Logged records carry the identifiers 1, 2, 3, ... in log order. -/
def Numbered (records : List record_t) : Prop :=
  ∀ i (hi : i < records.length), records[i].id = Int32.ofNat (i + 1) ∧ Logged records[i]

/-- The slots contain exactly these records, from the first slot on. -/
def Holds (slots : slots_t) (records : List record_t) : Prop :=
  slots.toList = records ++ List.replicate (MAX_RECORDS - records.length) zero_record

theorem Holds.length_le {slots : slots_t} {records : List record_t} (hholds : Holds slots records) :
    records.length ≤ MAX_RECORDS := by
  have hlength := congrArg List.length hholds
  simp only [Vector.length_toList, List.length_append, List.length_replicate] at hlength
  omega

theorem Holds.get {slots : slots_t} {records : List record_t} (hholds : Holds slots records)
    (i : Fin MAX_RECORDS) : slots.get i = records.getD i zero_record := by
  have hget : some (slots.get i) = slots.toList[i.val]? := by
    rw [Vector.getElem?_toList, Vector.getElem?_eq_getElem i.isLt]
    rfl
  have hbound := hholds.length_le
  rw [hholds] at hget
  by_cases hi : i.val < records.length
  · rw [List.getElem?_append_left hi] at hget
    simp_all
  · rw [List.getElem?_append_right (by omega), List.getElem?_replicate_of_lt (by omega)] at hget
    simp_all

theorem Holds.get_of_lt {slots : slots_t} {records : List record_t} (hholds : Holds slots records)
    {i : Fin MAX_RECORDS} (hi : i.val < records.length) : slots.get i = records[i.val] := by
  rw [hholds.get i]
  simp [hi]

theorem Holds.get_of_ge {slots : slots_t} {records : List record_t} (hholds : Holds slots records)
    {i : Fin MAX_RECORDS} (hi : records.length ≤ i.val) : slots.get i = zero_record := by
  rw [hholds.get i]
  simp [hi]

theorem holds_append {slots : slots_t} {records : List record_t} (hholds : Holds slots records)
    (hroom : records.length < MAX_RECORDS) (record : record_t) :
    Holds (slots.set records.length record) (records ++ [record]) := by
  unfold Holds
  rw [Vector.toList_set, hholds, List.set_append_right _ _ (Nat.le_refl _), Nat.sub_self]
  obtain ⟨k, hk⟩ : ∃ k, MAX_RECORDS - records.length = k + 1 := ⟨MAX_RECORDS - records.length - 1, by omega⟩
  have hrest : MAX_RECORDS - (records ++ [record]).length = k := by
    simp only [List.length_append, List.length_singleton]
    omega
  rw [hrest, hk, List.replicate_succ, List.set_cons_zero, List.append_assoc, List.singleton_append]

/-- In a database holding logged records, the identifiers present are theirs. -/
theorem Holds.hasId_iff {slots : slots_t} {records : List record_t} (hholds : Holds slots records)
    (hlogged : ∀ r ∈ records, Logged r) (id : Int32) : HasId slots id ↔ ∃ r ∈ records, r.id = id := by
  constructor
  · rintro ⟨i, hactive, hid⟩
    by_cases hi : i.val < records.length
    · rw [hholds.get_of_lt hi] at hid
      exact ⟨_, List.getElem_mem hi, hid⟩
    · rw [hholds.get_of_ge (by omega)] at hactive
      exact absurd rfl hactive
  · rintro ⟨r, hr, hid⟩
    obtain ⟨i, hi, rfl⟩ := List.getElem_of_mem hr
    have hbound := hholds.length_le
    refine ⟨⟨i, by omega⟩, ?_⟩
    rw [hholds.get_of_lt hi]
    exact ⟨(hlogged _ hr).active_ne_zero, hid⟩

theorem Holds.already_applied {slots : slots_t} {records : List record_t} (hholds : Holds slots records)
    {r : record_t} (hlogged : Logged r) (hr : r ∈ records) : already_applied slots r = true := by
  obtain ⟨i, hi, rfl⟩ := List.getElem_of_mem hr
  have hbound := hholds.length_le
  refine already_applied_iff.mpr ⟨⟨i, by omega⟩, ?_⟩
  rw [hholds.get_of_lt hi]
  exact ⟨hlogged.active_ne_zero, rfl, rfl⟩

/-- A record with a new identifier goes to the first free slot. -/
theorem Holds.apply_to_database {slots : slots_t} {records : List record_t} (hholds : Holds slots records)
    (hlogged : ∀ r ∈ records, Logged r) (hroom : records.length < MAX_RECORDS) {record : record_t}
    (hnew : ¬ ∃ r ∈ records, r.id = record.id) :
    apply_to_database true slots record = (slots.set records.length record, 0) := by
  have hnot : ¬ HasId slots record.id := by rwa [hholds.hasId_iff hlogged]
  have hfree : (slots.get ⟨records.length, hroom⟩).active = 0 := by
    rw [hholds.get_of_ge (Nat.le_refl _)]
    rfl
  obtain ⟨i, hfind, hi, hbefore⟩ := find_slot_of_not_hasId hnot (fun hfull => hfull _ hfree)
  have hindex : i = ⟨records.length, hroom⟩ := by
    apply Fin.ext
    apply Nat.le_antisymm
    · by_contra hlt
      exact hbefore _ (Nat.lt_of_not_le hlt) hfree
    · by_contra hlt
      have hlt : i.val < records.length := Nat.lt_of_not_le hlt
      rw [hholds.get_of_lt hlt] at hi
      exact (hlogged _ (List.getElem_mem hlt)).active_ne_zero hi
  subst hindex
  simp [csystems.crash_recovery.apply_to_database, hfind]

theorem Numbered.logged {records : List record_t} (h : Numbered records) : ∀ r ∈ records, Logged r := by
  intro r hr
  obtain ⟨i, hi, rfl⟩ := List.getElem_of_mem hr
  exact (h i hi).2

theorem Numbered.take {records : List record_t} (h : Numbered records) (count : Nat) :
    Numbered (records.take count) := by
  intro i hi
  rw [List.getElem_take]
  exact h i (by simp at hi; omega)

theorem id_inj {i j : Nat} (hi : i ≤ MAX_RECORDS) (hj : j ≤ MAX_RECORDS)
    (h : Int32.ofNat i = Int32.ofNat j) : i = j := by
  have hi' : i < 2 ^ 31 := by simp only [MAX_RECORDS] at hi; omega
  have hj' : j < 2 ^ 31 := by simp only [MAX_RECORDS] at hj; omega
  have hint := congrArg Int32.toInt h
  rw [Int32.toInt_ofNat_of_lt hi', Int32.toInt_ofNat_of_lt hj'] at hint
  omega

/-- The identifier after the last one is new. -/
theorem Numbered.next_new {records : List record_t} (h : Numbered records)
    (hroom : records.length < MAX_RECORDS) : ¬ ∃ r ∈ records, r.id = Int32.ofNat (records.length + 1) := by
  rintro ⟨r, hr, hid⟩
  obtain ⟨i, hi, rfl⟩ := List.getElem_of_mem hr
  rw [(h i hi).1] at hid
  have := id_inj (by omega) (by omega) hid
  omega

theorem Numbered.append_numbered {records : List record_t} (h : Numbered records) (names : List (List UInt8)) :
    Numbered (records ++ numbered_records (Int32.ofNat (records.length + 1)) names) := by
  induction names generalizing records with
  | nil => simpa [numbered_records] using h
  | cons name rest ih =>
    have hstep : Numbered (records ++ [new_record (Int32.ofNat (records.length + 1)) name]) := by
      intro i hi
      by_cases hlt : i < records.length
      · simpa [List.getElem_append_left hlt] using h i hlt
      · have heq : i = records.length := by simp at hi; omega
        subst i
        simpa using ⟨rfl, new_record_logged _ name⟩
    have hnext := ih hstep
    simpa [numbered_records, Int32.ofNat_add] using hnext

end csystems.crash_recovery
