import Mathlib.Data.Fintype.Card
import CSystems.CrashRecovery.Capacity

open clib.string clib.scan

namespace csystems.crash_recovery

/-- Every identifier of the records is that of an active slot, under the name
that its last record gives. -/
def HoldsLast (slots : slots_t) (records : List record_t) : Prop :=
  ∀ (front : List record_t) (last : record_t) (back : List record_t), records = front ++ last :: back →
    (∀ record ∈ back, record.id ≠ last.id) →
    ∃ i : Fin MAX_RECORDS, (slots.get i).active ≠ 0 ∧ (slots.get i).id = last.id ∧ SameName (slots.get i) last

/-- A record that is not refused is held afterwards, and so are the last records
of the other identifiers. -/
theorem HoldsLast.replayed {slots : slots_t} {past : List record_t} (h : HoldsLast slots past) {record : record_t}
    (hrecord : record.active ≠ 0) (hroom : HasId slots record.id ∨ ¬ Full slots) :
    HoldsLast (replay_record slots record) (past ++ [record]) := by
  intro front last back hsplit hlast
  unfold replay_record
  rcases List.eq_nil_or_concat back with rfl | ⟨back, newest, rfl⟩
  · obtain ⟨-, rfl⟩ := List.append_inj' hsplit rfl |>.imp_right List.singleton_inj.mp
    split
    · next happlied => exact already_applied_iff.mp happlied
    · rcases apply_to_database_cases true slots record with ⟨i, -, -, heq⟩ | ⟨-, i, -, heq⟩ | ⟨hnot, hfull, -⟩
      · exact ⟨i, by simp [heq, get_set_fin, hrecord, SameName]⟩
      · exact ⟨i, by simp [heq, get_set_fin, hrecord, SameName]⟩
      · exact (hroom.elim hnot fun hfree => hfree hfull).elim
  · rw [List.concat_eq_append, ← List.cons_append, ← List.append_assoc] at hsplit
    obtain ⟨rfl, rfl⟩ := List.append_inj' hsplit rfl |>.imp_right List.singleton_inj.mp
    obtain ⟨j, hj, hjid, hjname⟩ := h front last back rfl fun r hr => hlast r (by simp [hr])
    have hne : record.id ≠ last.id := hlast record (by simp)
    split
    · exact ⟨j, hj, hjid, hjname⟩
    · -- the slot written is another one: it is inactive or has the identifier of the record
      have hother {i : Fin MAX_RECORDS} (hslot : (slots.get i).active ≠ 0 → (slots.get i).id = record.id) :
          i ≠ j := by
        rintro rfl
        exact hne ((hslot hj).symm.trans hjid)
      rcases apply_to_database_cases true slots record with ⟨i, -, hid, heq⟩ | ⟨-, i, hfree, heq⟩ | ⟨-, -, heq⟩
      · refine ⟨j, ?_⟩
        rw [heq, get_set_fin, if_neg (hother fun _ => hid)]
        exact ⟨hj, hjid, hjname⟩
      · refine ⟨j, ?_⟩
        rw [heq, get_set_fin, if_neg (hother fun hactive => absurd hfree hactive)]
        exact ⟨hj, hjid, hjname⟩
      · rw [heq]
        exact ⟨j, hj, hjid, hjname⟩

/-- With room for all identifiers, replay keeps the last record of each. -/
theorem HoldsLast.replay {slots : slots_t} {past records : List record_t} (h : HoldsLast slots past)
    (hrecords : ∀ record ∈ records, record.active ≠ 0) {ids : List Int32} (hroom : EnoughRoom slots ids)
    (hids : ∀ record ∈ records, record.id ∈ ids) :
    HoldsLast (records.foldl replay_record slots) (past ++ records) := by
  induction records generalizing slots past with
  | nil => simpa using h
  | cons record rest ih =>
    have hid := hids record (by simp)
    have haccepted : HasId slots record.id ∨ ¬ Full slots := by
      by_cases hhas : HasId slots record.id
      · exact Or.inl hhas
      · exact Or.inr (hroom.not_full hid hhas)
    have hnext := ih (h.replayed (hrecords record (by simp)) haccepted) (fun r hr => hrecords r (by simp [hr]))
      (hroom.replayed hid) fun r hr => hids r (by simp [hr])
    simpa using hnext

theorem HasId.replayed {slots : slots_t} {id : Int32} (h : HasId slots id) {record : record_t}
    (hrecord : record.active ≠ 0) : HasId (replay_record slots record) id := by
  have hset {i : Fin MAX_RECORDS} (hslot : (slots.get i).active ≠ 0 → (slots.get i).id = record.id) :
      HasId (slots.set i.val record i.isLt) id := by
    by_cases hne : id = record.id
    · rw [hne]
      exact hasId_set_self i hrecord
    · exact (hasId_set_of_ne hslot hne).mpr h
  unfold replay_record
  split
  · exact h
  · rcases apply_to_database_cases true slots record with ⟨i, -, hid, heq⟩ | ⟨-, i, hfree, heq⟩ | ⟨-, -, heq⟩
    · rw [heq]
      exact hset fun _ => hid
    · rw [heq]
      exact hset fun hactive => absurd hfree hactive
    · rwa [heq]

theorem HasId.replay {slots : slots_t} {id : Int32} (h : HasId slots id) {records : List record_t}
    (hrecords : ∀ record ∈ records, record.active ≠ 0) : HasId (records.foldl replay_record slots) id := by
  induction records generalizing slots with
  | nil => exact h
  | cons record rest ih =>
    exact ih (h.replayed (hrecords record (by simp))) fun r hr => hrecords r (by simp [hr])

/-- Every identifier of a list has a last record. -/
theorem exists_last_record {records : List record_t} {record : record_t} (hmem : record ∈ records) :
    ∃ front last back, records = front ++ last :: back ∧ last.id = record.id ∧ ∀ r ∈ back, r.id ≠ last.id := by
  induction records using List.reverseRecOn with
  | nil => simp at hmem
  | append_singleton records newest ih =>
    by_cases hid : newest.id = record.id
    · exact ⟨records, newest, [], rfl, hid, by simp⟩
    · have hearlier : record ∈ records := by
        rcases List.mem_append.mp hmem with hmem | hmem
        · exact hmem
        · rw [List.mem_singleton.mp hmem] at hid
          exact absurd rfl hid
      obtain ⟨front, last, back, rfl, hlast, hback⟩ := ih hearlier
      refine ⟨front, last, back ++ [newest], by simp, hlast, fun r hr => ?_⟩
      rcases List.mem_append.mp hr with hr | hr
      · exact hback r hr
      · rwa [List.mem_singleton.mp hr, hlast]

/-- The identifiers of the active slots. -/
def held_ids (slots : slots_t) : Finset Int32 :=
  (Finset.univ \ free_slots slots).image fun i => (slots.get i).id

theorem mem_held_ids {slots : slots_t} {id : Int32} : id ∈ held_ids slots ↔ HasId slots id := by
  simp [held_ids, HasId]

theorem card_held_ids_le (slots : slots_t) : (held_ids slots).card ≤ MAX_RECORDS := by
  have hsub := Finset.card_le_univ (Finset.univ \ free_slots slots)
  rw [Fintype.card_fin] at hsub
  exact Nat.le_trans Finset.card_image_le hsub

theorem DistinctIds.card_held_ids {slots : slots_t} (hdistinct : DistinctIds slots) :
    (held_ids slots).card + (free_slots slots).card = MAX_RECORDS := by
  have hinj : Set.InjOn (fun i => (slots.get i).id) (Finset.univ \ free_slots slots : Finset (Fin MAX_RECORDS)) := by
    intro i hi j hj hid
    simp only [Finset.coe_sdiff, Finset.coe_univ, Set.mem_sdiff, Set.mem_univ, Finset.mem_coe, mem_free_slots,
      true_and] at hi hj
    exact hdistinct i j hi hj hid
  have hcount := Finset.card_sdiff_add_card_eq_card (Finset.subset_univ (free_slots slots))
  rw [held_ids, Finset.card_image_of_injOn hinj, hcount, Finset.card_univ, Fintype.card_fin]

/-- If every identifier of the records ends up in a slot, there was room. -/
theorem enoughRoom_of_hasId {slots final : slots_t} (hdistinct : DistinctIds slots) {ids : List Int32}
    (hkept : ∀ id, HasId slots id → HasId final id) (hids : ∀ id ∈ ids, HasId final id) : EnoughRoom slots ids := by
  have hdisjoint : Disjoint (held_ids slots) (absent_ids slots ids) := by
    rw [Finset.disjoint_left]
    intro id hheld habsent
    exact (mem_absent_ids.mp habsent).2 (mem_held_ids.mp hheld)
  have hsub : held_ids slots ∪ absent_ids slots ids ⊆ held_ids final := by
    intro id hid
    rw [mem_held_ids]
    rcases Finset.mem_union.mp hid with hid | hid
    · exact hkept id (mem_held_ids.mp hid)
    · exact hids id (mem_absent_ids.mp hid).1
  have hcard := Nat.le_trans (Finset.card_le_card hsub) (card_held_ids_le final)
  rw [Finset.card_union_of_disjoint hdisjoint] at hcard
  have hfree := hdistinct.card_held_ids
  unfold EnoughRoom
  omega

/-- The iteration finds a record that is not yet applied, and applies it. -/
def Replays (env : replay_env) (slots : slots_t) (entry : wal_entry_t) : Prop :=
  ChecksumValid entry ∧ already_applied slots entry.data = false ∧
    (HasId slots entry.data.id ∨ ¬ Full slots) ∧ env.msync_ok = true

theorem replay_entry_count (env : replay_env) (state : slots_t × Nat) (entry : wal_entry_t) :
    (Replays env state.1 entry ∧ (replay_entry env state entry).2 = state.2 + 1) ∨
      (¬ Replays env state.1 entry ∧ (replay_entry env state entry).2 = state.2) := by
  unfold replay_entry
  rw [checksum_matches_eq]
  by_cases hvalid : ChecksumValid entry
  · by_cases happlied : already_applied state.1 entry.data = true
    · exact Or.inr ⟨fun h => by simp [Replays, happlied] at h, by simp [happlied]⟩
    · have hroom : (apply_to_database env.msync_ok state.1 entry.data).2 = -1 ↔
          ¬ ((HasId state.1 entry.data.id ∨ ¬ Full state.1) ∧ env.msync_ok = true) := by
        rcases apply_to_database_cases env.msync_ok state.1 entry.data with
          ⟨i, hi, hid, heq⟩ | ⟨-, i, hfree, heq⟩ | ⟨hnot, hfull, heq⟩
        · have hhas : HasId state.1 entry.data.id := ⟨i, hi, hid⟩
          rw [heq]
          cases env.msync_ok <;> simp [hhas]
        · have hnot : ¬ Full state.1 := fun hfull => hfull i hfree
          rw [heq]
          cases env.msync_ok <;> simp [hnot]
        · rw [heq]
          exact iff_of_true rfl fun h => h.1.elim hnot fun hfree => hfree hfull
      simp only [Bool.not_eq_true] at happlied
      by_cases hcode : (apply_to_database env.msync_ok state.1 entry.data).2 = -1
      · exact Or.inr ⟨fun h => hroom.mp hcode h.2.2, by simp [hvalid, happlied, hcode]⟩
      · exact Or.inl ⟨⟨hvalid, happlied, not_not.mp fun h => hcode (hroom.mpr h)⟩, by simp [hvalid, happlied, hcode]⟩
  · exact Or.inr ⟨fun h => hvalid h.1, by simp [hvalid]⟩

theorem replay_loop_count_le (env : Nat → replay_env) (k : Nat) (state : slots_t × Nat) (wal : List wal_entry_t) :
    state.2 ≤ (replay_loop env k state wal).2 := by
  induction wal generalizing k state with
  | nil => exact Nat.le_refl _
  | cons entry rest ih =>
    have hrest := ih (k + 1) (replay_entry (env k) state entry)
    have hfirst := replay_entry_count (env k) state entry
    rw [replay_loop]
    omega

/-- The loop counts something exactly if some iteration applies its record to
the slots that the entries before it left. -/
theorem replay_loop_counts_iff (env : Nat → replay_env) (k : Nat) (state : slots_t × Nat) (wal : List wal_entry_t) :
    state.2 < (replay_loop env k state wal).2 ↔
      ∃ i, ∃ hi : i < wal.length,
        Replays (env (k + i)) ((valid_records (wal.take i)).foldl replay_record state.1) wal[i] := by
  induction wal generalizing k state with
  | nil => simp [replay_loop]
  | cons entry rest ih =>
    have hnext := ih (k + 1) (replay_entry (env k) state entry)
    have hle := replay_loop_count_le env (k + 1) (replay_entry (env k) state entry) rest
    have hslots (i : Nat) : (valid_records (rest.take i)).foldl replay_record (replay_entry (env k) state entry).1 =
        (valid_records ((entry :: rest).take (i + 1))).foldl replay_record state.1 := by
      rw [replay_entry_slots, List.take_succ_cons]
      by_cases hvalid : ChecksumValid entry <;> simp [valid_records, hvalid]
    rw [replay_loop]
    rcases replay_entry_count (env k) state entry with ⟨hreplays, hcount⟩ | ⟨hnot, hcount⟩
    · exact iff_of_true (by omega) ⟨0, by simp, hreplays⟩
    · rw [← hcount, hnext]
      constructor
      · rintro ⟨i, hi, hreplays⟩
        rw [hslots, Nat.add_assoc, Nat.add_comm 1] at hreplays
        exact ⟨i + 1, by simpa using hi, hreplays⟩
      · rintro ⟨i, hi, hreplays⟩
        cases i with
        | zero => exact absurd hreplays hnot
        | succ i =>
          refine ⟨i, by simpa using hi, ?_⟩
          rw [hslots, Nat.add_assoc, Nat.add_comm 1]
          exact hreplays

/-- Recovery truncates a WAL that it replays something from. -/
theorem recover_from_wal_truncates_iff (env : Nat → replay_env) (ctx : db_context_t) :
    0 < (recover_from_wal env ctx).2 ↔
      ∃ i, ∃ hi : i < ctx.wal.length,
        Replays (env i) ((valid_records (ctx.wal.take i)).foldl replay_record ctx.db_mmap) ctx.wal[i] := by
  have hcount : (recover_from_wal env ctx).2 = (replay_loop env 0 (ctx.db_mmap, 0) ctx.wal).2 := rfl
  rw [hcount]
  simpa using replay_loop_counts_iff env 0 (ctx.db_mmap, 0) ctx.wal

/-- A truncated WAL is no longer needed exactly if the database had a free slot
for every new identifier of its valid entries, or if nothing is replayed, so
that it is not truncated at all. -/
theorem recover_from_wal_truncates_safely_iff (env : Nat → replay_env) (ctx : db_context_t)
    (hdistinct : DistinctIds ctx.db_mmap)
    (hactive : ∀ entry ∈ ctx.wal, ChecksumValid entry → entry.data.active ≠ 0) :
    ((recover_from_wal env ctx).1.wal = [] →
      HoldsLast (recover_from_wal env ctx).1.db_mmap (valid_records ctx.wal)) ↔
    EnoughRoom ctx.db_mmap ((valid_records ctx.wal).map record_t.id) ∨
      ∀ i, ∀ hi : i < ctx.wal.length,
        ¬ Replays (env i) ((valid_records (ctx.wal.take i)).foldl replay_record ctx.db_mmap) ctx.wal[i] := by
  have hrecords : ∀ record ∈ valid_records ctx.wal, record.active ≠ 0 := by
    intro record hrecord
    obtain ⟨entry, hmem, hvalid, rfl⟩ := mem_valid_records.mp hrecord
    exact hactive entry hmem hvalid
  have hholds : HoldsLast (recover_from_wal env ctx).1.db_mmap (valid_records ctx.wal) ↔
      EnoughRoom ctx.db_mmap ((valid_records ctx.wal).map record_t.id) := by
    rw [recover_from_wal_slots]
    constructor
    · intro hholds
      refine enoughRoom_of_hasId hdistinct (fun id hid => hid.replay hrecords) fun id hid => ?_
      obtain ⟨record, hrecord, rfl⟩ := List.mem_map.mp hid
      obtain ⟨front, last, back, hsplit, hlast, hback⟩ := exists_last_record hrecord
      obtain ⟨i, hi, hiid, -⟩ := hholds front last back hsplit hback
      exact ⟨i, hi, hiid.trans hlast⟩
    · intro hroom
      have hnothing : HoldsLast ctx.db_mmap [] := fun front last back hsplit => by simp at hsplit
      exact hnothing.replay hrecords hroom fun record hrecord => List.mem_map_of_mem hrecord
  have htruncates := recover_from_wal_truncates_iff env ctx
  have hwal : (recover_from_wal env ctx).1.wal = if 0 < (recover_from_wal env ctx).2 then [] else ctx.wal := rfl
  rw [hholds]
  by_cases hcount : 0 < (recover_from_wal env ctx).2
  · rw [if_pos hcount] at hwal
    obtain ⟨i, hi, hreplays⟩ := htruncates.mp hcount
    exact ⟨fun h => Or.inl (h hwal), fun h _ => h.resolve_right fun hnone => hnone i hi hreplays⟩
  · rw [if_neg hcount] at hwal
    refine iff_of_true (fun hempty => ?_) (Or.inr fun i hi hreplays => hcount (htruncates.mpr ⟨i, hi, hreplays⟩))
    -- an empty WAL is left empty, and there is nothing to hold
    rw [hwal] at hempty
    simp [EnoughRoom, absent_ids, valid_records, hempty]

/-- A database whose first `count` slots hold the identifiers 1, 2, ... -/
def filled_slots (count : Nat) : slots_t :=
  Vector.ofFn fun i => if i.val < count then new_record (Int32.ofNat (i + 1)) [65] else zero_record

theorem filled_slots_distinct (count : Nat) : DistinctIds (filled_slots count) := by
  have hget (i : Fin MAX_RECORDS) : (filled_slots count).get i =
      if i.val < count then new_record (Int32.ofNat (i + 1)) [65] else zero_record :=
    Vector.getElem_ofFn i.isLt
  intro i j hi hj hid
  rw [hget] at hi hj
  rw [hget, hget] at hid
  have hlt (k : Fin MAX_RECORDS)
      (hk : (if k.val < count then new_record (Int32.ofNat (k + 1)) [65] else zero_record).active ≠ 0) :
      k.val < count := by
    by_contra hnot
    rw [if_neg hnot] at hk
    exact hk rfl
  rw [if_pos (hlt i hi), if_pos (hlt j hj)] at hid
  have heq := id_inj (Nat.succ_le_of_lt i.isLt) (Nat.succ_le_of_lt j.isLt) hid
  exact Fin.ext (by omega)

/-- Two new identifiers are pending in the WAL. -/
def pending_ctx (count : Nat) : db_context_t where
  db_mmap := filled_slots count
  wal :=
    let env : call_env := { time := 0, stack := Vector.replicate 16 7 }
    [make_wal_entry env (new_record 101 [66]), make_wal_entry env (new_record 102 [67])]
  next_id := 101

theorem recover_from_wal_truncates_safely_new :
    (recover_from_wal steady_env (pending_ctx 0)).1.wal = [] ∧
    HoldsLast (recover_from_wal steady_env (pending_ctx 0)).1.db_mmap (valid_records (pending_ctx 0).wal) := by
  have hdistinct : DistinctIds (pending_ctx 0).db_mmap := filled_slots_distinct 0
  have hlive : ∀ entry ∈ (pending_ctx 0).wal, entry.data.active ≠ 0 := by decide +kernel
  have hactive : ∀ entry ∈ (pending_ctx 0).wal, ChecksumValid entry → entry.data.active ≠ 0 :=
    fun entry hentry _ => hlive entry hentry
  have htruncated : (recover_from_wal steady_env (pending_ctx 0)).1.wal = [] := by decide +kernel
  refine ⟨htruncated,
    (recover_from_wal_truncates_safely_iff steady_env _ hdistinct hactive).mpr (Or.inl ?_) htruncated⟩
  decide +kernel

/-- With one slot left, the first entry is replayed and the second refused; the
WAL is truncated, and identifier 102 is in no slot. -/
theorem recover_from_wal_loses_refused :
    DistinctIds (pending_ctx 99).db_mmap ∧
    (∀ entry ∈ (pending_ctx 99).wal, ChecksumValid entry ∧ entry.data.active = 1) ∧
    (recover_from_wal steady_env (pending_ctx 99)).1.wal = [] ∧
    ¬ HasId (recover_from_wal steady_env (pending_ctx 99)).1.db_mmap 102 ∧
    ¬ HoldsLast (recover_from_wal steady_env (pending_ctx 99)).1.db_mmap (valid_records (pending_ctx 99).wal) := by
  have hlost : ¬ HasId (recover_from_wal steady_env (pending_ctx 99)).1.db_mmap 102 := by decide +kernel
  refine ⟨filled_slots_distinct 99, by decide +kernel, by decide +kernel, hlost, fun hholds => ?_⟩
  have hvalid : valid_records (pending_ctx 99).wal = [new_record 101 [66]] ++ new_record 102 [67] :: [] := by
    decide +kernel
  obtain ⟨i, hi, hid, -⟩ := hholds _ _ _ hvalid (by simp)
  exact hlost ⟨i, hi, hid⟩

end csystems.crash_recovery
