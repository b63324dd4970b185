import CSystems.Lib.Bytes
import CSystems.CrashRecovery.WalFile

open clib.bytes clib.checksum clib.file clib.string

namespace csystems.crash_recovery

section Hash

private theorem mul_31_injective : Function.Injective fun hash : UInt32 => hash * 31 := by
  intro hash hash' h
  -- 31 is odd, hence invertible modulo 2 ^ 32
  have hinverse (x : UInt32) : x * 31 * 3186588639 = x := by
    rw [UInt32.mul_assoc, show (31 * 3186588639 : UInt32) = 1 by decide, UInt32.mul_one]
  have hcancel := congrArg (· * (3186588639 : UInt32)) h
  dsimp only at hcancel
  rwa [hinverse, hinverse] at hcancel

private theorem char_to_unsigned_injective : Function.Injective char_to_unsigned := by
  intro b b' h
  have hint : b.toInt8.toInt32 = b'.toInt8.toInt32 := by
    simpa [char_to_unsigned] using congrArg UInt32.toInt32 h
  have hbyte : b.toInt8 = b'.toInt8 := by
    rw [← Int8.toInt_inj, ← Int8.toInt_toInt32, ← Int8.toInt_toInt32, hint]
  simpa using congrArg Int8.toUInt8 hbyte

/-- A changed byte changes the hash. -/
theorem hash_set_ne {bytes : List UInt8} {i : Nat} (hi : i < bytes.length) {b : UInt8} (hb : b ≠ bytes[i]) :
    (bytes.set i b).foldl (fun hash b => hash * 31 + char_to_unsigned b) 0 ≠
      bytes.foldl (fun hash b => hash * 31 + char_to_unsigned b) 0 := by
  refine foldl_set_ne ?_ ?_ hi hb 0
  · intro b hash hash' h
    exact mul_31_injective ((UInt32.add_left_inj _).mp h)
  · intro hash b b' h
    exact char_to_unsigned_injective ((UInt32.add_right_inj _).mp h)

private theorem toNat_hex_digit {d : UInt8} (hd : d.toNat ≤ 15) :
    (hex_digit d).toNat = if d.toNat < 10 then 48 + d.toNat else 55 + d.toNat := by
  have hlt : d < 10 ↔ d.toNat < 10 := UInt8.lt_iff_toNat_lt
  simp only [hex_digit, hlt]
  split
  · simp only [UInt8.toNat_add, UInt8.reduceToNat]
    omega
  · simp only [UInt8.toNat_add, UInt8.reduceToNat]
    omega

private theorem toNat_nibble (hash : UInt32) {k : Nat} (hk : k < 32) :
    ((hash >>> UInt32.ofNat k).toUInt8 &&& 15).toNat = hash.toNat / 2 ^ k % 16 := by
  have hshift : (UInt32.ofNat k).toNat % 32 = k := by
    rw [UInt32.toNat_ofNat']
    omega
  rw [UInt8.toNat_and, UInt32.toNat_toUInt8, UInt32.toNat_shiftRight, hshift, Nat.shiftRight_eq_div_pow]
  have hand := Nat.and_two_pow_sub_one_eq_mod (hash.toNat / 2 ^ k % 2 ^ 8) 4
  rw [show (15 : UInt8).toNat = 2 ^ 4 - 1 from rfl, hand]
  omega

/-- Equal digits come from equal parts of the values. -/
private theorem nibble_eq {hash hash' : UInt32} {k : Nat} (hk : k < 32)
    (h : hex_digit ((hash >>> UInt32.ofNat k).toUInt8 &&& 15) =
      hex_digit ((hash' >>> UInt32.ofNat k).toUInt8 &&& 15)) :
    hash.toNat / 2 ^ k % 16 = hash'.toNat / 2 ^ k % 16 := by
  have hnibble := toNat_nibble hash hk
  have hnibble' := toNat_nibble hash' hk
  have hdigit := congrArg UInt8.toNat h
  rw [toNat_hex_digit (by omega), toNat_hex_digit (by omega), hnibble, hnibble'] at hdigit
  split at hdigit <;> split at hdigit <;> omega

private theorem div_eq_of_nibble_eq {m n k : Nat} (hhigh : m / 2 ^ (k + 4) = n / 2 ^ (k + 4))
    (hlow : m / 2 ^ k % 16 = n / 2 ^ k % 16) : m / 2 ^ k = n / 2 ^ k := by
  rw [Nat.pow_add, ← Nat.div_div_eq_div_mul, ← Nat.div_div_eq_div_mul] at hhigh
  omega

theorem format_08X_injective : Function.Injective format_08X := by
  intro hash hash' h
  simp only [format_08X, List.map_cons, List.map_nil, List.cons.injEq, and_true] at h
  obtain ⟨h28, h24, h20, h16, h12, h8, h4, h0⟩ := h
  have hlt := hash.toNat_lt
  have hlt' := hash'.toNat_lt
  have hhigh : hash.toNat / 2 ^ 32 = hash'.toNat / 2 ^ 32 := by
    rw [Nat.div_eq_of_lt hlt, Nat.div_eq_of_lt hlt']
  have hhigh := div_eq_of_nibble_eq hhigh (nibble_eq (k := 28) (by omega) h28)
  have hhigh := div_eq_of_nibble_eq hhigh (nibble_eq (k := 24) (by omega) h24)
  have hhigh := div_eq_of_nibble_eq hhigh (nibble_eq (k := 20) (by omega) h20)
  have hhigh := div_eq_of_nibble_eq hhigh (nibble_eq (k := 16) (by omega) h16)
  have hhigh := div_eq_of_nibble_eq hhigh (nibble_eq (k := 12) (by omega) h12)
  have hhigh := div_eq_of_nibble_eq hhigh (nibble_eq (k := 8) (by omega) h8)
  have hhigh := div_eq_of_nibble_eq hhigh (nibble_eq (k := 4) (by omega) h4)
  have hhigh := div_eq_of_nibble_eq hhigh (nibble_eq (k := 0) (by omega) h0)
  apply UInt32.toNat_inj.mp
  rwa [Nat.pow_zero, Nat.div_one, Nat.div_one] at hhigh

end Hash

/-- `sizeof(record_t)`. -/
def RECORD_SIZE : Nat := 40

/-- The record with the given bytes. -/
def record_of_image (image : List UInt8) : record_t where
  id := bytes_int (slice image 0 4)
  name := bytes_chars 32 (slice image 4 32)
  active := bytes_int (slice image 36 4)

section Image

variable {image : List UInt8}

private theorem int_bytes_bytes_int {bytes : List UInt8} (h : bytes.length = 4) :
    int_bytes (bytes_int bytes) = bytes := by
  have hlt := le_nat_lt bytes
  rw [h] at hlt
  have hle := le_bytes_le_nat bytes
  rw [h] at hle
  rw [int_bytes_eq, bytes_int]
  simp only [UInt32.toUInt32_toInt32, UInt32.toNat_ofNat']
  rw [Nat.mod_eq_of_lt (by omega), hle]

private theorem toList_bytes_chars {n : Nat} {bytes : List UInt8} (h : bytes.length = n) :
    (bytes_chars n bytes).toList = bytes := by
  apply List.ext_getElem
  · rw [Vector.length_toList, h]
  · intro i hi hi'
    simp [bytes_chars, hi']

/-- Every image is the image of a record. -/
theorem bytes_record_of_image (h : image.length = RECORD_SIZE) : (record_of_image image).bytes = image := by
  have hlength : image.length = 40 := h
  rw [record_t.bytes, record_of_image]
  dsimp only
  rw [int_bytes_bytes_int, int_bytes_bytes_int, toList_bytes_chars]
  · have hlast : (image.drop 36).take 4 = image.drop 36 := List.take_of_length_le (by rw [List.length_drop]; omega)
    have hmiddle := List.take_append_drop 32 (image.drop 4)
    rw [List.drop_drop] at hmiddle
    rw [slice, slice, slice, hlast, List.append_assoc, hmiddle, List.drop_zero, List.take_append_drop]
  all_goals
    rw [length_slice]
    omega

theorem length_bytes (record : record_t) : record.bytes.length = RECORD_SIZE := by
  simp [record_t.bytes, int_bytes, RECORD_SIZE]

/-- Records that differ in one byte have different checksum strings. -/
theorem calculate_checksum_ne {record record' : record_t} {i : Nat} (hi : i < RECORD_SIZE) {b : UInt8}
    (hb : record.bytes[i]? ≠ some b) (hbytes : record'.bytes = record.bytes.set i b)
    (stack stack' : Vector UInt8 16) :
    c_str (calculate_checksum record stack).toList ≠ c_str (calculate_checksum record' stack').toList := by
  have hlt : i < record.bytes.length := (length_bytes record).symm ▸ hi
  rw [List.getElem?_eq_getElem hlt] at hb
  have hne : b ≠ record.bytes[i] := fun heq => hb (congrArg some heq.symm)
  rw [c_str_calculate_checksum, c_str_calculate_checksum]
  intro heq
  have hhash := format_08X_injective heq
  rw [record_hash, record_hash, hbytes] at hhash
  exact hash_set_ne hlt hne hhash.symm

end Image

/-- An entry as `write_wal_entry` has written it to the WAL, and what has happened to a
byte of its record since. -/
structure logged_t where
  padding : Vector UInt8 4
  env : call_env
  record : record_t
  altered : Option (Nat × UInt8)

namespace logged_t

def bytes (e : logged_t) : List UInt8 :=
  match e.altered with
  | none => entry_bytes e.padding (make_wal_entry e.env e.record)
  | some (i, b) => (entry_bytes e.padding (make_wal_entry e.env e.record)).set (4 + i) b

/-- The altered byte is one of the record, and is not what it was. -/
def Altered (e : logged_t) : Prop := ∀ i b, e.altered = some (i, b) → i < RECORD_SIZE ∧ e.record.bytes[i]? ≠ some b

/-- The entry that the bytes stand for. -/
def entry (e : logged_t) : wal_entry_t :=
  { make_wal_entry e.env e.record with
    data := match e.altered with
      | none => e.record
      | some (i, b) => record_of_image (e.record.bytes.set i b) }

variable {e : logged_t}

theorem bytes_data {i : Nat} {b : UInt8} (he : e.altered = some (i, b)) :
    e.entry.data.bytes = e.record.bytes.set i b := by
  simp only [entry, he]
  exact bytes_record_of_image (by rw [List.length_set, length_bytes])

theorem bytes_eq (h : e.Altered) : e.bytes = entry_bytes e.padding e.entry := by
  rw [bytes]
  split
  · next he => simp only [entry, he, make_wal_entry]
  · next i b he =>
    obtain ⟨hi, -⟩ := h i b he
    have hid : (int_bytes (make_wal_entry e.env e.record).record_id).length = 4 := rfl
    have hlength : (make_wal_entry e.env e.record).data.bytes.length = RECORD_SIZE := length_bytes e.record
    rw [entry_bytes, entry_bytes, bytes_data he, List.set_append_right _ _ (by omega), hid, Nat.add_sub_cancel_left,
      List.set_append_left _ _ (by omega)]
    rfl

/-- The check of the replay loop fails exactly on altered entries. -/
theorem checksum_matches_entry (h : e.Altered) (stack : Vector UInt8 16) :
    checksum_matches stack e.entry = e.altered.isNone := by
  have hstored : e.entry.checksum = calculate_checksum e.record e.env.stack := rfl
  rw [checksum_matches, hstored]
  simp only [strcmp_eq_zero_iff]
  cases he : e.altered with
  | none => simp [entry, he, c_str_calculate_checksum]
  | some change =>
    obtain ⟨i, b⟩ := change
    obtain ⟨hi, hb⟩ := h i b he
    simpa using calculate_checksum_ne hi hb (bytes_data he) e.env.stack stack

end logged_t

/-- What a recovery does with a record that it accepts. -/
def accept_record (msync_ok : Bool) (state : slots_t × Nat) (record : record_t) : slots_t × Nat :=
  if already_applied state.1 record then state
  else
    let (slots, code) := apply_to_database msync_ok state.1 record
    (slots, if code = -1 then state.2 else state.2 + 1)

/-- The replay of a log that accepts the unaltered records and rejects the others. -/
def replay_unaltered (env : Nat → replay_env) : Nat → slots_t × Nat → List logged_t → slots_t × Nat
  | _, state, [] => state
  | i, state, e :: log =>
    replay_unaltered env (i + 1) (if e.altered.isNone then accept_record (env i).msync_ok state e.record else state) log

section Replay

variable {e : logged_t} {env : replay_env} {state : slots_t × Nat}

theorem replay_entry_eq (h : e.Altered) (env : replay_env) (state : slots_t × Nat) :
    replay_entry env state e.entry =
      if e.altered.isNone then accept_record env.msync_ok state e.record else state := by
  have hcheck := logged_t.checksum_matches_entry h env.stack
  rw [replay_entry, hcheck]
  cases he : e.altered with
  | some change => rfl
  | none =>
    have hdata : e.entry.data = e.record := by rw [logged_t.entry, he]
    rw [hdata, accept_record]
    cases already_applied state.1 e.record with
    | true => rfl
    | false =>
      simp only [Option.isNone_none, Bool.not_true, Bool.false_eq_true, if_false, if_true]
      split <;> rfl

theorem replay_loop_eq {log : List logged_t} (h : ∀ e ∈ log, e.Altered) (env : Nat → replay_env) (i : Nat)
    (state : slots_t × Nat) :
    replay_loop env i state (log.map logged_t.entry) = replay_unaltered env i state log := by
  induction log generalizing i state with
  | nil => rfl
  | cons e log ih =>
    rw [List.map_cons, replay_loop, replay_unaltered, replay_entry_eq (h e List.mem_cons_self)]
    exact ih (fun e he => h e (List.mem_cons_of_mem _ he)) _ _

end Replay

/-- Every image of a record and every image that differs from it in one byte have
different checksum strings. A recovery reads back every entry of the WAL and compares
its checksum. It leaves out those whose record was altered in one byte, and replays all
others: each is applied and counted, unless the database holds it already or is full. -/
theorem single_byte_corruption_caught :
    (∀ image : List UInt8, image.length = RECORD_SIZE → ∀ i < RECORD_SIZE, ∀ b, image[i]? ≠ some b →
      ∀ stack stack' : Vector UInt8 16,
        c_str (calculate_checksum (record_of_image image) stack).toList ≠
          c_str (calculate_checksum (record_of_image (image.set i b)) stack').toList) ∧
    ∀ (log : List logged_t) (torn : List UInt8), (∀ e ∈ log, e.Altered) → torn.length < sizeof_wal_entry →
      ∃ entries, read_entries (lseek { bytes := log.flatMap logged_t.bytes ++ torn, pos := 0 } 0) = entries ∧
        entries.length = log.length ∧
        (∀ (k : Nat) e entry, log[k]? = some e → entries[k]? = some entry →
          ∀ (env : replay_env) (state : slots_t × Nat),
            checksum_matches env.stack entry = e.altered.isNone ∧
            replay_entry env state entry =
              if e.altered.isNone then accept_record env.msync_ok state e.record else state) ∧
        ∀ (env : Nat → replay_env) (slots : slots_t) (next_id : Int32),
          let recovered := replay_unaltered env 0 (slots, 0) log
          recover_from_wal env ⟨slots, entries, next_id⟩ =
            (⟨recovered.1, if recovered.2 > 0 then [] else entries, next_id⟩, recovered.2) ∧
          recover_files env { slots, wal := log.flatMap logged_t.bytes ++ torn } =
            ({ slots := recovered.1, wal := if recovered.2 > 0 then [] else log.flatMap logged_t.bytes ++ torn },
              recovered.2) := by
  constructor
  · intro image himage i hi b hb stack stack'
    have hbytes := bytes_record_of_image himage
    refine calculate_checksum_ne hi (by rwa [hbytes]) ?_ stack stack'
    rw [hbytes, bytes_record_of_image (by rw [List.length_set, himage])]
  · intro log torn haltered htorn
    have hbytes : log.flatMap logged_t.bytes = entries_bytes (log.map fun e => (e.padding, e.entry)) := by
      rw [entries_bytes, List.flatMap_map]
      exact List.flatMap_congr fun e he => logged_t.bytes_eq (haltered e he)
    have hread : read_entries ⟨log.flatMap logged_t.bytes ++ torn, 0⟩ = log.map logged_t.entry := by
      rw [hbytes]
      refine (read_entries_bytes _ htorn).trans ?_
      rw [List.map_map]
      rfl
    refine ⟨log.map logged_t.entry, hread, List.length_map _, ?_, ?_⟩
    · intro k e entry he hentry env state
      rw [List.getElem?_map, he, Option.map_some] at hentry
      obtain rfl := Option.some.inj hentry
      have he := haltered e (List.mem_of_getElem? he)
      exact ⟨logged_t.checksum_matches_entry he env.stack, replay_entry_eq he env state⟩
    · intro env slots next_id
      have hrecover : recover_from_wal env ⟨slots, log.map logged_t.entry, next_id⟩ =
          (⟨(replay_unaltered env 0 (slots, 0) log).1,
            if (replay_unaltered env 0 (slots, 0) log).2 > 0 then [] else log.map logged_t.entry, next_id⟩,
            (replay_unaltered env 0 (slots, 0) log).2) := by
        rw [recover_from_wal, replay_loop_eq haltered]
      refine ⟨hrecover, ?_⟩
      rw [recover_files_refines env slots _ next_id, hread, hrecover]

/-- Two entries, one with the fifth byte of its record altered. -/
def one_altered : List logged_t :=
  [⟨Vector.replicate 4 0, ⟨0, Vector.replicate 16 9⟩, new_record 1 [97], none⟩,
    ⟨Vector.replicate 4 0, ⟨0, Vector.replicate 16 9⟩, new_record 2 [98], some (4, 99)⟩]

/-- The recovery of an empty database puts in the record that is not altered. -/
theorem single_byte_corruption_caught_altered :
    ∃ first second,
      read_entries (lseek { bytes := one_altered.flatMap logged_t.bytes ++ [], pos := 0 } 0) = [first, second] ∧
        checksum_matches (Vector.replicate 16 0) first = true ∧
        checksum_matches (Vector.replicate 16 0) second = false ∧
        ∀ env : Nat → replay_env, env 0 = ⟨Vector.replicate 16 0, true⟩ →
          recover_from_wal env ⟨Vector.replicate MAX_RECORDS zero_record, [first, second], 1⟩ =
            (⟨(Vector.replicate MAX_RECORDS zero_record).set 0 (new_record 1 [97]), [], 1⟩, 1) := by
  have haltered : ∀ e ∈ one_altered, e.Altered := by
    intro e he i b hib
    rcases List.mem_cons.mp he with rfl | he
    · cases hib
    · obtain rfl := List.mem_singleton.mp he
      cases hib
      decide
  obtain ⟨entries, hread, hlength, hcheck, hrecover⟩ :=
    single_byte_corruption_caught.2 one_altered [] haltered (by decide)
  obtain ⟨first, second, rfl⟩ := List.length_eq_two.mp hlength
  have hfirst :=
    hcheck 0 _ first rfl rfl ⟨Vector.replicate 16 0, true⟩ (Vector.replicate MAX_RECORDS zero_record, 0)
  have hsecond :=
    hcheck 1 _ second rfl rfl ⟨Vector.replicate 16 0, true⟩ (Vector.replicate MAX_RECORDS zero_record, 0)
  refine ⟨first, second, hread, hfirst.1, hsecond.1, fun env henv => ?_⟩
  have hreplayed : replay_unaltered env 0 (Vector.replicate MAX_RECORDS zero_record, 0) one_altered =
      accept_record true (Vector.replicate MAX_RECORDS zero_record, 0) (new_record 1 [97]) := by
    simp [one_altered, replay_unaltered, henv]
  have happlied : accept_record true (Vector.replicate MAX_RECORDS zero_record, 0) (new_record 1 [97]) =
      ((Vector.replicate MAX_RECORDS zero_record).set 0 (new_record 1 [97]), 1) := by
    decide +kernel
  rw [(hrecover env _ 1).1, hreplayed, happlied]
  rfl

end csystems.crash_recovery
