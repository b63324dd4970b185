import CSystems.Lib.CString
import CSystems.Lib.Table

open clib.string clib.table

namespace csystems.key_value_store

/-! The store that the server and the two libraries each have a copy of. -/

def KEY_LEN : Nat := 64
def VAL_LEN : Nat := 256

/-- An entry of the store. -/
structure KVPair where
  key : Vector UInt8 KEY_LEN
  val : Vector UInt8 VAL_LEN
  deriving DecidableEq

/-- An entry that was never written. -/
def KVPair.empty : KVPair where
  key := Vector.replicate KEY_LEN 0
  val := Vector.replicate VAL_LEN 0

/-- What the copies differ in: the number of entries, and whether a terminator is stored
after each copy of a string. -/
structure variant where
  max_items : Nat
  terminates : Bool

/-- `strncpy` into an array of `n + 1` bytes, and the terminator that some copies store. -/
def copy_string {n : Nat} (terminates : Bool) (dest : Vector UInt8 (n + 1)) (src : List UInt8) :
    Vector UInt8 (n + 1) :=
  let copied := strncpy dest src n
  if terminates then copied.set n 0 n.lt_succ_self else copied

section Operations

variable (c : variant)

def write_key (p : KVPair) (key : List UInt8) : KVPair :=
  { p with key := copy_string (n := KEY_LEN - 1) c.terminates p.key key }

def write_val (p : KVPair) (val : List UInt8) : KVPair :=
  { p with val := copy_string (n := VAL_LEN - 1) c.terminates p.val val }

/-- The loop of `set_value`: the entry with the key gets the value. -/
def update_value (key val : List UInt8) : List KVPair → Option (List KVPair)
  | [] => none
  | p :: store =>
    if strcmp p.key.toList key = 0 then some (write_val c p val :: store)
    else (update_value key val store).map (p :: ·)

/-- `set_value` of a copy, on the entries in use. -/
def store_value (store : List KVPair) (key val : List UInt8) : List KVPair :=
  match update_value c key val store with
  | some store => store
  | none =>
    if store.length < c.max_items then store ++ [write_val c (write_key c KVPair.empty key) val] else store

/-- `get_value` of a copy: the string that the result points to, `none` for `NULL`. -/
def find_value (key : List UInt8) : List KVPair → Option (List UInt8)
  | [] => none
  | p :: store => if strcmp p.key.toList key = 0 then some (c_str p.val.toList) else find_value key store

end Operations

/-- The strings that an entry holds. -/
def KVPair.strings (p : KVPair) : List UInt8 × List UInt8 := (c_str p.key.toList, c_str p.val.toList)

/-- The last bytes of an entry are terminators. -/
structure KVPair.Terminated (p : KVPair) : Prop where
  key : p.key[KEY_LEN - 1] = 0
  val : p.val[VAL_LEN - 1] = 0

/-- A key is stored up to the room for its terminator. -/
def stored_key (key : List UInt8) : List UInt8 := key.take (KEY_LEN - 1)

variable {c : variant} {store : List KVPair} {p : KVPair}

theorem empty_terminated : KVPair.empty.Terminated := by
  constructor <;> simp [KVPair.empty]

/-- A copy into a terminated array holds as much of the string as there is room for. -/
theorem copy_string_spec {n : Nat} {dest : Vector UInt8 (n + 1)} (hlast : dest.get (Fin.last n) = 0)
    (terminates : Bool) (src : List UInt8) :
    (copy_string terminates dest src).get (Fin.last n) = 0 ∧
      c_str (copy_string terminates dest src).toList = (c_str src).take n := by
  have hcopy : copy_string terminates dest src = (strncpy dest src n).set n 0 := by
    cases terminates with
    | true => rfl
    | false => exact (strncpy_set_last hlast src).symm
  rw [hcopy]
  exact ⟨Vector.getElem_set_self .., c_str_strncpy_set ..⟩

theorem write_key_spec (h : p.Terminated) (key : List UInt8) :
    (write_key c p key).Terminated ∧
      (write_key c p key).strings = (stored_key (c_str key), c_str p.val.toList) := by
  obtain ⟨hlast, hstring⟩ := copy_string_spec (n := KEY_LEN - 1) h.key c.terminates key
  exact ⟨⟨hlast, h.val⟩, Prod.ext hstring rfl⟩

theorem write_val_spec (h : p.Terminated) (val : List UInt8) :
    (write_val c p val).Terminated ∧
      (write_val c p val).strings = (c_str p.key.toList, (c_str val).take (VAL_LEN - 1)) := by
  obtain ⟨hlast, hstring⟩ := copy_string_spec (n := VAL_LEN - 1) h.val c.terminates val
  exact ⟨⟨h.key, hlast⟩, Prod.ext rfl hstring⟩

theorem update_value_strings (hstore : ∀ p ∈ store, p.Terminated) (key val : List UInt8) :
    (update_value c key val store).map (List.map KVPair.strings) =
      replace (c_str key) ((c_str val).take (VAL_LEN - 1)) (store.map KVPair.strings) := by
  induction store with
  | nil => rfl
  | cons p store ih =>
    have hrest := ih fun p hp => hstore p (by simp [hp])
    rw [update_value, List.map_cons, replace, show p.strings.1 = c_str p.key.toList from rfl]
    simp only [strcmp_eq_zero_iff]
    by_cases hkey : c_str p.key.toList = c_str key
    · have hwrite := (write_val_spec (c := c) (hstore p (by simp)) val).2
      rw [if_pos hkey, if_pos hkey, Option.map_some, List.map_cons, hwrite]
    · rw [if_neg hkey, if_neg hkey, ← hrest, Option.map_map, Option.map_map]
      rfl

theorem update_value_terminated {store' : List KVPair} (hstore : ∀ p ∈ store, p.Terminated) {key val : List UInt8}
    (h : update_value c key val store = some store') : ∀ p ∈ store', p.Terminated := by
  induction store generalizing store' with
  | nil => cases h
  | cons p store ih =>
    have hrest : ∀ p ∈ store, p.Terminated := fun p hp => hstore p (by simp [hp])
    rw [update_value] at h
    split at h
    · obtain rfl := Option.some.inj h
      exact List.forall_mem_cons.mpr ⟨(write_val_spec (hstore p (by simp)) val).1, hrest⟩
    · obtain ⟨store₁, hstore₁, rfl⟩ := Option.map_eq_some_iff.mp h
      exact List.forall_mem_cons.mpr ⟨hstore p (by simp), ih hrest hstore₁⟩

/-- `set_value` sets the value in the table of the strings, and keeps every entry
terminated. -/
theorem store_value_spec (hstore : ∀ p ∈ store, p.Terminated) (key val : List UInt8) :
    (∀ p ∈ store_value c store key val, p.Terminated) ∧
      (store_value c store key val).map KVPair.strings =
        put stored_key c.max_items (store.map KVPair.strings) (c_str key) ((c_str val).take (VAL_LEN - 1)) := by
  have hstrings := update_value_strings (c := c) hstore key val
  cases hupdate : update_value c key val store with
  | some store' =>
    rw [hupdate, Option.map_some] at hstrings
    simp only [store_value, hupdate, put, ← hstrings, and_true]
    exact update_value_terminated hstore hupdate
  | none =>
    obtain ⟨hkey, hkeyed⟩ := write_key_spec (c := c) empty_terminated key
    obtain ⟨hval, hvalued⟩ := write_val_spec (c := c) hkey val
    have hentry : (write_val c (write_key c KVPair.empty key) val).strings =
        (stored_key (c_str key), (c_str val).take (VAL_LEN - 1)) :=
      hvalued.trans (Prod.ext (show c_str _ = _ from congrArg Prod.fst hkeyed) rfl)
    rw [hupdate, Option.map_none] at hstrings
    simp only [store_value, hupdate, put, ← hstrings, List.length_map]
    split
    · refine ⟨?_, by rw [List.map_append, List.map_singleton, hentry]⟩
      intro p hp
      obtain hp | hp := List.mem_append.mp hp
      · exact hstore p hp
      · rw [List.mem_singleton.mp hp]
        exact hval
    · exact ⟨hstore, rfl⟩

/-- `get_value` looks the string up in the table. -/
theorem find_value_eq (key : List UInt8) (store : List KVPair) :
    find_value key store = value_of (c_str key) (store.map KVPair.strings) := by
  induction store with
  | nil => rfl
  | cons p store ih =>
    rw [find_value, List.map_cons, value_of, show p.strings.1 = c_str p.key.toList from rfl]
    simp only [strcmp_eq_zero_iff]
    by_cases hkey : c_str p.key.toList = c_str key
    · rw [if_pos hkey, if_pos hkey]
      rfl
    · rw [if_neg hkey, if_neg hkey]
      exact ih

/-- The entries in use are terminated, and hold the first keys that were set, each with the
value that was set last. -/
structure Holds (c : variant) (store : List KVPair) (keys : List (List UInt8))
    (latest : List UInt8 → Option (List UInt8)) : Prop where
  terminated : ∀ p ∈ store, p.Terminated
  table : HasFirst c.max_items (store.map KVPair.strings) keys latest

section Holds

variable {keys : List (List UInt8)} {latest : List UInt8 → Option (List UInt8)} {key val : List UInt8}

theorem holds_nil (c : variant) : Holds c [] [] fun _ => none := ⟨by simp, by simp, by simp⟩

/-- Strings that there is room for are stored whole. -/
theorem Holds.set (h : Holds c store keys latest) (hkey : 0 ∉ key) (hlength : key.length ≤ KEY_LEN - 1)
    (hval : 0 ∉ val) (hvals : val.length ≤ VAL_LEN - 1) :
    Holds c (store_value c store key val) (enter stored_key keys key) (Function.update latest key (some val)) := by
  obtain ⟨hterminated, hstrings⟩ := store_value_spec (c := c) h.terminated key val
  rw [c_str_eq_self hkey, c_str_eq_self hval, List.take_of_length_le hvals] at hstrings
  have hname : stored_key key = key := List.take_of_length_le hlength
  exact ⟨hterminated, hstrings ▸ h.table.put hname val⟩

theorem Holds.find_value (h : Holds c store keys latest) (hkey : 0 ∉ key) :
    find_value key store = if key ∈ keys.take c.max_items then latest key else none := by
  rw [find_value_eq, c_str_eq_self hkey, h.table.value_of]
  congr

end Holds

end csystems.key_value_store
