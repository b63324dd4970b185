import CSystems.KeyValueStore.Server
import CSystems.KeyValueStore.Store
import CSystems.Lib.Run

open clib.ctype clib.run clib.string clib.table

namespace csystems.key_value_store

namespace static_lib

def MAX_ITEMS : Nat := 128

def lib : variant where
  max_items := MAX_ITEMS
  terminates := false

def set_value (store : List KVPair) (key val : List UInt8) : List KVPair := store_value lib store key val

def get_value (store : List KVPair) (key : List UInt8) : Option (List UInt8) := find_value key store

end static_lib

namespace dynamic_lib

def MAX_PAIRS : Nat := 100

def lib : variant where
  max_items := MAX_PAIRS
  terminates := true

def set_value (store : List KVPair) (key value : List UInt8) : List KVPair := store_value lib store key value

def get_value (store : List KVPair) (key : List UInt8) : Option (List UInt8) := find_value key store

end dynamic_lib

/-- A call of a library; the arguments are strings, read up to their terminators. -/
inductive call_t where
  | set_value (key val : List UInt8)
  | get_value (key : List UInt8)
  deriving DecidableEq, Repr

/-- The store of the static library after some calls. -/
def static_after (calls : List call_t) : List KVPair :=
  calls.foldl (fun store call => match call with
    | .set_value key val => static_lib.set_value store key val
    | .get_value _ => store) []

/-- The store of the dynamic library after some calls. -/
def dynamic_after (calls : List call_t) : List KVPair :=
  calls.foldl (fun store call => match call with
    | .set_value key val => dynamic_lib.set_value store key val
    | .get_value _ => store) []

/-- The keys that the calls would enter into a store without a bound. A key with no
entry of its own is entered up to the room for its terminator. -/
def entered (calls : List call_t) : List (List UInt8) :=
  calls.foldl (fun keys call => match call with
    | .set_value key _ => enter stored_key keys (c_str key)
    | .get_value _ => keys) []

theorem entered_set (past : List call_t) (key val : List UInt8) :
    entered (past ++ [.set_value key val]) = enter stored_key (entered past) (c_str key) := by
  simp [entered]

/-- What holds of the two stores after the same calls: the dynamic one holds the first
entries of the static one. -/
structure Related (past : List call_t) (s d : List KVPair) : Prop where
  static_terminated : ∀ p ∈ s, p.Terminated
  dynamic_terminated : ∀ p ∈ d, p.Terminated
  keys : (s.map KVPair.strings).map Prod.fst = (entered past).take static_lib.MAX_ITEMS
  first : d.map KVPair.strings = (s.map KVPair.strings).take dynamic_lib.MAX_PAIRS

theorem related_after (past : List call_t) : Related past (static_after past) (dynamic_after past) := by
  induction past using List.reverseRecOn with
  | nil => exact ⟨by simp [static_after], by simp [dynamic_after], rfl, rfl⟩
  | append_singleton past call ih =>
    cases call with
    | get_value key =>
      have hsame : entered (past ++ [.get_value key]) = entered past := by simp [entered]
      have hstatic : static_after (past ++ [.get_value key]) = static_after past := by simp [static_after]
      have hdynamic : dynamic_after (past ++ [.get_value key]) = dynamic_after past := by simp [dynamic_after]
      rw [hstatic, hdynamic]
      exact ⟨ih.static_terminated, ih.dynamic_terminated, by rw [hsame]; exact ih.keys, ih.first⟩
    | set_value key val =>
      have hstatic : static_after (past ++ [.set_value key val]) =
          static_lib.set_value (static_after past) key val := by
        simp [static_after]
      have hdynamic : dynamic_after (past ++ [.set_value key val]) =
          dynamic_lib.set_value (dynamic_after past) key val := by
        simp [dynamic_after]
      obtain ⟨hs, hsstrings⟩ := store_value_spec (c := static_lib.lib) ih.static_terminated key val
      obtain ⟨hd, hdstrings⟩ := store_value_spec (c := dynamic_lib.lib) ih.dynamic_terminated key val
      rw [hstatic, hdynamic]
      refine ⟨hs, hd, ?_, ?_⟩
      · rw [entered_set, static_lib.set_value, hsstrings]
        exact put_keys _ ih.keys _ _
      · rw [static_lib.set_value, dynamic_lib.set_value, hsstrings, hdstrings, ih.first]
        exact put_take (by decide) _ _ _

/-- After the same calls both libraries answer alike for a key, exactly if it is not one
of those that only the static library has room for. -/
theorem get_value_eq_iff (past : List call_t) (key : List UInt8) :
    static_lib.get_value (static_after past) key = dynamic_lib.get_value (dynamic_after past) key ↔
      (c_str key ∈ (entered past).take static_lib.MAX_ITEMS →
        c_str key ∈ (entered past).take dynamic_lib.MAX_PAIRS) := by
  have hrelated := related_after past
  have hkeys := hrelated.keys
  have hsame : ((entered past).take static_lib.MAX_ITEMS).take dynamic_lib.MAX_PAIRS =
      (entered past).take dynamic_lib.MAX_PAIRS := by
    rw [List.take_take]
    rfl
  rw [static_lib.get_value, dynamic_lib.get_value, find_value_eq, find_value_eq, hrelated.first, eq_comm,
    value_of_take_eq_iff, hkeys, hsame]

/-- Both libraries return the same at every `get_value` of a sequence of calls exactly if
none asks for a key whose first entry is beyond the room of the dynamic library. -/
theorem libraries_agree_iff (calls : List call_t) :
    (∀ past key, past ++ [.get_value key] <+: calls →
      static_lib.get_value (static_after past) key = dynamic_lib.get_value (dynamic_after past) key) ↔
    ∀ past key, past ++ [.get_value key] <+: calls →
      c_str key ∈ (entered past).take static_lib.MAX_ITEMS →
        c_str key ∈ (entered past).take dynamic_lib.MAX_PAIRS := by
  constructor
  · intro hall past key hpast
    exact (get_value_eq_iff past key).mp (hall past key hpast)
  · intro hall past key hpast
    exact (get_value_eq_iff past key).mpr (hall past key hpast)

/-- A key of one byte. -/
def byte_key (i : Nat) : List UInt8 := [UInt8.ofNat (i + 1)]

/-- The calls that set the first `n` of these keys. -/
def set_calls (n : Nat) : List call_t := (List.range n).map fun i => .set_value (byte_key i) (byte_key i)

theorem c_str_byte_key {i : Nat} (hi : i < 255) : c_str (byte_key i) = byte_key i := by
  have hne : UInt8.ofNat (i + 1) ≠ 0 := by
    intro heq
    have hnat : (i + 1) % 2 ^ 8 = 0 := congrArg UInt8.toNat heq
    omega
  rw [byte_key, c_str_cons_of_ne hne, c_str_nil]

theorem byte_key_inj {i j : Nat} (hi : i < 255) (hj : j < 255) (h : byte_key i = byte_key j) : i = j := by
  have hbyte : (i + 1) % 2 ^ 8 = (j + 1) % 2 ^ 8 := congrArg UInt8.toNat (List.cons.inj h).1
  omega

theorem entered_set_calls {n : Nat} (hn : n ≤ 255) : entered (set_calls n) = (List.range n).map byte_key := by
  have hkeys : entered (set_calls n) =
      (List.range n).foldl (fun keys i => enter stored_key keys (c_str (byte_key i))) [] := List.foldl_map ..
  have hstring : ∀ i ∈ List.range n, c_str (byte_key i) = byte_key i := by
    intro i hi
    have hlt := List.mem_range.mp hi
    exact c_str_byte_key (by omega)
  rw [hkeys, List.foldl_ext _ _ _ fun keys i hi => congrArg (enter stored_key keys) (hstring i hi)]
  exact foldl_enter_range (fun i hi => rfl) fun i hi j hj => byte_key_inj (by omega) (by omega)

/-- 101 keys are set, and then the last of them is asked for. -/
theorem libraries_disagree :
    ¬ ∀ past key, past ++ [.get_value key] <+: set_calls 101 ++ [.get_value (byte_key 100)] →
      static_lib.get_value (static_after past) key = dynamic_lib.get_value (dynamic_after past) key := by
  intro hall
  have hentered := entered_set_calls (n := 101) (by omega)
  have himp := (get_value_eq_iff (set_calls 101) (byte_key 100)).mp (hall _ _ (List.prefix_refl _))
  rw [c_str_byte_key (by omega), hentered] at himp
  have hdifferent : ∀ i < 101, ∀ j < 101, byte_key i = byte_key j → i = j :=
    fun i hi j hj => byte_key_inj (by omega) (by omega)
  rw [mem_take_range_iff hdifferent (by omega), mem_take_range_iff hdifferent (by omega)] at himp
  exact absurd (himp (by decide)) (by decide)

end csystems.key_value_store

namespace csystems.key_value_store.servers

open server

/-- A client connects, or a `read` of its `client_handler` returns; it returns nothing
when the client is gone. -/
inductive event_t where
  | accept
  | read (client : Nat) (r : List UInt8)

/-- The store, and which of the accepted clients are still served. -/
structure state_t (S : Type) where
  store : S
  served : List Bool

/-- A round of `main` or of a `client_handler`, and what it writes to which client. -/
def step {S : Type} (execute : S → command_t → S × List UInt8) (s : state_t S) :
    event_t → state_t S × Option (Nat × List UInt8)
  | .accept => ({ s with served := s.served ++ [true] }, some (s.served.length, READY))
  | .read client r =>
    if s.served[client]? = some true ∧ r.length ≤ BUF_SIZE - 1 then
      if r = [] then ({ s with served := s.served.set client false }, none)
      else
        let command := parse r
        let (store, reply) := execute s.store command
        ({ store := store, served := if command = .exit then s.served.set client false else s.served },
          some (client, reply))
    else (s, none)

/-- What a server writes. -/
def answers (c : variant) (events : List event_t) : List (Option (Nat × List UInt8)) :=
  (respond (step (execute c)) ⟨[], []⟩ events).2

/-- The contents of a store that has room for all keys: the keys in the order in which
they were set first, and the value that was set last. -/
structure contents_t where
  keys : List (List UInt8)
  latest : List UInt8 → Option (List UInt8)

def contents_t.empty : contents_t where
  keys := []
  latest _ := none

/-- A command at a server that answers for the first `room` keys only. -/
def contents_t.execute (room : Nat) (s : contents_t) : command_t → contents_t × List UInt8
  | .set key val => (⟨enter id s.keys key, Function.update s.latest key (some val)⟩, OK)
  | .set_usage => (s, SET_USAGE)
  | .get key =>
    match if key ∈ s.keys.take room then s.latest key else none with
    | some v => (s, VALUE ++ v ++ [NEWLINE])
    | none => (s, NOTFOUND)
  | .get_usage => (s, GET_USAGE)
  | .exit => (s, BYE)
  | .unknown => (s, UNKNOWN)

def bounded_answers (room : Nat) (events : List event_t) : List (Option (Nat × List UInt8)) :=
  (respond (step (contents_t.execute room)) ⟨.empty, []⟩ events).2

section Words

/-- The strings of a command have room in the entries of a store. -/
def Fits : command_t → Prop
  | .set key val => (0 ∉ key ∧ key.length ≤ KEY_LEN - 1) ∧ 0 ∉ val ∧ val.length ≤ VAL_LEN - 1
  | .get key => 0 ∉ key ∧ key.length ≤ KEY_LEN - 1
  | _ => True

theorem zero_not_mem_cut_line (r : List UInt8) : 0 ∉ cut_line r := by
  intro h
  exact ne_zero_of_mem_c_str ((List.takeWhile_sublist _).mem h) rfl

theorem scan_key_fits {text key rest : List UInt8} (htext : 0 ∉ text) (h : scan_key text = some (key, rest)) :
    (0 ∉ key ∧ key.length ≤ KEY_LEN - 1) ∧ 0 ∉ rest := by
  simp only [scan_key] at h
  split at h
  · cases h
  · obtain ⟨rfl, rfl⟩ := Prod.mk.inj (Option.some.inj h)
    have hsub : ∀ c ∈ text.dropWhile isspace, c ∈ text := fun c hc => (List.dropWhile_sublist _).mem hc
    refine ⟨⟨fun hmem => ?_, List.length_take_le ..⟩, fun hmem => ?_⟩
    · exact htext (hsub _ ((List.takeWhile_sublist _).mem (List.mem_of_mem_take hmem)))
    · exact htext (hsub _ (List.mem_of_mem_drop hmem))

theorem scan_val_fits {text val : List UInt8} (htext : 0 ∉ text) (h : scan_val text = some val) :
    0 ∉ val ∧ val.length ≤ VAL_LEN - 1 := by
  simp only [scan_val] at h
  split at h
  · cases h
  · obtain rfl := Option.some.inj h
    refine ⟨fun hmem => ?_, List.length_take_le ..⟩
    exact htext ((List.dropWhile_sublist _).mem ((List.takeWhile_sublist _).mem (List.mem_of_mem_take hmem)))

/-- Whatever is read, the widths of `sscanf` keep the strings short. -/
theorem parse_fits (r : List UInt8) : Fits (parse r) := by
  have hline : 0 ∉ (cut_line r).drop 4 := fun hmem => zero_not_mem_cut_line r (List.mem_of_mem_drop hmem)
  unfold parse
  dsimp only
  split
  · cases hkey : scan_key ((cut_line r).drop 4) with
    | none => trivial
    | some pair =>
      obtain ⟨hfits, hrest⟩ := scan_key_fits hline hkey
      dsimp only
      cases hval : scan_val pair.2 with
      | none => trivial
      | some val => exact ⟨hfits, scan_val_fits hrest hval⟩
  · split
    · cases hkey : scan_key ((cut_line r).drop 4) with
      | none => trivial
      | some pair => exact (scan_key_fits hline hkey).1
    · split <;> trivial

end Words

section Refinement

variable {c : variant} {store : List KVPair} {s : contents_t}

/-- One command. -/
theorem execute_holds (h : Holds c store s.keys s.latest) {command : command_t} (hfits : Fits command) :
    Holds c (execute c store command).1 (s.execute c.max_items command).1.keys
        (s.execute c.max_items command).1.latest ∧
      (execute c store command).2 = (s.execute c.max_items command).2 := by
  cases command with
  | set key val =>
    obtain ⟨⟨hkey, hlength⟩, hval, hvals⟩ := hfits
    have hname : stored_key key = key := List.take_of_length_le hlength
    have henter : enter stored_key s.keys key = enter id s.keys key := by
      rw [enter, enter, hname]
      rfl
    have hset := h.set hkey hlength hval hvals
    rw [henter] at hset
    exact ⟨hset, rfl⟩
  | get key =>
    simp only [servers.execute, contents_t.execute, h.find_value hfits.1]
    cases if key ∈ s.keys.take c.max_items then s.latest key else none <;> exact ⟨h, rfl⟩
  | set_usage => exact ⟨h, rfl⟩
  | get_usage => exact ⟨h, rfl⟩
  | exit => exact ⟨h, rfl⟩
  | unknown => exact ⟨h, rfl⟩

/-- Related stores stay so, whatever the servers do with them. -/
theorem step_simulate {S T : Type} {serve : S → command_t → S × List UInt8} {serve' : T → command_t → T × List UInt8}
    {R : S → T → Prop} (hserve : ∀ s t command, Fits command → R s t →
      R (serve s command).1 (serve' t command).1 ∧ (serve s command).2 = (serve' t command).2)
    {s : state_t S} {t : state_t T} (e : event_t) (h : R s.store t.store ∧ s.served = t.served) :
    (R (step serve s e).1.store (step serve' t e).1.store ∧
      (step serve s e).1.served = (step serve' t e).1.served) ∧ (step serve s e).2 = (step serve' t e).2 := by
  obtain ⟨store, served⟩ := s
  obtain ⟨store', served'⟩ := t
  obtain ⟨hstore, rfl⟩ := h
  cases e with
  | accept => exact ⟨⟨hstore, rfl⟩, rfl⟩
  | read client r =>
    obtain ⟨hnext, hreply⟩ := hserve store store' (parse r) (parse_fits r) hstore
    simp only [step]
    split
    · split
      · exact ⟨⟨hstore, rfl⟩, rfl⟩
      · exact ⟨⟨hnext, rfl⟩, by rw [hreply]⟩
    · exact ⟨⟨hstore, rfl⟩, rfl⟩

end Refinement

/-- Whatever any clients send in whatever pieces, a server answers as one that answers for
the first keys only that were ever set, each with the value that was set last. -/
theorem servers_bounded_map (c : variant) (events : List event_t) :
    answers c events = bounded_answers c.max_items events := by
  have hserve (store : List KVPair) (s : contents_t) (command : command_t) (hfits : Fits command)
      (h : Holds c store s.keys s.latest) := execute_holds h hfits
  exact (respond_simulate (R := fun (s : state_t (List KVPair)) (t : state_t contents_t) =>
    Holds c s.store t.store.keys t.store.latest ∧ s.served = t.served)
    (fun s t e h => step_simulate (R := fun store (s : contents_t) => Holds c store s.keys s.latest) hserve e h) events
    ⟨holds_nil c, rfl⟩).2

section Agreement

variable {room room' : Nat} {s : state_t contents_t}

/-- The contents do not depend on how many keys are answered for. -/
theorem step_room (room room' : Nat) (s : state_t contents_t) (e : event_t) :
    (step (contents_t.execute room) s e).1 = (step (contents_t.execute room') s e).1 := by
  have hexecute (command : command_t) :
      (s.store.execute room command).1 = (s.store.execute room' command).1 := by
    cases command with
    | get key =>
      simp only [contents_t.execute]
      split <;> split <;> rfl
    | set key val => rfl
    | set_usage => rfl
    | get_usage => rfl
    | exit => rfl
    | unknown => rfl
  cases e with
  | accept => rfl
  | read client r =>
    simp only [step]
    split
    · split
      · rfl
      · rw [hexecute]
    · rfl

/-- What the clients have made of the contents. -/
def after (events : List event_t) : state_t contents_t :=
  (respond (step (contents_t.execute 0)) ⟨.empty, []⟩ events).1

theorem respond_eq_after (room : Nat) (events : List event_t) :
    (respond (step (contents_t.execute room)) ⟨.empty, []⟩ events).1 = after events := by
  induction events using List.reverseRecOn with
  | nil => rfl
  | append_singleton events e ih =>
    rw [after, respond_append, respond_append, ih]
    exact step_room room 0 _ e

/-- A client that is served asks for the value of a key. -/
def Asks (s : state_t contents_t) (e : event_t) (key : List UInt8) : Prop :=
  ∃ client r, e = .read client r ∧ s.served[client]? = some true ∧ r.length ≤ BUF_SIZE - 1 ∧ parse r = .get key

/-- Every key has a value. -/
def Valued (s : contents_t) : Prop := ∀ key ∈ s.keys, s.latest key ≠ none

theorem Valued.execute {s : contents_t} (h : Valued s) (room : Nat) (command : command_t) :
    Valued (s.execute room command).1 := by
  cases command with
  | set key val =>
    intro key' hkey'
    simp only [contents_t.execute] at hkey' ⊢
    by_cases hsame : key' = key
    · rw [hsame, Function.update_self]
      exact Option.some_ne_none val
    · rw [Function.update_of_ne hsame]
      refine h key' ?_
      unfold enter at hkey'
      split at hkey'
      · exact hkey'
      · exact (List.mem_append.mp hkey').resolve_right fun hlast => hsame (List.mem_singleton.mp hlast)
  | get key =>
    simp only [contents_t.execute]
    split <;> exact h
  | set_usage => exact h
  | get_usage => exact h
  | exit => exact h
  | unknown => exact h

theorem after_valued (events : List event_t) : Valued (after events).store := by
  induction events using List.reverseRecOn with
  | nil => exact fun key hkey => by simp [after, respond, contents_t.empty] at hkey
  | append_singleton events e ih =>
    rw [after, respond_append, ← after]
    cases e with
    | accept => exact ih
    | read client r =>
      simp only [step]
      split
      · split
        · exact ih
        · exact ih.execute 0 (parse r)
      · exact ih

/-- An answer to a GET tells whether the key is one of those that are answered for. -/
theorem execute_get_eq_iff {s : contents_t} (hvalued : Valued s) (key : List UInt8) :
    (s.execute room (.get key)).2 = (s.execute room' (.get key)).2 ↔
      (key ∈ s.keys.take room ↔ key ∈ s.keys.take room') := by
  have hdiffer (v : List UInt8) : ¬ VALUE ++ (v ++ [NEWLINE]) = NOTFOUND := by
    intro heq
    exact absurd (List.cons.inj heq).1 (by decide)
  have hlatest {n : Nat} (hmem : key ∈ s.keys.take n) : ∃ v, s.latest key = some v :=
    Option.ne_none_iff_exists'.mp (hvalued key (List.mem_of_mem_take hmem))
  by_cases hroom : key ∈ s.keys.take room
  · obtain ⟨v, hv⟩ := hlatest hroom
    by_cases hroom' : key ∈ s.keys.take room'
    · simp [contents_t.execute, hroom, hroom']
    · simp [contents_t.execute, hroom, hroom', hv, hdiffer v]
  · by_cases hroom' : key ∈ s.keys.take room'
    · obtain ⟨v, hv⟩ := hlatest hroom'
      simp [contents_t.execute, hroom, hroom', hv, Ne.symm (hdiffer v)]
    · simp [contents_t.execute, hroom, hroom']

/-- One event. -/
theorem step_answer_eq_iff (hvalued : Valued s.store) (e : event_t) :
    (step (contents_t.execute room) s e).2 = (step (contents_t.execute room') s e).2 ↔
      ∀ key, Asks s e key → (key ∈ s.store.keys.take room ↔ key ∈ s.store.keys.take room') := by
  cases e with
  | accept => exact iff_of_true rfl fun key ⟨client, r, heq, _⟩ => by cases heq
  | read client r =>
    have hasks (key : List UInt8) : Asks s (.read client r) key ↔
        (s.served[client]? = some true ∧ r.length ≤ BUF_SIZE - 1) ∧ parse r = .get key := by
      constructor
      · rintro ⟨_, _, heq, hserved, hlength, hparse⟩
        cases heq
        exact ⟨⟨hserved, hlength⟩, hparse⟩
      · rintro ⟨⟨hserved, hlength⟩, hparse⟩
        exact ⟨client, r, rfl, hserved, hlength, hparse⟩
    simp only [hasks, step]
    by_cases hserved : s.served[client]? = some true ∧ r.length ≤ BUF_SIZE - 1
    · rw [if_pos hserved, if_pos hserved]
      by_cases hempty : r = []
      · subst hempty
        exact iff_of_true rfl fun key ⟨_, hparse⟩ => by cases (show parse [] = .unknown from rfl).symm.trans hparse
      · rw [if_neg hempty, if_neg hempty]
        simp only [Option.some.injEq, Prod.mk.injEq, true_and]
        cases hparse : parse r with
        | get key =>
          rw [execute_get_eq_iff hvalued]
          exact ⟨fun h key' ⟨_, heq⟩ => by cases heq; exact h, fun h => h key ⟨hserved, rfl⟩⟩
        | set key val => exact iff_of_true rfl fun key' ⟨_, heq⟩ => by cases heq
        | set_usage => exact iff_of_true rfl fun key' ⟨_, heq⟩ => by cases heq
        | get_usage => exact iff_of_true rfl fun key' ⟨_, heq⟩ => by cases heq
        | exit => exact iff_of_true rfl fun key' ⟨_, heq⟩ => by cases heq
        | unknown => exact iff_of_true rfl fun key' ⟨_, heq⟩ => by cases heq
    · rw [if_neg hserved, if_neg hserved]
      exact iff_of_true rfl fun key ⟨hboth, _⟩ => absurd hboth hserved

theorem bounded_answers_eq_iff (room room' : Nat) (events : List event_t) :
    bounded_answers room events = bounded_answers room' events ↔ ∀ past e key, past ++ [e] <+: events →
      Asks (after past) e key →
        (key ∈ (after past).store.keys.take room ↔ key ∈ (after past).store.keys.take room') := by
  rw [bounded_answers, bounded_answers, respond_eq_iff]
  simp only [respond_eq_after, step_answer_eq_iff (after_valued _)]
  exact ⟨fun h past e key hpast => h past e hpast key, fun h past e hpast key => h past e key hpast⟩

end Agreement

/-- The server with the static library answers any clients as the one with its store built
in; the server with the dynamic library does exactly if no client asks for a key that only
the other two have room for. -/
theorem servers_answer_alike_iff (events : List event_t) :
    answers static_lib.lib events = answers server.lib events ∧
      (answers dynamic_lib.lib events = answers static_lib.lib events ↔
        ∀ past e key, past ++ [e] <+: events → Asks (after past) e key →
          key ∈ (after past).store.keys.take static_lib.MAX_ITEMS →
            key ∈ (after past).store.keys.take dynamic_lib.MAX_PAIRS) := by
  refine ⟨rfl, ?_⟩
  rw [servers_bounded_map, servers_bounded_map, bounded_answers_eq_iff]
  have hless {keys : List (List UInt8)} {key : List UInt8} (h : key ∈ keys.take dynamic_lib.MAX_PAIRS) :
      key ∈ keys.take static_lib.MAX_ITEMS := (List.take_sublist_take_left (by decide)).mem h
  exact forall₄_congr fun past e key hpast => imp_congr_right fun hasks => ⟨Iff.mpr, fun h => ⟨hless, h⟩⟩

end csystems.key_value_store.servers
