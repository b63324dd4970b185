import CSystems.KeyValueStore.Server

open clib.ctype clib.stream clib.string clib.table

namespace csystems.key_value_store.server

/-- A key of a request: 1 to 63 characters that are not white space. -/
@[ext] structure key_t where
  chars : List UInt8
  nonempty : chars ≠ []
  length_le : chars.length ≤ KEY_LEN - 1
  no_space : ∀ c ∈ chars, isspace c = false
  no_nul : 0 ∉ chars

/-- A value of a request: 1 to 255 characters without an end of line, and without white
space at the start. -/
structure value_t where
  chars : List UInt8
  nonempty : chars ≠ []
  length_le : chars.length ≤ VAL_LEN - 1
  no_line : ∀ c ∈ chars, c ≠ RETURN ∧ c ≠ NEWLINE
  no_space : ∀ c ∈ chars.head?, isspace c = false
  no_nul : 0 ∉ chars

inductive request_t where
  | set (k : key_t) (v : value_t)
  | get (k : key_t)

/-- The bytes that a client sends for a request. -/
def request_t.line : request_t → List UInt8
  | .set k v => SET ++ k.chars ++ 32 :: v.chars ++ [NEWLINE]
  | .get k => GET ++ k.chars ++ [NEWLINE]

/-- The store after requests that arrived in one read each. -/
def store_after (past : List request_t) : List KVPair :=
  past.foldl (fun store req => (execute store (parse req.line)).1) []

/-- What the server writes to the client for a request that comes after others. -/
def reply (past : List request_t) (req : request_t) : List UInt8 :=
  (execute (store_after past) (parse req.line)).2

/-- The keys that were set, in the order of their first SET. -/
def set_keys (past : List request_t) : List (List UInt8) :=
  past.foldl (fun keys req => match req with
    | .set k _ => enter stored_key keys k.chars
    | .get _ => keys) []

/-- The last value that was set for a key. -/
def latest (past : List request_t) (key : List UInt8) : Option (List UInt8) :=
  past.foldl (fun found req => match req with
    | .set k v => if k.chars = key then some v.chars else found
    | .get _ => found) none

/-- Every GET is answered with the value of the last SET of its key that the server has
acknowledged, in every prefix of the history. -/
def Acknowledged (history : List request_t) : Prop :=
  ∀ before k v between, before ++ .set k v :: between ++ [.get k] <+: history → (∀ w, .set k w ∉ between) →
    reply before (.set k v) = OK → reply (before ++ .set k v :: between) (.get k) = VALUE ++ v.chars ++ [NEWLINE]

section Parse

variable (k : key_t) (v : value_t)

theorem isspace_eq_false {c : UInt8} (h : isspace c = false) : c ≠ 32 ∧ c ≠ RETURN ∧ c ≠ NEWLINE := by
  refine ⟨?_, ?_, ?_⟩ <;> rintro rfl <;> exact absurd h (by decide)

/-- A line without terminators is cut at its end. -/
theorem cut_line_line {text : List UInt8} (h : ∀ c ∈ text, c ≠ 0 ∧ c ≠ RETURN ∧ c ≠ NEWLINE) :
    cut_line (text ++ [NEWLINE]) = text := by
  have hstr : c_str (text ++ [NEWLINE]) = text ++ [NEWLINE] := by
    apply c_str_eq_self
    intro hnul
    obtain hnul | hnul := List.mem_append.mp hnul
    · exact (h 0 hnul).1 rfl
    · exact absurd (List.mem_singleton.mp hnul) (by decide)
  rw [cut_line, hstr, List.takeWhile_append_of_pos]
  · simp
  · intro c hc
    simpa using (h c hc).2

theorem scan_key_append (rest : List UInt8) (hrest : ∀ c ∈ rest.head?, isspace c = true) :
    scan_key (k.chars ++ rest) = some (k.chars, rest) := by
  have hskip : (k.chars ++ rest).dropWhile isspace = k.chars ++ rest := by
    obtain ⟨c, chars, hchars⟩ := List.exists_cons_of_ne_nil k.nonempty
    have hc := k.no_space c (by rw [hchars]; simp)
    rw [hchars, List.cons_append, List.dropWhile_cons_of_neg (by simp [hc])]
  have hword : (k.chars ++ rest).takeWhile (fun c => !isspace c) = k.chars := by
    rw [List.takeWhile_append_of_pos fun c hc => by simp [k.no_space c hc]]
    cases rest with
    | nil => simp
    | cons c rest => simp [hrest c rfl]
  rw [scan_key, hskip, hword, List.take_of_length_le k.length_le]
  simp [k.nonempty]

theorem scan_val_value : scan_val (32 :: v.chars) = some v.chars := by
  have hskip : (32 :: v.chars).dropWhile isspace = v.chars := by
    obtain ⟨c, chars, hchars⟩ := List.exists_cons_of_ne_nil v.nonempty
    have hc := v.no_space c (by rw [hchars]; rfl)
    rw [List.dropWhile_cons_of_pos (by decide), hchars, List.dropWhile_cons_of_neg (by simp [hc])]
  have hline : v.chars.takeWhile (fun c => c ≠ NEWLINE) = v.chars := by
    apply List.takeWhile_eq_self_iff.mpr
    intro c hc
    simpa using (v.no_line c hc).2
  rw [scan_val, hskip, hline, List.take_of_length_le v.length_le, if_neg v.nonempty]

theorem key_bytes {c : UInt8} (hc : c ∈ k.chars) : c ≠ 0 ∧ c ≠ RETURN ∧ c ≠ NEWLINE := by
  have hspace := isspace_eq_false (k.no_space c hc)
  refine ⟨?_, hspace.2⟩
  rintro rfl
  exact k.no_nul hc

theorem command_bytes {c : UInt8} (hc : c ∈ SET ++ GET) : c ≠ 0 ∧ c ≠ RETURN ∧ c ≠ NEWLINE := by
  have hall : (SET ++ GET).all (fun c => c != 0 && c != RETURN && c != NEWLINE) = true := by decide
  simpa [and_assoc] using List.all_eq_true.mp hall c hc

theorem parse_set : parse (request_t.set k v).line = .set k.chars v.chars := by
  have hline : cut_line (request_t.set k v).line = SET ++ (k.chars ++ 32 :: v.chars) := by
    have hbytes : ∀ c ∈ SET ++ (k.chars ++ 32 :: v.chars), c ≠ 0 ∧ c ≠ RETURN ∧ c ≠ NEWLINE := by
      intro c hc
      simp only [List.mem_append, List.mem_cons] at hc
      obtain hc | hc | rfl | hc := hc
      · exact command_bytes (List.mem_append_left _ hc)
      · exact key_bytes k hc
      · decide
      · refine ⟨?_, v.no_line c hc⟩
        rintro rfl
        exact v.no_nul hc
    have hcut := cut_line_line hbytes
    rw [List.append_assoc] at hcut
    simpa [request_t.line] using hcut
  have hprefix : strncmp 4 (SET ++ (k.chars ++ 32 :: v.chars)) SET = 0 :=
    (strncmp_eq_zero_iff SET (by decide) _).mpr (List.prefix_append ..)
  have hdrop : (SET ++ (k.chars ++ 32 :: v.chars)).drop 4 = k.chars ++ 32 :: v.chars := List.drop_left' rfl
  unfold parse
  dsimp only
  rw [hline, if_pos hprefix, hdrop, scan_key_append k _ (by simp [isspace])]
  dsimp only
  rw [scan_val_value]

theorem parse_get : parse (request_t.get k).line = .get k.chars := by
  have hline : cut_line (request_t.get k).line = GET ++ k.chars := by
    apply cut_line_line
    intro c hc
    obtain hc | hc := List.mem_append.mp hc
    · exact command_bytes (List.mem_append_right _ hc)
    · exact key_bytes k hc
  have hset : ¬ strncmp 4 (GET ++ k.chars) SET = 0 := by
    refine fun hzero => absurd ((strncmp_eq_zero_iff SET (by decide) _).mp hzero) ?_
    show ¬ 83 :: [69, 84, 32] <+: 71 :: ([69, 84, 32] ++ k.chars)
    rw [List.cons_prefix_cons]
    simp
  have hprefix : strncmp 4 (GET ++ k.chars) GET = 0 :=
    (strncmp_eq_zero_iff GET (by decide) _).mpr (List.prefix_append ..)
  have hdrop : (GET ++ k.chars).drop 4 = k.chars := List.drop_left' rfl
  have hscan := scan_key_append k [] (by simp)
  rw [List.append_nil] at hscan
  unfold parse
  dsimp only
  rw [hline, if_neg hset, if_pos hprefix, hdrop, hscan]

end Parse

section Append

variable (past : List request_t) (k : key_t) (v : value_t)

theorem set_keys_set : set_keys (past ++ [.set k v]) = enter stored_key (set_keys past) k.chars := by
  simp [set_keys]

theorem set_keys_get : set_keys (past ++ [.get k]) = set_keys past := by
  simp [set_keys]

theorem latest_set : latest (past ++ [.set k v]) = Function.update (latest past) k.chars (some v.chars) := by
  funext key
  by_cases hkey : key = k.chars
  · simp [latest, hkey]
  · simp [latest, Function.update_of_ne hkey, Ne.symm hkey]

theorem latest_get : latest (past ++ [.get k]) = latest past := by
  funext key
  simp [latest]

end Append

theorem stored_key_chars (k : key_t) : stored_key k.chars = k.chars := List.take_of_length_le k.length_le

/-- The store has the first keys that were set, each with its last value. -/
theorem holds_after (past : List request_t) : Holds lib (store_after past) (set_keys past) (latest past) := by
  induction past using List.reverseRecOn with
  | nil => exact holds_nil lib
  | append_singleton past req ih =>
    have hafter : store_after (past ++ [req]) = (execute (store_after past) (parse req.line)).1 := by
      simp [store_after]
    rw [hafter]
    cases req with
    | set k v =>
      rw [parse_set, set_keys_set, latest_set]
      exact ih.set k.no_nul k.length_le v.no_nul v.length_le
    | get k =>
      have hstore : (execute (store_after past) (.get k.chars)).1 = store_after past := by
        simp only [execute, servers.execute]
        split <;> rfl
      rw [parse_get, hstore, set_keys_get, latest_get]
      exact ih

/-- A GET finds the last value of a key that is among the first ones that were set, and
nothing for another. -/
theorem reply_get (past : List request_t) (k : key_t) :
    reply past (.get k) =
      if k.chars ∈ (set_keys past).take MAX_ITEMS then
        match latest past k.chars with
        | some v => VALUE ++ v ++ [NEWLINE]
        | none => NOTFOUND
      else NOTFOUND := by
  have hget : find_value k.chars (store_after past) =
      if k.chars ∈ (set_keys past).take MAX_ITEMS then latest past k.chars else none :=
    (holds_after past).find_value k.no_nul
  rw [reply, parse_get]
  simp only [execute, servers.execute, hget]
  by_cases hmem : k.chars ∈ (set_keys past).take MAX_ITEMS
  · rw [if_pos hmem, if_pos hmem]
    cases latest past k.chars <;> rfl
  · rw [if_neg hmem, if_neg hmem]

theorem reply_set (past : List request_t) (k : key_t) (v : value_t) : reply past (.set k v) = OK := by
  rw [reply, parse_set]
  rfl

/-- The last SET of a key decides its value. -/
theorem latest_of_last (before : List request_t) {between : List request_t} {k : key_t} (v : value_t)
    (hbetween : ∀ w, .set k w ∉ between) :
    k.chars ∈ set_keys (before ++ .set k v :: between) ∧
      latest (before ++ .set k v :: between) k.chars = some v.chars := by
  induction between using List.reverseRecOn with
  | nil =>
    rw [set_keys_set, latest_set, Function.update_self]
    exact ⟨mem_enter (stored_key_chars k) _, rfl⟩
  | append_singleton between req ih =>
    obtain ⟨hmem, hlatest⟩ := ih fun w hw => hbetween w (List.mem_append_left _ hw)
    have hsplit : before ++ .set k v :: (between ++ [req]) = (before ++ .set k v :: between) ++ [req] := by simp
    rw [hsplit]
    cases req with
    | get k' =>
      rw [set_keys_get, latest_get]
      exact ⟨hmem, hlatest⟩
    | set k' w =>
      have hne : k'.chars ≠ k.chars := by
        intro heq
        obtain rfl : k' = k := key_t.ext heq
        exact hbetween w (List.mem_append_right _ (List.mem_singleton_self _))
      rw [set_keys_set, latest_set, Function.update_of_ne (Ne.symm hne)]
      refine ⟨?_, hlatest⟩
      unfold enter
      split
      · exact hmem
      · exact List.mem_append_left _ hmem

/-- A key that was set has a last SET. -/
theorem exists_last_set {past : List request_t} {k : key_t} (h : k.chars ∈ set_keys past) :
    ∃ before v between, past = before ++ .set k v :: between ∧ ∀ w, .set k w ∉ between := by
  induction past using List.reverseRecOn with
  | nil => cases h
  | append_singleton past req ih =>
    have hgrow (h : k.chars ∈ set_keys past) (hreq : ∀ w, req ≠ .set k w) :
        ∃ before v between, past ++ [req] = before ++ .set k v :: between ∧ ∀ w, .set k w ∉ between := by
      obtain ⟨before, v, between, rfl, hbetween⟩ := ih h
      refine ⟨before, v, between ++ [req], by simp, fun w hw => ?_⟩
      obtain hw | hw := List.mem_append.mp hw
      · exact hbetween w hw
      · exact hreq w (List.mem_singleton.mp hw).symm
    cases req with
    | get k' =>
      rw [set_keys_get] at h
      exact hgrow h (by simp)
    | set k' v =>
      by_cases hkey : k' = k
      · subst hkey
        exact ⟨past, v, [], rfl, by simp⟩
      · have hne : ¬ k.chars = k'.chars := fun heq => hkey (key_t.ext heq).symm
        rw [set_keys_set, enter, stored_key_chars] at h
        apply hgrow
        · split at h
          · exact h
          · obtain h | h := List.mem_append.mp h
            · exact h
            · exact absurd (List.mem_singleton.mp h) hne
        · rintro w heq
          exact hkey (request_t.set.inj heq).1

/-- Every acknowledged SET is seen by the later GETs exactly if no GET asks for a key that
was set but is not among the first ones that the store has room for. -/
theorem acknowledged_iff (history : List request_t) :
    Acknowledged history ↔
      ∀ past k, past ++ [.get k] <+: history → k.chars ∈ set_keys past →
        k.chars ∈ (set_keys past).take MAX_ITEMS := by
  constructor
  · intro hall past k hpast hset
    by_contra hfull
    obtain ⟨before, v, between, rfl, hbetween⟩ := exists_last_set hset
    have hreply := hall before k v between hpast hbetween (reply_set before k v)
    rw [reply_get, if_neg hfull] at hreply
    exact absurd (List.cons.inj hreply).1 (by decide)
  · intro hall before k v between hpast hbetween _
    obtain ⟨hmem, hlatest⟩ := latest_of_last before v hbetween
    rw [reply_get, if_pos (hall _ k hpast hmem), hlatest]

theorem short_byte {i : Nat} : (UInt8.ofNat (33 + i % 200)).toNat = 33 + i % 200 := by
  rw [UInt8.toNat_ofNat']
  omega

/-- A key of one character. -/
def short_key (i : Nat) : key_t where
  chars := [UInt8.ofNat (33 + i % 200)]
  nonempty := by simp
  length_le := by simp [KEY_LEN]
  no_space := by
    intro c hc
    obtain rfl := List.mem_singleton.mp hc
    have hbyte := short_byte (i := i)
    simp only [isspace, Bool.or_eq_false_iff, Bool.and_eq_false_iff, decide_eq_false_iff_not]
    refine ⟨?_, Or.inr ?_⟩
    · intro heq
      rw [heq] at hbyte
      exact absurd hbyte (by simp; omega)
    · rw [UInt8.le_iff_toNat_le, hbyte]
      simp
      omega
  no_nul := by
    intro hnul
    have hbyte := short_byte (i := i)
    rw [← List.mem_singleton.mp hnul] at hbyte
    exact absurd hbyte (by simp; omega)

def short_value : value_t where
  chars := [118]
  nonempty := by decide
  length_le := by decide
  no_line := by simp [RETURN, NEWLINE]
  no_space := by simp [isspace]
  no_nul := by simp

theorem short_key_inj {i j : Nat} (hi : i < 200) (hj : j < 200) (h : (short_key i).chars = (short_key j).chars) :
    i = j := by
  have hbyte := congrArg UInt8.toNat (List.cons.inj h).1
  rw [short_byte, short_byte] at hbyte
  omega

/-- The requests that set the first `n` of these keys. -/
def set_short_keys (n : Nat) : List request_t := (List.range n).map fun i => .set (short_key i) short_value

theorem set_short_keys_succ (n : Nat) :
    set_short_keys (n + 1) = set_short_keys n ++ [.set (short_key n) short_value] := by
  simp [set_short_keys, List.range_succ]

theorem set_keys_short {n : Nat} (hn : n ≤ 200) :
    set_keys (set_short_keys n) = (List.range n).map fun i => (short_key i).chars := by
  have hkeys : set_keys (set_short_keys n) =
      (List.range n).foldl (fun keys i => enter stored_key keys (short_key i).chars) [] := List.foldl_map ..
  rw [hkeys]
  exact foldl_enter_range (fun i _ => stored_key_chars _) fun i hi j hj => short_key_inj (by omega) (by omega)

/-- 129 keys are set, and then the last of them is asked for. -/
theorem acknowledged_set_lost : ¬ Acknowledged (set_short_keys 129 ++ [.get (short_key 128)]) := by
  intro hall
  have hsets := set_short_keys_succ 128
  have hkeys := set_keys_short (n := 129) (by omega)
  have hreply := hall (set_short_keys 128) (short_key 128) short_value [] (by rw [hsets]) (by simp)
    (reply_set _ _ _)
  have hlost : (short_key 128).chars ∉ (set_keys (set_short_keys 129)).take MAX_ITEMS := by
    have hdifferent : ∀ i < 129, ∀ j < 129, (short_key i).chars = (short_key j).chars → i = j :=
      fun i hi j hj => short_key_inj (by omega) (by omega)
    rw [hkeys, mem_take_range_iff hdifferent (by omega)]
    decide
  rw [← hsets, reply_get, if_neg hlost] at hreply
  exact absurd (List.cons.inj hreply).1 (by decide)

end csystems.key_value_store.server
