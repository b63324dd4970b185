import CSystems.WalDemo.Recovery

open clib.ctype clib.string clib.format clib.text

namespace csystems.wal_demo

def EQUALS : UInt8 := 61

/-- The log and the database file. -/
structure files_t where
  wal : List UInt8
  db : List UInt8
  deriving DecidableEq

/-- What `apply_to_db` appends. -/
def db_line (key value : List UInt8) : List UInt8 := line_buffer (key ++ EQUALS :: value ++ [NEWLINE])

def apply_to_db (files : files_t) (key value : List UInt8) : files_t :=
  { files with db := files.db ++ db_line key value }

/-- The commands of the program that change its files. A run of the program executes one
of them, so that `transaction_id` is 1 in each. -/
inductive command_t where
  | write (key value : List UInt8)
  | write_nosync (key value : List UInt8)
  | crash_after_wal (key value : List UInt8)
  | recover
  deriving DecidableEq

def cmd_write (files : files_t) (key value : List UInt8) : files_t :=
  apply_to_db { files with wal := files.wal ++ log_to_wal 1 key value } key value

def cmd_crash_after_wal (files : files_t) (key value : List UInt8) : files_t :=
  { files with wal := files.wal ++ log_to_wal 1 key value }

/-- `cmd_recover` with the calls of `apply_to_db` carried out. -/
def recover_files (files : files_t) : Option files_t :=
  (cmd_recover files.wal).map fun result =>
    result.1.foldl (fun files call => apply_to_db files call.key call.value) files

/-- A run of the program; `none` is undefined behaviour. -/
def main (files : files_t) : command_t → Option files_t
  | .write key value | .write_nosync key value => some (cmd_write files key value)
  | .crash_after_wal key value => some (cmd_crash_after_wal files key value)
  | .recover => recover_files files

/-- The files after some runs, from the time when there are none. -/
def history (commands : List command_t) : Option files_t := commands.foldlM main ⟨[], []⟩

/-- What is wanted: a map that a crash can leave behind the writes, and that `recover`
brings up to date. -/
structure store_t where
  logged : List UInt8 → Option (List UInt8)
  visible : List UInt8 → Option (List UInt8)

def store_t.exec (s : store_t) : command_t → store_t
  | .write key value | .write_nosync key value =>
    ⟨Function.update s.logged key (some value), Function.update s.visible key (some value)⟩
  | .crash_after_wal key value => ⟨Function.update s.logged key (some value), s.visible⟩
  | .recover => ⟨s.logged, s.logged⟩

def store (commands : List command_t) : store_t := commands.foldl store_t.exec ⟨fun _ => none, fun _ => none⟩

/-- The value of a key in the database file: the rest of the last line that starts with
the key and `=`. -/
def lookup (db key : List UInt8) : Option (List UInt8) :=
  ((physical_lines NEWLINE db).reverse.find? (key ++ [EQUALS]).isPrefixOf).map fun line =>
    (line.drop (key.length + 1)).dropLast

/-- A key and a value that the files can hold. -/
structure Storable (pair : List UInt8 × List UInt8) : Prop where
  key : IsWord pair.1
  value : IsWord pair.2
  plain : ¬ BEGIN <:+: pair.1 ∧ ¬ BEGIN <:+: pair.2
  no_equals : EQUALS ∉ pair.1

/-- The pair that a command logs. -/
def command_t.pair : command_t → Option (List UInt8 × List UInt8)
  | .write key value | .write_nosync key value | .crash_after_wal key value => some (key, value)
  | .recover => none

section Database

/-- The last value of a key in a list of pairs. -/
def last_value (pairs : List (List UInt8 × List UInt8)) (key : List UInt8) : Option (List UInt8) :=
  pairs.reverse.lookup key

variable {pairs : List (List UInt8 × List UInt8)} {key value : List UInt8}

theorem last_value_concat (pairs : List (List UInt8 × List UInt8)) (key value : List UInt8) :
    last_value (pairs ++ [(key, value)]) = Function.update (last_value pairs) key (some value) := by
  funext other
  rw [last_value, List.reverse_concat, List.lookup_cons, Function.update_apply, last_value]
  by_cases heq : other = key
  · rw [if_pos heq, heq, beq_self_eq_true]
  · rw [if_neg heq, beq_eq_false_iff_ne.mpr heq]

theorem last_value_append (first rest : List (List UInt8 × List UInt8)) (key : List UInt8) :
    last_value (first ++ rest) key = (last_value rest key).or (last_value first key) := by
  rw [last_value, List.reverse_append, List.lookup_append, last_value, last_value]

theorem last_value_eq_none_iff : last_value pairs key = none ↔ key ∉ pairs.map Prod.fst := by
  rw [last_value, List.lookup_eq_none_iff]
  constructor
  · rintro hall hmem
    obtain ⟨pair, hpair, rfl⟩ := List.mem_map.mp hmem
    exact absurd rfl (bne_iff_ne.mp (hall pair (List.mem_reverse.mpr hpair)))
  · intro hnot pair hpair
    refine bne_iff_ne.mpr ?_
    rintro rfl
    exact hnot (List.mem_map_of_mem (List.mem_reverse.mp hpair))

/-- What `apply_to_db` appends for a pair, one after the other. -/
def db_text (pairs : List (List UInt8 × List UInt8)) : List UInt8 :=
  (pairs.map fun pair => db_line pair.1 pair.2).flatten

theorem Storable.db_line_eq {pair : List UInt8 × List UInt8} (h : Storable pair) :
    db_line pair.1 pair.2 = pair.1 ++ EQUALS :: pair.2 ++ [NEWLINE] := by
  have hkey := h.key.length_le
  have hvalue := h.value.length_le
  refine List.take_of_length_le ?_
  simp only [List.length_append, List.length_cons, List.length_nil, LINE_SIZE]
  omega

theorem physical_lines_db_text {pairs : List (List UInt8 × List UInt8)} (h : ∀ pair ∈ pairs, Storable pair) :
    physical_lines NEWLINE (db_text pairs) = pairs.map fun pair => pair.1 ++ EQUALS :: pair.2 ++ [NEWLINE] := by
  induction pairs with
  | nil => rfl
  | cons pair pairs ih =>
    have hpair := h pair List.mem_cons_self
    have hbody : NEWLINE ∉ pair.1 ++ EQUALS :: pair.2 := by
      have hkey := hpair.key.not_mem (c := NEWLINE) (by decide)
      have hvalue := hpair.value.not_mem (c := NEWLINE) (by decide)
      simp [hkey, hvalue, show NEWLINE ≠ EQUALS by decide]
    rw [db_text, List.map_cons, List.flatten_cons, hpair.db_line_eq, physical_lines_append hbody, List.map_cons,
      ← db_text, ih fun pair hmem => h pair (List.mem_cons_of_mem _ hmem)]

/-- A line starts with a key and `=` only if the key is its own. -/
theorem prefix_line_iff {key key' rest : List UInt8} (hkey : EQUALS ∉ key) (hkey' : EQUALS ∉ key') :
    key ++ [EQUALS] <+: key' ++ EQUALS :: rest ↔ key = key' := by
  constructor
  · rintro ⟨tail, heq⟩
    have htake := congrArg (List.takeWhile fun b => decide (b ≠ EQUALS)) heq
    have hall {text : List UInt8} (htext : EQUALS ∉ text) : ∀ b ∈ text, decide (b ≠ EQUALS) = true := by
      intro b hb
      refine decide_eq_true ?_
      rintro rfl
      exact htext hb
    rw [List.append_assoc, List.takeWhile_append_of_pos (hall hkey), List.takeWhile_append_of_pos (hall hkey')] at htake
    simpa using htake
  · rintro rfl
    exact ⟨rest, by simp⟩

theorem lookup_db_text {pairs : List (List UInt8 × List UInt8)} (h : ∀ pair ∈ pairs, Storable pair) {key : List UInt8}
    (hkey : EQUALS ∉ key) : lookup (db_text pairs) key = last_value pairs key := by
  rw [lookup, physical_lines_db_text h, last_value, ← List.map_reverse]
  have hreverse : ∀ pair ∈ pairs.reverse, Storable pair := fun pair hmem => h pair (List.mem_reverse.mp hmem)
  generalize pairs.reverse = pairs at hreverse
  induction pairs with
  | nil => rfl
  | cons pair pairs ih =>
    have hpair := hreverse pair List.mem_cons_self
    have htail := ih fun pair hmem => hreverse pair (List.mem_cons_of_mem _ hmem)
    obtain ⟨own, value⟩ := pair
    have hiff : (key ++ [EQUALS]).isPrefixOf (own ++ EQUALS :: value ++ [NEWLINE]) = true ↔ key = own := by
      rw [List.isPrefixOf_iff_prefix, List.append_assoc]
      exact prefix_line_iff hkey hpair.no_equals
    rw [List.map_cons, List.lookup_cons]
    by_cases heq : key = own
    · rw [List.find?_cons_of_pos (hiff.mpr heq), heq, beq_self_eq_true]
      simp
    · rw [List.find?_cons_of_neg fun hprefix => heq (hiff.mp hprefix), beq_eq_false_iff_ne.mpr heq]
      exact htail

end Database

/-- A run of `log_to_wal` that nothing stops. -/
def session_of (pair : List UInt8 × List UInt8) : session_t where
  transaction_id := 1
  key := pair.1
  value := pair.2
  cut := (log_to_wal 1 pair.1 pair.2).length

/-- The files have the pairs that were logged, and those that were applied since there
was a database; each of these was logged. -/
structure Represents (files : files_t) (s : store_t) (logged applied : List (List UInt8 × List UInt8)) : Prop where
  storable : ∀ pair ∈ logged, Storable pair
  subset : applied ⊆ logged
  wal : files.wal = wal_demo.wal (logged.map session_of)
  db : files.db = db_text applied
  logged : s.logged = last_value logged
  visible : s.visible = last_value applied

section Runs

variable {files : files_t} {s : store_t} {logged applied : List (List UInt8 × List UInt8)}

theorem wal_concat (logged : List (List UInt8 × List UInt8)) (key value : List UInt8) :
    wal ((logged ++ [(key, value)]).map session_of) = wal (logged.map session_of) ++ log_to_wal 1 key value := by
  have houtput : (session_of (key, value)).output = log_to_wal 1 key value := List.take_length
  simp only [wal, List.map_append, List.map_cons, List.map_nil, List.flatten_append, List.flatten_cons,
    List.flatten_nil, List.append_nil, houtput]

theorem db_text_concat (applied : List (List UInt8 × List UInt8)) (key value : List UInt8) :
    db_text (applied ++ [(key, value)]) = db_text applied ++ db_line key value := by
  simp [db_text]

theorem Represents.crash (h : Represents files s logged applied) {key value : List UInt8}
    (hpair : Storable (key, value)) :
    Represents (cmd_crash_after_wal files key value) (s.exec (.crash_after_wal key value)) (logged ++ [(key, value)])
      applied where
  storable pair hmem := by
    obtain hmem | hmem := List.mem_append.mp hmem
    · exact h.storable pair hmem
    · rwa [List.mem_singleton.mp hmem]
  subset := fun pair hmem => List.mem_append_left _ (h.subset hmem)
  wal := by rw [cmd_crash_after_wal, wal_concat, h.wal]
  db := h.db
  logged := by rw [last_value_concat, ← h.logged, store_t.exec]
  visible := h.visible

theorem Represents.write (h : Represents files s logged applied) {key value : List UInt8}
    (hpair : Storable (key, value)) :
    Represents (cmd_write files key value) (s.exec (.write key value)) (logged ++ [(key, value)])
      (applied ++ [(key, value)]) where
  storable := (h.crash hpair).storable
  subset := List.append_subset.mpr ⟨(h.crash hpair).subset, List.subset_append_right _ _⟩
  wal := (h.crash hpair).wal
  db := by rw [cmd_write, apply_to_db, db_text_concat, ← h.db]
  logged := (h.crash hpair).logged
  visible := by rw [last_value_concat, ← h.visible, store_t.exec]

/-- `cmd_recover` applies the pairs of the log once more. -/
theorem Represents.recover_files_eq (h : Represents files s logged applied) :
    recover_files files = some { files with db := db_text (applied ++ logged) } := by
  have hsessions : ∀ session ∈ logged.map session_of, session.Storable ∧ session.committed := by
    intro session hmem
    obtain ⟨pair, hpair, rfl⟩ := List.mem_map.mp hmem
    exact ⟨⟨(h.storable pair hpair).key, (h.storable pair hpair).value⟩, Nat.le_refl _⟩
  have hplain : ∀ session ∈ logged.map session_of, session.Plain := by
    intro session hmem
    obtain ⟨pair, hpair, rfl⟩ := List.mem_map.mp hmem
    exact (h.storable pair hpair).plain
  have hinit : scan_init.Plain := by
    rintro text (heq | heq) <;> cases heq
  obtain ⟨calls, hscan, hpairs⟩ := (scan_committed_iff hsessions 0 hinit).mpr hplain
  rw [← cmd_recover_eq (zero_not_mem_wal fun session hmem => (hsessions session hmem).1)
    fun line hline => length_line_of_committed hsessions hline, ← h.wal] at hscan
  obtain ⟨⟨calls', incomplete⟩, hresult, rfl⟩ := Option.map_eq_some_iff.mp hscan
  rw [List.map_map, show session_t.pair ∘ session_of = id from rfl, List.map_id] at hpairs
  have hfold (calls : List apply_t) (files : files_t) :
      calls.foldl (fun files call => apply_to_db files call.key call.value) files =
        { files with db := files.db ++ db_text (calls.map apply_t.pair) } := by
    induction calls generalizing files with
    | nil => simp [db_text]
    | cons call calls ih =>
      rw [List.foldl_cons, ih]
      simp [apply_to_db, db_text, apply_t.pair]
  have happend : db_text (applied ++ logged) = db_text applied ++ db_text logged := by simp [db_text]
  rw [recover_files, hresult, Option.map_some, hfold, hpairs, h.db, happend]

theorem Represents.recover (h : Represents files s logged applied) :
    Represents { files with db := db_text (applied ++ logged) } (s.exec .recover) logged (applied ++ logged) where
  storable := h.storable
  subset := List.append_subset.mpr ⟨h.subset, List.Subset.refl _⟩
  wal := h.wal
  db := rfl
  logged := h.logged
  visible := by
    funext key
    rw [last_value_append, store_t.exec, h.logged]
    dsimp only
    cases hlast : last_value logged key with
    | some value => rw [Option.some_or]
    | none =>
      -- what the log does not have was never applied
      have hnot := last_value_eq_none_iff.mp hlast
      rw [Option.none_or, last_value_eq_none_iff.mpr fun hmem => hnot (List.map_subset _ h.subset hmem)]

/-- One run of the program. -/
theorem Represents.step (h : Represents files s logged applied) {c : command_t}
    (hpair : ∀ pair ∈ c.pair, Storable pair) :
    ∃ files' logged' applied', main files c = some files' ∧ Represents files' (s.exec c) logged' applied' := by
  cases c with
  | write key value => exact ⟨_, _, _, rfl, h.write (hpair _ rfl)⟩
  | write_nosync key value => exact ⟨_, _, _, rfl, h.write (hpair _ rfl)⟩
  | crash_after_wal key value => exact ⟨_, _, _, rfl, h.crash (hpair _ rfl)⟩
  | recover => exact ⟨_, _, _, h.recover_files_eq, h.recover⟩

theorem history_represents {commands : List command_t} (h : ∀ c ∈ commands, ∀ pair ∈ c.pair, Storable pair) :
    ∃ files logged applied, history commands = some files ∧ Represents files (store commands) logged applied := by
  induction commands using List.reverseRecOn with
  | nil => exact ⟨_, [], [], rfl, ⟨by simp, List.Subset.refl _, rfl, rfl, rfl, rfl⟩⟩
  | append_singleton commands c ih =>
    obtain ⟨files, logged, applied, hrun, hfiles⟩ := ih fun c hmem => h c (List.mem_append_left _ hmem)
    obtain ⟨files', logged', applied', hmain, hfiles'⟩ :=
      hfiles.step (h c (List.mem_append_right _ (List.mem_singleton_self c)))
    refine ⟨files', logged', applied', ?_, ?_⟩
    · rw [history, List.foldlM_append, ← history, hrun]
      simpa using hmain
    · rwa [store, List.foldl_append]

theorem Represents.lookup_eq (h : Represents files s logged applied) {key : List UInt8} (hkey : EQUALS ∉ key) :
    lookup files.db key = s.visible key := by
  rw [h.db, lookup_db_text (fun pair hmem => h.storable pair (h.subset hmem)) hkey, h.visible]

end Runs

/-- Over every history of runs the database file shows what is wanted: a written value at
once, a value that a crash kept back not before a recovery. After `recover` the last
value logged for a key is its value, whatever had been recovered before. -/
theorem recover_restores_last {commands : List command_t} (h : ∀ c ∈ commands, ∀ pair ∈ c.pair, Storable pair) :
    ∃ files files', history commands = some files ∧ history (commands ++ [.recover]) = some files' ∧
      ∀ key, EQUALS ∉ key →
        lookup files.db key = (store commands).visible key ∧ lookup files'.db key = (store commands).logged key := by
  obtain ⟨files, logged, applied, hrun, hfiles⟩ := history_represents h
  refine ⟨files, _, hrun, ?_, fun key hkey => ⟨hfiles.lookup_eq hkey, hfiles.recover.lookup_eq hkey⟩⟩
  have hmain : main files .recover = some { files with db := db_text (applied ++ logged) } := hfiles.recover_files_eq
  rw [history, List.foldlM_append, ← history, hrun]
  simpa using hmain

/-- A value that is written, one that a crash keeps back, and a recovery. -/
theorem recover_restores_last_crash : ∃ files files',
    history [.write [107] [118], .crash_after_wal [107] [119]] = some files ∧
      history [.write [107] [118], .crash_after_wal [107] [119], .recover] = some files' ∧
      lookup files.db [107] = some [118] ∧ lookup files'.db [107] = some [119] := by
  have hkey : IsWord [107] := isWord_of_all (by decide) (by decide)
  have hfirst : Storable ([107], [118]) :=
    ⟨hkey, isWord_of_all (by decide) (by decide), ⟨by decide, by decide⟩, by decide⟩
  have hsecond : Storable ([107], [119]) :=
    ⟨hkey, isWord_of_all (by decide) (by decide), ⟨by decide, by decide⟩, by decide⟩
  have hall : ∀ c ∈ [command_t.write [107] [118], .crash_after_wal [107] [119]], ∀ pair ∈ c.pair, Storable pair := by
    intro c hc pair hpair
    obtain rfl | rfl := List.mem_pair.mp hc
    · exact Option.some.inj hpair ▸ hfirst
    · exact Option.some.inj hpair ▸ hsecond
  obtain ⟨files, files', hrun, hrecover, hlookup⟩ := recover_restores_last hall
  have hlast := hlookup [107] (by decide)
  exact ⟨files, files', hrun, hrecover, hlast.1, hlast.2⟩

end csystems.wal_demo
