import Mathlib.Data.List.Find
import CSystems.Lib.Run
import CSystems.VersionStore.CommitLog
import CSystems.VersionStore.Order
import CSystems.VersionStore.Snapshot

open clib.string clib.run

namespace csystems.version_store

/-- No transaction is open. -/
def Idle (g : globals_t) : Prop := ∀ tx ∈ g.transactions, tx = none

instance (g : globals_t) : Decidable (Idle g) := inferInstanceAs (Decidable (∀ tx ∈ g.transactions, tx = none))

/-- Transactions run one after another. -/
def Serial (events : List event_t) : Prop :=
  AllSteps step (fun g e => e.call = .begin_transaction → Idle g) initial events

instance (events : List event_t) : Decidable (Serial events) := inferInstanceAs (Decidable (AllSteps _ _ _ _))

/-- The calls that wrote the key for a transaction that has committed. -/
def committed_writes (key : key_t) (events : List event_t) : List event_t :=
  (made events).filter fun e => e.call.written.any fun w => decide (w.2.1 = key ∧ w.1 ∈ (run events).committed)

/-- The last committed write to the key is a `kv_delete`. -/
def LastCommittedDelete (key : key_t) (events : List event_t) : Prop :=
  ∃ now h, (committed_writes key events).getLast? = some { now := now, call := .transact h (.kv_delete key) }

/-- `kv_get` returns `NULL` for the key and `print_store` does not list it. -/
def Hidden (tx : Transaction) (store : List KVNode) (key : key_t) : Prop :=
  (kv_get tx store key).2 = none ∧ ∀ value, (key, value) ∉ print_store tx store

def begin_event (now : Int64) : event_t := { now := now, call := .begin_transaction }

theorem visible_version_eq_none_iff {tx : Transaction} {versions : List Version} :
    visible_version tx versions = none ↔ ∀ ver ∈ versions, ¬ Visible tx ver := by
  simp [visible_version, Visible]

/-- The key is hidden exactly if none of its versions is visible. -/
theorem hidden_iff {tx : Transaction} {store : List KVNode} {key : key_t}
    (hnodup : (store.map KVNode.key).Nodup) :
    Hidden tx store key ↔ ∀ ver ∈ versions_of store key, ¬ Visible tx ver := by
  rw [← visible_version_eq_none_iff]
  unfold Hidden
  simp only [kv_get, versions_of_get_node, Option.map_eq_none_iff]
  constructor
  · exact And.left
  · intro hnone
    refine ⟨hnone, ?_⟩
    intro value hmem
    obtain ⟨node, hnode, hlisted⟩ := List.mem_filterMap.mp hmem
    obtain ⟨ver, hver, hpair⟩ := Option.map_eq_some_iff.mp hlisted
    obtain ⟨rfl, -⟩ := Prod.mk.inj hpair
    rw [← versions_of_mem hnodup hnode, hnone] at hver
    cases hver

section Alone

variable {g : globals_t}

private theorem Idle.transaction (hidle : Idle g) (h : Nat) : g.transaction h = none := by
  unfold globals_t.transaction
  cases hget : g.transactions[h]? with
  | none => rfl
  | some tx => exact hidle tx (List.mem_of_getElem? hget)

private theorem transaction_begin {now : Int64} (hidle : Idle g) (h : Nat)
    (hne : h ≠ g.transactions.length) : (step g (begin_event now)).transaction h = none := by
  cases hget : (step g (begin_event now)).transaction h with
  | none => rfl
  | some tx =>
    rcases transaction_step hget with ⟨hlast, -, -⟩ | ⟨tx', htx', -⟩
    · exact absurd hlast hne
    · rw [hidle.transaction h] at htx'
      cases htx'

section Step

variable {h : Nat} (halone : ∀ other, other ≠ h → g.transaction other = none)

include halone

/-- A call of a transaction that is open alone, and does not write the key. -/
private theorem pushed_alone {e : event_t} {key : key_t} (hnot : ∀ value, e.call.written ≠ some (h, key, value)) :
    pushed g e key = [] := by
  refine pushed_eq_nil ?_
  intro other value hwritten
  by_cases hother : other = h
  · exact absurd (hother ▸ hwritten) (hnot value)
  · exact halone other hother

/-- Only a transaction that ends takes versions away. -/
private theorem popped_alone {e : event_t} {tx tx' : Transaction} (htx : g.transaction h = some tx)
    (hafter : (step g e).transaction h = some tx') (key : key_t) : popped g e key = 0 := by
  obtain ⟨now, call⟩ := e
  unfold popped
  split
  · next other heq =>
    obtain rfl : call = .transact other .rollback := heq
    by_cases hother : other = h
    · subst hother
      rw [(step_transact htx now .rollback).2] at hafter
      cases hafter
    · rw [halone other hother]
  · rfl

private theorem alone_step {e : event_t} (hcall : e.call ≠ .begin_transaction) :
    ∀ other, other ≠ h → (step g e).transaction other = none := by
  intro other hother
  cases hget : (step g e).transaction other with
  | none => rfl
  | some tx =>
    rcases transaction_step hget with ⟨-, hbegin, -⟩ | ⟨tx', htx', -⟩
    · exact absurd hbegin hcall
    · rw [halone other hother] at htx'
      cases htx'

end Step

/-- While a transaction runs alone and does not write a key, its versions stay. -/
private theorem versions_of_alone {key : key_t} {h : Nat} (hlt : h < g.transactions.length)
    (halone : ∀ other, other ≠ h → g.transaction other = none) {rest : List event_t}
    (hserial : AllSteps step (fun g e => e.call = .begin_transaction → Idle g) g rest)
    (hnot : ∀ e ∈ rest, ∀ value, e.call.written ≠ some (h, key, value)) {tx : Transaction}
    (htx : (rest.foldl step g).transaction h = some tx) :
    versions_of (rest.foldl step g).store key = versions_of g.store key ∧
    ∀ other, other ≠ h → (rest.foldl step g).transaction other = none := by
  induction rest using List.reverseRecOn generalizing tx with
  | nil => exact ⟨rfl, halone⟩
  | append_singleton rest e ih =>
    obtain ⟨hfirst, hlast, -⟩ := AllSteps.append_iff.mp hserial
    have hbefore : ∀ e ∈ rest, ∀ value, e.call.written ≠ some (h, key, value) :=
      fun e he => hnot e (List.mem_append_left _ he)
    rw [List.foldl_append, List.foldl_cons, List.foldl_nil] at htx ⊢
    obtain ⟨t, ht⟩ : ∃ t, (rest.foldl step g).transaction h = some t := by
      rcases transaction_step htx with ⟨heq, -, -⟩ | ⟨t, ht, -⟩
      · have hle := length_le_foldl rest g
        omega
      · exact ⟨t, ht⟩
    obtain ⟨hversions, hothers⟩ := ih hfirst hbefore ht
    have hcall : e.call ≠ .begin_transaction := by
      intro hbegin
      rw [(hlast hbegin).transaction h] at ht
      cases ht
    refine ⟨?_, alone_step hothers hcall⟩
    rw [versions_of_step_eq, pushed_alone hothers (hnot e (by simp)), popped_alone hothers ht htx, hversions]
    rfl

end Alone

/-- A key is deleted that has not been set. -/
def deleted_only : List event_t :=
  [⟨7, .begin_transaction⟩, ⟨7, .transact 0 (.kv_delete key_x)⟩, ⟨7, .transact 0 .commit⟩]

/-- A key is set and committed, then deleted and committed. -/
def set_then_deleted : List event_t :=
  [⟨7, .begin_transaction⟩, ⟨7, .transact 0 (.kv_set key_x value_100)⟩, ⟨7, .transact 0 .commit⟩,
    ⟨8, .begin_transaction⟩, ⟨8, .transact 1 (.kv_delete key_x)⟩, ⟨8, .transact 1 .commit⟩]

/-- A call that reads or writes. -/
inductive access_t where
  | kv_get (key : key_t)
  | kv_set (key : key_t) (value : value_t)
  | kv_delete (key : key_t)
  deriving DecidableEq

def access_t.call : access_t → tx_call_t
  | .kv_get key => .kv_get key
  | .kv_set key value => .kv_set key value
  | .kv_delete key => .kv_delete key

/-- The value that the call gives to a key; a delete writes `""`. -/
def access_t.value (key : key_t) : access_t → Option value_t
  | .kv_get _ => none
  | .kv_set k value => if k = key then some value else none
  | .kv_delete k => if k = key then some empty_value else none

def access_t.writes : access_t → Bool
  | .kv_get _ => false
  | .kv_set _ _ | .kv_delete _ => true

/-- A transaction from its begin to its end, with the times of its calls. -/
structure serial_t where
  start_time : Int64
  accesses : List (Int64 × access_t)
  commits : Bool
  end_time : Int64
  deriving DecidableEq

/-- Its calls up to its end, as transaction `h`. -/
def serial_t.body (h : Nat) (t : serial_t) : List event_t :=
  begin_event t.start_time :: t.accesses.map fun a => ⟨a.1, .transact h a.2.call⟩

def serial_t.events (h : Nat) (t : serial_t) : List event_t :=
  t.body h ++ [⟨t.end_time, .transact h (if t.commits then .commit else .rollback)⟩]

/-- The transactions one after the other. -/
def serial_events (ts : List serial_t) : List event_t := (ts.zipIdx.map fun p => p.1.events p.2).flatten

/-- What the transaction writes to a key. -/
def serial_t.values (key : key_t) (t : serial_t) : List value_t := t.accesses.filterMap fun a => a.2.value key

/-- No transaction makes more writes than it can record. -/
def serial_t.Recordable (t : serial_t) : Prop := t.accesses.countP (fun a => a.2.writes) ≤ MAX_OPS

/-- What the committed transactions wrote to a key, the last value at the end. -/
def committed_values (key : key_t) (ts : List serial_t) : List value_t :=
  (ts.filter fun t => t.commits).flatMap (serial_t.values key)

/-- The last value other than `""`. -/
def last_set (key : key_t) (ts : List serial_t) : Option value_t :=
  ((committed_values key ts).filter fun value => decide (value ≠ empty_value)).getLast?

section Serial

variable {g : globals_t} {h : Nat} {tx : Transaction}

theorem ops_on_write {tx : Transaction} (hroom : tx.ops.length < MAX_OPS) (now : Int64) (op : op_t)
    (store : List KVNode) (k key : key_t) (value : value_t) :
    (write_version now op h tx store k value).2.ops.length = tx.ops.length + 1 ∧
      ops_on (write_version now op h tx store k value).2 key = ops_on tx key + if k = key then 1 else 0 := by
  simp [write_version, hroom, ops_on, List.countP_append, List.countP_singleton]

/-- A write of a transaction puts one version on top of its key. -/
theorem versions_of_write_version_map (now : Int64) (op : op_t) (writer : Nat) (tx : Transaction)
    (store : List KVNode) (k key : key_t) (value : value_t) :
    ∃ vers, versions_of (write_version now op writer tx store k value).1 key = vers ++ versions_of store key ∧
      vers.map Version.value = (if k = key then some value else none).toList := by
  rw [versions_of_write_version]
  by_cases hk : k = key
  · subst hk
    rw [if_pos rfl, if_pos rfl]
    exact ⟨[⟨value, now, writer⟩], rfl, rfl⟩
  · rw [if_neg (Ne.symm hk), if_neg hk]
    exact ⟨[], rfl, rfl⟩

/-- One call of a transaction that is open. -/
theorem access_step (htx : g.transaction h = some tx) (now : Int64) (a : access_t) :
    ∃ tx', (step g ⟨now, .transact h a.call⟩).transaction h = some tx' ∧ tx'.start_time = tx.start_time ∧
      (∀ key, ∃ vers, versions_of (step g ⟨now, .transact h a.call⟩).store key = vers ++ versions_of g.store key ∧
        vers.map Version.value = (a.value key).toList) ∧
      (tx.ops.length + (if a.writes then 1 else 0) ≤ MAX_OPS →
        tx'.ops.length = tx.ops.length + (if a.writes then 1 else 0) ∧
        ∀ key, ops_on tx' key = ops_on tx key + (a.value key).toList.length) := by
  obtain ⟨hstore, htransaction⟩ := step_transact htx now a.call
  have hstart {tx' : Transaction} (hopen : (step g ⟨now, .transact h a.call⟩).transaction h = some tx') :
      tx'.start_time = tx.start_time := start_time_foldl htx [⟨now, .transact h a.call⟩] hopen
  have hlength (k key : key_t) (value : value_t) :
      (if k = key then 1 else 0) = (if k = key then some value else none).toList.length := by
    split <;> rfl
  rw [hstore]
  cases a with
  | kv_get k =>
    exact ⟨tx, htransaction, rfl, fun key => ⟨[], versions_of_get_node, rfl⟩, fun _ => ⟨rfl, fun _ => rfl⟩⟩
  | kv_set k value =>
    refine ⟨_, htransaction, hstart htransaction, fun key => versions_of_write_version_map now .SET h tx _ k key value,
      fun hroom => ?_⟩
    have hops := fun key => ops_on_write (h := h) (Nat.lt_of_succ_le hroom) now .SET g.store k key value
    exact ⟨(hops k).1, fun key => (hops key).2.trans (congrArg _ (hlength k key value))⟩
  | kv_delete k =>
    refine ⟨_, htransaction, hstart htransaction,
      fun key => versions_of_write_version_map now .DEL h tx _ k key empty_value, fun hroom => ?_⟩
    have hops := fun key => ops_on_write (h := h) (Nat.lt_of_succ_le hroom) now .DEL g.store k key empty_value
    exact ⟨(hops k).1, fun key => (hops key).2.trans (congrArg _ (hlength k key empty_value))⟩

theorem values_concat (t : serial_t) (a : Int64 × access_t) (key : key_t) :
    ({ t with accesses := t.accesses ++ [a] } : serial_t).values key = t.values key ++ (a.2.value key).toList := by
  rw [serial_t.values, List.filterMap_append, serial_t.values]
  rfl

/-- A transaction up to its end: it puts its values on top of what was there. -/
theorem body_spec (t : serial_t) (hlength : g.transactions.length = h) :
    ∃ tx, ((t.body h).foldl step g).transaction h = some tx ∧ tx.start_time = t.start_time ∧
      ((t.body h).foldl step g).transactions.length = h + 1 ∧
      (∀ key, ∃ vers, versions_of ((t.body h).foldl step g).store key = vers ++ versions_of g.store key ∧
        vers.map Version.value = (t.values key).reverse) ∧
      (t.Recordable → tx.ops.length = t.accesses.countP (fun a => a.2.writes) ∧
        ∀ key, ops_on tx key = (t.values key).length) := by
  obtain ⟨start, accesses, commits, end_time⟩ := t
  induction accesses using List.reverseRecOn with
  | nil =>
    subst hlength
    refine ⟨⟨g.tid_counter, start, [], g.committed⟩, ?_, rfl, ?_, fun key => ⟨[], rfl, rfl⟩,
      fun _ => ⟨rfl, fun key => rfl⟩⟩
    · simp [serial_t.body, step, begin_event, begin_transaction, globals_t.transaction]
    · simp [serial_t.body, step, begin_event, begin_transaction]
  | append_singleton accesses a ih =>
    obtain ⟨tx, htx, hstart, hcount, hversions, hops⟩ := ih
    have hbody : (⟨start, accesses ++ [a], commits, end_time⟩ : serial_t).body h =
        (⟨start, accesses, commits, end_time⟩ : serial_t).body h ++ [⟨a.1, .transact h a.2.call⟩] := by
      simp [serial_t.body]
    obtain ⟨tx', htx', hstart', hversions', hops'⟩ := access_step htx a.1 a.2
    have hvalues (key : key_t) := values_concat ⟨start, accesses, commits, end_time⟩ a key
    rw [hbody, List.foldl_append, List.foldl_cons, List.foldl_nil]
    refine ⟨tx', htx', hstart'.trans hstart, ?_, fun key => ?_, fun hmax => ?_⟩
    · rw [length_transactions_step, hcount]
      rfl
    · obtain ⟨vers, hbefore, hmap⟩ := hversions key
      obtain ⟨vers', hafter, hmap'⟩ := hversions' key
      refine ⟨vers' ++ vers, by rw [hafter, hbefore, List.append_assoc], ?_⟩
      rw [List.map_append, hmap, hmap', hvalues, List.reverse_append]
      cases a.2.value key <;> rfl
    · rw [serial_t.Recordable, List.countP_append, List.countP_singleton] at hmax
      obtain ⟨hrecorded, hcounts⟩ := hops (Nat.le_of_add_right_le hmax)
      obtain ⟨hrecorded', hcounts'⟩ := hops' (hrecorded ▸ hmax)
      refine ⟨?_, fun key => ?_⟩
      · rw [hrecorded', hrecorded, List.countP_append, List.countP_singleton]
      · rw [hcounts', hcounts, hvalues, List.length_append]

/-- A transaction to its end: its values stay or go. -/
theorem events_spec (t : serial_t) (hmax : t.commits = false → t.Recordable) (hlength : g.transactions.length = h) :
    ((t.events h).foldl step g).transactions.length = h + 1 ∧
      ∀ key, (versions_of ((t.events h).foldl step g).store key).map Version.value =
        (if t.commits then t.values key else []).reverse ++ (versions_of g.store key).map Version.value := by
  obtain ⟨tx, htx, -, hcount, hversions, hops⟩ := body_spec t hlength
  rw [serial_t.events, List.foldl_append, List.foldl_cons, List.foldl_nil, length_transactions_step, hcount]
  refine ⟨by simp [event_t.begins], fun key => ?_⟩
  obtain ⟨hstore, -⟩ := step_transact htx t.end_time (if t.commits then .commit else .rollback)
  obtain ⟨vers, hbody, hmap⟩ := hversions key
  rw [hstore]
  cases hcommits : t.commits with
  | true =>
    refine (congrArg _ hbody).trans ?_
    rw [List.map_append, hmap]
    rfl
  | false =>
    have hdrop : versions_of (rollback tx ((t.body h).foldl step g).store) key =
        (versions_of ((t.body h).foldl step g).store key).drop (ops_on tx key) := versions_of_rollback tx
    refine (congrArg _ hdrop).trans ?_
    have hcounted : ops_on tx key = vers.length := by
      rw [(hops (hmax hcommits)).2 key, ← List.length_reverse, ← hmap, List.length_map]
    rw [hbody, hcounted, List.drop_left]
    rfl

theorem serial_events_concat (ts : List serial_t) (t : serial_t) :
    serial_events (ts ++ [t]) = serial_events ts ++ t.events ts.length := by
  simp [serial_events, List.zipIdx_append]

/-- Between transactions the versions of a key are what the committed ones wrote. -/
theorem serial_spec {ts : List serial_t} (hmax : ∀ t ∈ ts, t.commits = false → t.Recordable) :
    (run (serial_events ts)).transactions.length = ts.length ∧
      ∀ key, (versions_of (run (serial_events ts)).store key).map Version.value =
        (committed_values key ts).reverse := by
  induction ts using List.reverseRecOn with
  | nil => exact ⟨rfl, fun key => rfl⟩
  | append_singleton ts t ih =>
    obtain ⟨hlength, hversions⟩ := ih fun t ht => hmax t (List.mem_append_left _ ht)
    obtain ⟨hcount, hnow⟩ := events_spec t (hmax t (List.mem_append_right _ (List.mem_singleton_self t))) hlength
    rw [serial_events_concat, run, List.foldl_append, ← run, List.length_append]
    refine ⟨hcount, fun key => ?_⟩
    rw [hnow, hversions, ← List.reverse_append, committed_values, committed_values, List.filter_append,
      List.flatMap_append]
    cases hcommits : t.commits <;> simp [hcommits]

end Serial

/-- The first value other than `""` of the newest version on. -/
theorem visible_value {tx : Transaction} {vers : List Version} (hold : ∀ ver ∈ vers, ver.timestamp ≤ tx.start_time) :
    (visible_version tx vers).map Version.value =
      (vers.map Version.value).find? fun value => decide (value ≠ empty_value) := by
  rw [visible_version, List.find?_map]
  refine congrArg _ (List.find?_congr fun ver hver => ?_)
  simp [hold ver hver]

/-- In a serial history a transaction reads, of each key that it has not written, the last
value other than `""` that a committed transaction wrote: what was rolled back is never
read, and no delete has any effect. The log has room for the committed operations. -/
theorem serial_reads (ts : List serial_t) (t : serial_t) (hmax : ∀ t ∈ ts, t.commits = false → t.Recordable)
    (hclock : ClockMonotone (serial_events ts ++ t.body ts.length))
    (_hlogs : (run (serial_events ts)).logs.length ≤ MAX_LOGS) {key : key_t} (hkey : t.values key = []) :
    ∃ tx, (run (serial_events ts ++ t.body ts.length)).transaction ts.length = some tx ∧
      (kv_get tx (run (serial_events ts ++ t.body ts.length)).store key).2 = last_set key ts := by
  obtain ⟨hlength, hversions⟩ := serial_spec hmax
  obtain ⟨tx, htx, hstart, -, hnow, -⟩ := body_spec t hlength
  obtain ⟨vers, hbody, hmap⟩ := hnow key
  have hsame : versions_of ((t.body ts.length).foldl step (run (serial_events ts))).store key =
      versions_of (run (serial_events ts)).store key := by
    rw [hbody, List.map_eq_nil_iff.mp (hmap.trans (congrArg _ hkey))]
    rfl
  have hold : ∀ ver ∈ versions_of (run (serial_events ts)).store key, ver.timestamp ≤ tx.start_time :=
    fun ver hver => timestamp_le_of_mem (fun e he => hstart ▸
      (List.pairwise_append.mp hclock).2.2 e he _ List.mem_cons_self) hver
  have hrun : run (serial_events ts ++ t.body ts.length) = (t.body ts.length).foldl step (run (serial_events ts)) := by
    rw [run, List.foldl_append, ← run]
  rw [hrun]
  refine ⟨tx, htx, ?_⟩
  rw [kv_get, versions_of_get_node, hsame, visible_value hold, hversions, last_set, ← List.head?_filter,
    List.filter_reverse, List.head?_reverse]

def value_200 : value_t := ⟨[50, 48, 48], by decide, by decide⟩

/-- A key is set and committed, set and rolled back, deleted and committed. -/
def serial_history : List serial_t :=
  [⟨7, [(7, .kv_set key_x value_100)], true, 7⟩, ⟨8, [(8, .kv_set key_x value_200)], false, 8⟩,
    ⟨9, [(9, .kv_delete key_x)], true, 9⟩]

/-- The key is read. -/
def reading : serial_t := ⟨10, [(10, .kv_get key_x)], true, 10⟩

theorem serial_reads_history :
    ∃ tx, (run (serial_events serial_history ++ reading.body 3)).transaction 3 = some tx ∧
      (kv_get tx (run (serial_events serial_history ++ reading.body 3)).store key_x).2 = some value_100 :=
  serial_reads serial_history reading (by simp [serial_history, serial_t.Recordable, MAX_OPS, access_t.writes])
    (by decide) (Nat.le_of_ble_eq_true rfl) rfl

end csystems.version_store
