import Mathlib.Algebra.Order.BigOperators.Group.List
import Mathlib.Algebra.Order.Group.Nat
import Mathlib.Algebra.Order.Ring.Int
import CSystems.VersionStore.Steps

open clib.string

namespace csystems.version_store

def MAX_LOGS : Nat := 1000

/-- The `tid` of transaction `h`. -/
def tid_of (h : Nat) : Int32 := 1 + Int32.ofNat h

/-- The record of a call that writes for transaction `h`. -/
def record (h : Nat) (e : event_t) : Option Log :=
  match e.call with
  | .transact h' (.kv_set key value) =>
    if h' = h then some { tid := tid_of h, op := .SET, key := key, value := value, ts := e.now } else none
  | .transact h' (.kv_delete key) =>
    if h' = h then some { tid := tid_of h, op := .DEL, key := key, value := empty_value, ts := e.now } else none
  | _ => none

/-- The records of all `kv_set` and `kv_delete` calls made for transaction `h`,
in the order of the calls. -/
def operations (h : Nat) (events : List event_t) : List Log := (made events).filterMap (record h)

/-- The log holds the records of all committed transactions and has room for
them. -/
def Complete (events : List event_t) : Prop :=
  (run events).logs = ((run events).committed.flatMap fun h => operations h events) ∧
    (run events).logs.length ≤ MAX_LOGS

/-- No committed transaction has made more writes than it can record, and all
of them together no more than the log can hold. -/
def Recordable (events : List event_t) : Prop :=
  (∀ h ∈ (run events).committed, (operations h events).length ≤ MAX_OPS) ∧
    ((run events).committed.map fun h => (operations h events).length).sum ≤ MAX_LOGS

theorem operations_append (h : Nat) (events : List event_t) (e : event_t) :
    operations h (events ++ [e]) =
      operations h events ++ if e.possible (run events) then (record h e).toList else [] := by
  rw [operations, made_append, List.filterMap_append]
  split
  · cases hrecord : record h e <;> simp [operations, hrecord]
  · rfl

private theorem tid_of_succ (h : Nat) : tid_of h + 1 = tid_of (h + 1) := by
  rw [tid_of, tid_of, Int32.ofNat_add, Int32.add_assoc]
  rfl

/-- Open transactions have recorded the first writes made for them, and the log
holds what the committed ones had recorded. -/
structure Logged (events : List event_t) (g : globals_t) : Prop where
  counter : g.tid_counter = tid_of g.transactions.length
  ops : ∀ h tx, g.transaction h = some tx → tx.tid = tid_of h ∧ tx.ops = (operations h events).take MAX_OPS
  fresh : ∀ h, g.transactions.length ≤ h → operations h events = []
  ended : ∀ h ∈ g.committed, g.transaction h = none ∧ h < g.transactions.length
  logs : g.logs = g.committed.flatMap fun h => (operations h events).take MAX_OPS

private theorem take_append_take {α : Type} (n : Nat) (xs ys : List α) :
    (xs.take n ++ ys).take n = (xs ++ ys).take n := by
  rw [List.take_append, List.take_append, List.take_take, Nat.min_self, List.length_take]
  congr 2
  omega

private theorem record_set (now : Int64) (h : Nat) (key : key_t) (value : value_t) :
    record h ⟨now, .transact h (.kv_set key value)⟩ =
      some { tid := tid_of h, op := .SET, key := key, value := value, ts := now } := if_pos rfl

private theorem record_delete (now : Int64) (h : Nat) (key : key_t) :
    record h ⟨now, .transact h (.kv_delete key)⟩ =
      some { tid := tid_of h, op := .DEL, key := key, value := empty_value, ts := now } := if_pos rfl

/-- What one call leaves of its transaction. -/
private theorem ops_transact {now : Int64} {g : globals_t} {h : Nat} {tx tx' : Transaction} {call : tx_call_t}
    (hafter : (transact now g h tx call).2 = some tx') (htid : tx.tid = tid_of h) :
    tx'.tid = tid_of h ∧
      (tx.ops.length ≤ MAX_OPS →
        tx'.ops = (tx.ops ++ (record h ⟨now, .transact h call⟩).toList).take MAX_OPS) := by
  have hwrite (op : op_t) (key : key_t) (value : value_t) :
      (write_version now op h tx g.store key value).2.tid = tid_of h ∧
        (tx.ops.length ≤ MAX_OPS → (write_version now op h tx g.store key value).2.ops =
          (tx.ops ++ [({ tid := tid_of h, op := op, key := key, value := value, ts := now } : Log)]).take MAX_OPS) := by
    unfold write_version
    dsimp only
    split
    · next hroom =>
      refine ⟨htid, fun _ => ?_⟩
      rw [List.take_of_length_le (by simpa using Nat.succ_le_of_lt hroom), htid]
    · next hfull =>
      refine ⟨htid, fun hle => ?_⟩
      rw [List.take_append_of_le_length (by omega), List.take_of_length_le hle]
  cases call with
  | kv_get key =>
    obtain rfl := Option.some.inj hafter
    refine ⟨htid, fun hle => ?_⟩
    rw [record, Option.toList_none, List.append_nil, List.take_of_length_le hle]
  | kv_set key value =>
    obtain rfl := Option.some.inj hafter
    rw [record_set]
    exact hwrite .SET key value
  | kv_delete key =>
    obtain rfl := Option.some.inj hafter
    rw [record_delete]
    exact hwrite .DEL key empty_value
  | commit => cases hafter
  | rollback => cases hafter

private theorem record_other {h h' : Nat} (hne : h' ≠ h) (now : Int64) (call : tx_call_t) :
    record h' ⟨now, .transact h call⟩ = none := by
  cases call <;> simp [record, Ne.symm hne]

/-- A call whose transaction is open leaves the operations of the others. -/
private theorem operations_other {events : List event_t} {h h' : Nat} (hne : h' ≠ h) (now : Int64)
    (call : tx_call_t) :
    operations h' (events ++ [⟨now, .transact h call⟩]) = operations h' events := by
  rw [operations_append, record_other hne]
  simp

private theorem operations_self {events : List event_t} {h : Nat} {tx : Transaction}
    (htx : (run events).transaction h = some tx) (now : Int64) (call : tx_call_t) :
    operations h (events ++ [⟨now, .transact h call⟩]) =
      operations h events ++ (record h ⟨now, .transact h call⟩).toList := by
  rw [operations_append, if_pos]
  simp [event_t.possible, htx]

private theorem logged_begin {events : List event_t} (hlog : Logged events (run events)) (now : Int64) :
    Logged (events ++ [⟨now, .begin_transaction⟩]) (step (run events) ⟨now, .begin_transaction⟩) := by
  have hsame (h : Nat) : operations h (events ++ [⟨now, .begin_transaction⟩]) = operations h events := by
    rw [operations_append]
    simp [record]
  have hlength : (step (run events) ⟨now, .begin_transaction⟩).transactions.length =
      (run events).transactions.length + 1 := by simp [step, begin_transaction]
  have hold {h : Nat} (hlt : h < (run events).transactions.length) :
      (step (run events) ⟨now, .begin_transaction⟩).transaction h = (run events).transaction h := by
    simp [step, begin_transaction, globals_t.transaction, List.getElem?_append_left hlt]
  refine ⟨?_, ?_, ?_, ?_, ?_⟩
  · rw [hlength, ← tid_of_succ, ← hlog.counter]
    rfl
  · intro h tx htx
    rw [hsame]
    rcases transaction_step htx with ⟨rfl, -, rfl⟩ | ⟨tx', htx', ⟨_, _, _, hwritten, -⟩ | ⟨-, rfl⟩⟩
    · rw [hlog.fresh _ (Nat.le_refl _)]
      exact ⟨hlog.counter, rfl⟩
    · simp [call_t.written] at hwritten
    · exact hlog.ops h tx htx'
  · intro h hle
    rw [hsame]
    exact hlog.fresh h (by omega)
  · intro h hcommitted
    obtain ⟨hnone, hlt⟩ := hlog.ended h hcommitted
    exact ⟨(hold hlt).trans hnone, by omega⟩
  · simp only [hsame]
    exact hlog.logs

/-- A call of an open transaction leaves the operations of the committed ones. -/
private theorem Logged.committed_operations {events : List event_t} (hlog : Logged events (run events)) {h : Nat}
    {tx : Transaction} (htx : (run events).transaction h = some tx) (now : Int64) (call : tx_call_t) :
    ((run events).committed.flatMap fun h' => (operations h' (events ++ [⟨now, .transact h call⟩])).take MAX_OPS) =
      (run events).logs := by
  rw [hlog.logs, List.flatMap_def, List.flatMap_def]
  congr 1
  refine List.map_congr_left fun h' hmem => ?_
  rw [operations_other]
  rintro rfl
  rw [(hlog.ended h' hmem).1] at htx
  cases htx

private theorem logged_transact {events : List event_t} (hlog : Logged events (run events)) {h : Nat}
    {tx : Transaction} (htx : (run events).transaction h = some tx) (now : Int64) (call : tx_call_t) :
    Logged (events ++ [⟨now, .transact h call⟩]) (step (run events) ⟨now, .transact h call⟩) := by
  obtain ⟨htid, hops⟩ := hlog.ops h tx htx
  have hroom : tx.ops.length ≤ MAX_OPS := by
    rw [hops]
    exact List.length_take_le _ _
  have hself := (step_transact htx now call).2
  have hlength : (step (run events) ⟨now, .transact h call⟩).transactions.length =
      (run events).transactions.length := length_transactions_step _ _
  have hlt := transaction_lt htx
  refine ⟨?_, ?_, ?_, ?_, ?_⟩
  · rw [hlength, ← hlog.counter, step_transact_eq htx]
    cases call <;> rfl
  · intro h' tx' htx'
    by_cases hne : h' = h
    · subst h'
      obtain ⟨htid', hops'⟩ := ops_transact (hself.symm.trans htx') htid
      refine ⟨htid', ?_⟩
      rw [hops' hroom, hops, take_append_take, operations_self htx]
    · rw [step_transact_other hne] at htx'
      rw [operations_other hne]
      exact hlog.ops h' tx' htx'
  · intro h' hle
    rw [operations_other (by omega)]
    exact hlog.fresh h' (by omega)
  · intro h' hcommitted
    by_cases hne : h' = h
    · subst h'
      refine ⟨?_, by omega⟩
      have hnot : h ∉ (run events).committed := by
        intro hmem
        rw [(hlog.ended h hmem).1] at htx
        cases htx
      rw [hself]
      rw [step_transact_eq htx] at hcommitted
      cases call with
      | kv_get => exact absurd hcommitted hnot
      | kv_set => exact absurd hcommitted hnot
      | kv_delete => exact absurd hcommitted hnot
      | commit => rfl
      | rollback => rfl
    · have hold : h' ∈ (run events).committed := by
        rw [step_transact_eq htx] at hcommitted
        cases call with
        | commit => simpa [transact, hne] using hcommitted
        | _ => exact hcommitted
      rw [step_transact_other hne, hlength]
      exact hlog.ended h' hold
  · have hkept := hlog.committed_operations htx now call
    rw [step_transact_eq htx]
    cases call with
    | commit =>
      simp only [transact, commit, List.flatMap_append, hkept, List.flatMap_singleton, hops, operations_self htx]
      simp [record]
    | _ => exact hkept.symm

theorem run_logged (events : List event_t) : Logged events (run events) := by
  induction events using List.reverseRecOn with
  | nil =>
    refine ⟨rfl, ?_, fun _ _ => rfl, ?_, rfl⟩
    · intro h tx htx
      cases htx
    · intro h hcommitted
      cases hcommitted
  | append_singleton events e ih =>
    rw [run_append]
    obtain ⟨now, call⟩ := e
    cases call with
    | begin_transaction => exact logged_begin ih now
    | transact h call =>
      cases htx : (run events).transaction h with
      | some tx => exact logged_transact ih htx now call
      | none =>
        -- the call is not made
        have hsame (h' : Nat) : operations h' (events ++ [⟨now, .transact h call⟩]) = operations h' events := by
          rw [operations_append, if_neg, List.append_nil]
          simp [event_t.possible, htx]
        have hstep : step (run events) ⟨now, .transact h call⟩ = run events := by simp only [step, htx]
        rw [hstep]
        exact ⟨ih.counter, by simpa only [hsame] using ih.ops, by simpa only [hsame] using ih.fresh, ih.ended,
          by simpa only [hsame] using ih.logs⟩

/-- Cutting lists short leaves them whole only if none is too long. -/
private theorem flatMap_take_eq_iff {α β : Type} {f : α → List β} {n : Nat} {xs : List α} :
    (xs.flatMap fun x => (f x).take n) = xs.flatMap f ↔ ∀ x ∈ xs, (f x).length ≤ n := by
  constructor
  · intro heq
    have hlength : (xs.map fun x => min n (f x).length).sum = (xs.map fun x => (f x).length).sum := by
      simpa [List.length_flatMap] using congrArg List.length heq
    by_contra hnot
    push Not at hnot
    obtain ⟨x, hx, hlong⟩ := hnot
    have hlt := List.sum_lt_sum (fun x => min n (f x).length) (fun x => (f x).length)
      (fun y (_ : y ∈ xs) => Nat.min_le_right n (f y).length) ⟨x, hx, by omega⟩
    omega
  · intro hle
    rw [List.flatMap_def, List.flatMap_def]
    congr 1
    exact List.map_congr_left fun x hx => List.take_of_length_le (hle x hx)

theorem complete_iff (events : List event_t) : Complete events ↔ Recordable events := by
  unfold Complete Recordable
  rw [(run_logged events).logs, flatMap_take_eq_iff]
  refine and_congr_right fun hwhole => ?_
  rw [flatMap_take_eq_iff.mpr hwhole, List.length_flatMap]

/-- One more call records no fewer operations. -/
private theorem Recordable.of_append {events : List event_t} {e : event_t} (h : Recordable (events ++ [e])) :
    Recordable events := by
  obtain ⟨hmax, hroom⟩ := h
  obtain ⟨new, hnew⟩ : ∃ new, (run (events ++ [e])).committed = (run events).committed ++ new := by
    rw [run_append]
    obtain ⟨now, call⟩ := e
    cases call with
    | begin_transaction => exact ⟨[], (List.append_nil _).symm⟩
    | transact h call =>
      cases htx : (run events).transaction h with
      | none => exact ⟨[], by simp [step, htx]⟩
      | some tx =>
        rw [step_transact_eq htx]
        cases call with
        | commit => exact ⟨[h], rfl⟩
        | _ => exact ⟨[], (List.append_nil _).symm⟩
  have hle (h : Nat) : (operations h events).length ≤ (operations h (events ++ [e])).length := by
    rw [operations_append, List.length_append]
    omega
  rw [hnew] at hmax hroom
  refine ⟨fun h hh => Nat.le_trans (hle h) (hmax h (List.mem_append_left _ hh)), ?_⟩
  have hsum := List.sum_le_sum fun h (_ : h ∈ (run events).committed) => hle h
  rw [List.map_append, List.sum_append] at hroom
  omega

/-- The log is complete in every state of a run if and only if no committed
transaction makes more writes than it can record and all committed transactions
together make no more than the log can hold. -/
theorem commit_log_complete_iff (events : List event_t) :
    (∀ now, now <+: events → Complete now) ↔ Recordable events := by
  constructor
  · intro hall
    exact (complete_iff events).mp (hall events (List.prefix_refl _))
  · rintro hrecordable now ⟨rest, rfl⟩
    rw [complete_iff]
    induction rest using List.reverseRecOn with
    | nil => simpa using hrecordable
    | append_singleton rest e ih =>
      rw [← List.append_assoc] at hrecordable
      exact ih hrecordable.of_append

/-- One transaction sets the key many times and commits. -/
def many_writes (n : Nat) : List event_t :=
  ⟨7, .begin_transaction⟩ :: List.replicate n ⟨7, .transact 0 (.kv_set key_x value_100)⟩ ++ [⟨7, .transact 0 .commit⟩]

/-- The last write of a transaction that makes one too many is not logged. -/
theorem commit_log_drops_write :
    (operations 0 (many_writes (MAX_OPS + 1))).length = MAX_OPS + 1 ∧
    (run (many_writes (MAX_OPS + 1))).committed = [0] ∧
    (run (many_writes (MAX_OPS + 1))).logs.length = MAX_OPS ∧
    ¬ ∀ now, now <+: many_writes (MAX_OPS + 1) → Complete now := by
  have hmade : (operations 0 (many_writes (MAX_OPS + 1))).length = MAX_OPS + 1 := by decide +kernel
  have hcommitted : (run (many_writes (MAX_OPS + 1))).committed = [0] := by decide +kernel
  refine ⟨hmade, hcommitted, by decide +kernel, ?_⟩
  intro hall
  obtain ⟨hmax, -⟩ := (complete_iff _).mp (hall _ (List.prefix_refl _))
  have hle := hmax 0 (by rw [hcommitted]; exact List.mem_cons_self)
  omega

end csystems.version_store
