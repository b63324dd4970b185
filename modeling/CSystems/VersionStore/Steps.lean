import Mathlib.Data.List.Induction
import CSystems.VersionStore.Store

open clib.string

namespace csystems.version_store

/-- The transaction, key and value of a call that creates a version. -/
def call_t.written : call_t → Option (Nat × key_t × value_t)
  | .transact h (.kv_set key value) => some (h, key, value)
  | .transact h (.kv_delete key) => some (h, key, empty_value)
  | _ => none

/-- The call is `begin_transaction`. -/
def event_t.begins (e : event_t) : Bool := decide (e.call = .begin_transaction)

section Step

variable {g : globals_t} {e : event_t}

theorem transaction_lt {h : Nat} {tx : Transaction} (hget : g.transaction h = some tx) :
    h < g.transactions.length := by
  unfold globals_t.transaction at hget
  by_contra hlt
  rw [List.getElem?_eq_none (by omega)] at hget
  cases hget

private theorem transaction_set {transactions : List (Option Transaction)} {h : Nat}
    (hlt : h < transactions.length) (tx : Option Transaction) (h' : Nat) :
    ((transactions.set h tx)[h']?).join = if h' = h then tx else (transactions[h']?).join := by
  by_cases heq : h' = h
  · subst h'
    rw [List.getElem?_set_self hlt, if_pos rfl]
    rfl
  · rw [List.getElem?_set_ne (Ne.symm heq), if_neg heq]

theorem step_transact_eq {h : Nat} {tx : Transaction} (htx : g.transaction h = some tx) (now : Int64)
    (call : tx_call_t) :
    step g ⟨now, .transact h call⟩ =
      { (transact now g h tx call).1 with transactions := g.transactions.set h (transact now g h tx call).2 } := by
  simp only [step, htx]

theorem step_transact {h : Nat} {tx : Transaction} (htx : g.transaction h = some tx) (now : Int64)
    (call : tx_call_t) :
    (step g ⟨now, .transact h call⟩).store = (transact now g h tx call).1.store ∧
    (step g ⟨now, .transact h call⟩).transaction h = (transact now g h tx call).2 := by
  rw [step_transact_eq htx]
  exact ⟨rfl, (transaction_set (transaction_lt htx) _ h).trans (if_pos rfl)⟩

theorem step_transact_other {h h' : Nat} (hne : h' ≠ h) (now : Int64) (call : tx_call_t) :
    (step g ⟨now, .transact h call⟩).transaction h' = g.transaction h' := by
  cases htx : g.transaction h with
  | none => simp only [step, htx]
  | some tx =>
    rw [step_transact_eq htx]
    exact (transaction_set (transaction_lt htx) _ h').trans (if_neg hne)

/-- A step creates one version of a key, takes the versions a rollback counts
off it, or leaves its versions alone. -/
theorem versions_of_step (g : globals_t) (e : event_t) (key : key_t) :
    versions_of (step g e).store key = versions_of g.store key ∨
    (∃ h tx value, g.transaction h = some tx ∧ e.call.written = some (h, key, value) ∧
      versions_of (step g e).store key =
        { value := value, timestamp := e.now, writer := h } :: versions_of g.store key) ∨
    (∃ h tx, g.transaction h = some tx ∧ e.call = .transact h .rollback ∧
      versions_of (step g e).store key = (versions_of g.store key).drop (ops_on tx key)) := by
  unfold step
  cases hcall : e.call with
  | begin_transaction => exact Or.inl rfl
  | transact h call =>
    cases htx : g.transaction h with
    | none => exact Or.inl (by simp [htx])
    | some tx =>
      simp only [htx]
      cases call with
      | kv_get k => exact Or.inl versions_of_get_node
      | kv_set k value =>
        by_cases hk : key = k
        · subst k
          refine Or.inr (Or.inl ⟨h, tx, value, htx, rfl, ?_⟩)
          exact (versions_of_write_version e.now .SET h tx value).trans (if_pos rfl)
        · exact Or.inl ((versions_of_write_version e.now .SET h tx value).trans (if_neg hk))
      | kv_delete k =>
        by_cases hk : key = k
        · subst k
          refine Or.inr (Or.inl ⟨h, tx, empty_value, htx, rfl, ?_⟩)
          exact (versions_of_write_version e.now .DEL h tx empty_value).trans (if_pos rfl)
        · exact Or.inl ((versions_of_write_version e.now .DEL h tx empty_value).trans (if_neg hk))
      | commit => exact Or.inl rfl
      | rollback => exact Or.inr (Or.inr ⟨h, tx, htx, rfl, versions_of_rollback tx⟩)

/-- A transaction that is open after a step has just begun, was open before and
has written a version, or was open before and is unchanged. -/
theorem transaction_step {h : Nat} {tx' : Transaction} (hget : (step g e).transaction h = some tx') :
    (h = g.transactions.length ∧ e.call = .begin_transaction ∧
      tx' = { tid := g.tid_counter, start_time := e.now, ops := [], snapshot := g.committed }) ∨
    (∃ tx, g.transaction h = some tx ∧
      ((∃ key value op, e.call.written = some (h, key, value) ∧
          tx' = (write_version e.now op h tx g.store key value).2) ∨
        ((∀ key value, e.call.written ≠ some (h, key, value)) ∧ tx' = tx))) := by
  unfold step at hget
  cases hcall : e.call with
  | begin_transaction =>
    simp only [hcall, begin_transaction, globals_t.transaction] at hget
    by_cases hlt : h < g.transactions.length
    · rw [List.getElem?_append_left hlt] at hget
      exact Or.inr ⟨tx', hget, Or.inr ⟨by simp [call_t.written], rfl⟩⟩
    · rw [List.getElem?_append_right (by omega)] at hget
      by_cases hlast : h = g.transactions.length
      · subst hlast
        simp only [Nat.sub_self, List.getElem?_cons_zero, Option.join_some, Option.some.injEq] at hget
        exact Or.inl ⟨rfl, rfl, hget.symm⟩
      · rw [List.getElem?_eq_none (by simp; omega)] at hget
        cases hget
  | transact h' call =>
    simp only [hcall] at hget
    cases htx : g.transaction h' with
    | none =>
      simp only [htx] at hget
      refine Or.inr ⟨tx', hget, Or.inr ⟨?_, rfl⟩⟩
      rintro key value hwritten
      have hh : h' = h := by cases call <;> simp [call_t.written] at hwritten <;> exact hwritten.1
      rw [hh, hget] at htx
      cases htx
    | some tx =>
      simp only [htx] at hget
      have hget : ((g.transactions.set h' (transact e.now g h' tx call).2)[h]?).join = some tx' := hget
      rw [transaction_set (transaction_lt htx)] at hget
      by_cases hh : h = h'
      · subst h'
        rw [if_pos rfl] at hget
        refine Or.inr ⟨tx, htx, ?_⟩
        cases call with
        | kv_get key => exact Or.inr ⟨by simp [call_t.written], (Option.some.inj hget).symm⟩
        | kv_set key value => exact Or.inl ⟨key, value, .SET, rfl, (Option.some.inj hget).symm⟩
        | kv_delete key => exact Or.inl ⟨key, empty_value, .DEL, rfl, (Option.some.inj hget).symm⟩
        | commit => cases hget
        | rollback => cases hget
      · rw [if_neg hh] at hget
        refine Or.inr ⟨tx', hget, Or.inr ⟨?_, rfl⟩⟩
        rintro key value hwritten
        have hh' : h' = h := by cases call <;> simp [call_t.written] at hwritten <;> exact hwritten.1
        exact hh hh'.symm

theorem length_transactions_step (g : globals_t) (e : event_t) :
    (step g e).transactions.length = g.transactions.length + if e.begins then 1 else 0 := by
  unfold step event_t.begins
  cases hcall : e.call with
  | begin_transaction => simp [begin_transaction]
  | transact h call =>
    cases htx : g.transaction h with
    | none => simp [htx]
    | some tx => simp [htx]

theorem length_le_foldl (events : List event_t) (g : globals_t) :
    g.transactions.length ≤ (events.foldl step g).transactions.length := by
  induction events generalizing g with
  | nil => exact Nat.le_refl _
  | cons e events ih =>
    have hrest := ih (step g e)
    rw [length_transactions_step] at hrest
    exact Nat.le_trans (Nat.le_add_right _ _) hrest

/-- A transaction keeps its start time. -/
theorem start_time_foldl {h : Nat} {tx tx' : Transaction} (htx : g.transaction h = some tx) (events : List event_t)
    (hafter : (events.foldl step g).transaction h = some tx') : tx'.start_time = tx.start_time := by
  induction events using List.reverseRecOn generalizing tx' with
  | nil =>
    obtain rfl := Option.some.inj (htx.symm.trans hafter)
    rfl
  | append_singleton events e ih =>
    rw [List.foldl_append, List.foldl_cons, List.foldl_nil] at hafter
    rcases transaction_step hafter with ⟨hlast, -, -⟩ | ⟨t, ht, ⟨k, value, op, -, rfl⟩ | ⟨-, rfl⟩⟩
    · have hlt := transaction_lt htx
      have hle := length_le_foldl events g
      omega
    · rw [← ih ht]
      unfold write_version
      dsimp only
      split <;> rfl
    · exact ih ht

end Step

theorem run_append (events : List event_t) (e : event_t) : run (events ++ [e]) = step (run events) e := by
  simp [run]

theorem run_append_cons (past rest : List event_t) (e : event_t) :
    run (past ++ e :: rest) = rest.foldl step (step (run past) e) := by
  simp [run]

/-- Handles are given out in order. -/
theorem length_transactions_run (events : List event_t) :
    (run events).transactions.length = events.countP event_t.begins := by
  induction events using List.reverseRecOn with
  | nil => rfl
  | append_singleton events e ih =>
    rw [run_append, length_transactions_step, ih, List.countP_append, List.countP_singleton]

section Effect

/-- The version that a call puts on a key, if it does. -/
def pushed (g : globals_t) (e : event_t) (key : key_t) : List Version :=
  match e.call.written with
  | none => []
  | some (h, k, value) =>
    if (g.transaction h).isSome ∧ k = key then [{ value := value, timestamp := e.now, writer := h }] else []

/-- How many versions a call takes off a key. -/
def popped (g : globals_t) (e : event_t) (key : key_t) : Nat :=
  match e.call with
  | .transact h .rollback =>
    match g.transaction h with
    | none => 0
    | some tx => ops_on tx key
  | _ => 0

theorem pushed_eq_nil {g : globals_t} {e : event_t} {key : key_t}
    (h : ∀ handle value, e.call.written = some (handle, key, value) → g.transaction handle = none) :
    pushed g e key = [] := by
  unfold pushed
  split
  · rfl
  · next handle k value hwritten =>
    rw [if_neg]
    rintro ⟨hopen, rfl⟩
    rw [h handle value hwritten] at hopen
    cases hopen

theorem mem_pushed {g : globals_t} {e : event_t} {key : key_t} {ver : Version} (h : ver ∈ pushed g e key) :
    ∃ tx, g.transaction ver.writer = some tx ∧ e.call.written = some (ver.writer, key, ver.value) ∧
      ver.timestamp = e.now := by
  unfold pushed at h
  split at h
  · cases h
  · next handle k value hwritten =>
    split at h
    · next hboth =>
      obtain ⟨hopen, rfl⟩ := hboth
      obtain ⟨tx, htx⟩ := Option.isSome_iff_exists.mp hopen
      obtain rfl := List.mem_singleton.mp h
      exact ⟨tx, htx, hwritten, rfl⟩
    · cases h

/-- The versions of a key are a stack. -/
theorem versions_of_step_eq (g : globals_t) (e : event_t) (key : key_t) :
    versions_of (step g e).store key = pushed g e key ++ (versions_of g.store key).drop (popped g e key) := by
  obtain ⟨now, call⟩ := e
  unfold step pushed popped
  cases call with
  | begin_transaction => rfl
  | transact h call =>
    cases htx : g.transaction h with
    | none => cases call <;> simp [htx, call_t.written]
    | some tx =>
      simp only [htx]
      cases call with
      | kv_get k => exact versions_of_get_node
      | kv_set k value =>
        have hwrite := @versions_of_write_version g.store k key now .SET h tx value
        by_cases hk : key = k
        · subst k
          simpa [call_t.written, htx, transact, kv_set] using hwrite
        · have hne : ¬ k = key := fun heq => hk heq.symm
          simpa [call_t.written, htx, transact, kv_set, hk, hne] using hwrite
      | kv_delete k =>
        have hwrite := @versions_of_write_version g.store k key now .DEL h tx empty_value
        by_cases hk : key = k
        · subst k
          simpa [call_t.written, htx, transact, kv_delete] using hwrite
        · have hne : ¬ k = key := fun heq => hk heq.symm
          simpa [call_t.written, htx, transact, kv_delete, hk, hne] using hwrite
      | commit => rfl
      | rollback =>
        simpa [call_t.written, htx, transact] using @versions_of_rollback g.store key tx

end Effect

section Made

/-- A call for a transaction that has not begun or has ended is not made. -/
def event_t.possible (g : globals_t) (e : event_t) : Bool :=
  match e.call with
  | .begin_transaction => true
  | .transact h _ => (g.transaction h).isSome

/-- The calls of the run that are made. -/
def made (events : List event_t) : List event_t :=
  (events.foldl (fun s e => (step s.1 e, if e.possible s.1 then s.2 ++ [e] else s.2)) (initial, [])).2

private theorem made_fst (events : List event_t) :
    (events.foldl (fun s e => (step s.1 e, if e.possible s.1 then s.2 ++ [e] else s.2))
      ((initial, []) : globals_t × List event_t)).1 = run events := by
  induction events using List.reverseRecOn with
  | nil => rfl
  | append_singleton events e ih => rw [List.foldl_append, List.foldl_cons, List.foldl_nil, ih, run_append]

theorem made_append (events : List event_t) (e : event_t) :
    made (events ++ [e]) = made events ++ if e.possible (run events) then [e] else [] := by
  rw [made, List.foldl_append, List.foldl_cons, List.foldl_nil, made_fst]
  split
  · rfl
  · rw [List.append_nil]
    rfl

end Made

end csystems.version_store
