import CSystems.VersionStore.Steps

open clib.string

namespace csystems.version_store

/-- How many versions of the key a transaction created that are still there. -/
def created_by (h : Nat) (versions : List Version) : Nat := versions.countP fun ver => decide (ver.writer = h)

/-- The call creates a version for transaction `h`. -/
def event_t.writes_for (h : Nat) (e : event_t) : Bool := decide (e.call.written.map Prod.fst = some h)

/-- No transaction makes more writes than it can record. -/
def WithinMaxOps (events : List event_t) : Prop := ∀ h, events.countP (event_t.writes_for h) ≤ MAX_OPS

/-- A transaction has recorded every version of its own that is still in the
store, and transactions that have not begun have none there. -/
structure Recorded (events : List event_t) (g : globals_t) : Prop where
  ops_le : ∀ h tx, g.transaction h = some tx → tx.ops.length ≤ events.countP (event_t.writes_for h)
  created_le : ∀ h tx key, g.transaction h = some tx → created_by h (versions_of g.store key) ≤ ops_on tx key
  fresh : ∀ h key, g.transactions.length ≤ h → created_by h (versions_of g.store key) = 0

private theorem created_by_step_le {g : globals_t} {e : event_t} {h : Nat} {key : key_t}
    (hwritten : ∀ value, e.call.written ≠ some (h, key, value) ∨ g.transaction h = none) :
    created_by h (versions_of (step g e).store key) ≤ created_by h (versions_of g.store key) := by
  rcases versions_of_step g e key with hsame | ⟨writer, tx, value, htx, hw, hpush⟩ | ⟨writer, tx, -, -, hdrop⟩
  · rw [hsame]
  · rw [hpush]
    have hne : ¬ writer = h := by
      rintro rfl
      rcases hwritten value with hnot | hnone
      · exact hnot hw
      · rw [htx] at hnone
        cases hnone
    exact Nat.le_of_eq (List.countP_cons_of_neg (by simpa using hne))
  · rw [hdrop]
    exact (List.drop_sublist _ _).countP_le

theorem Recorded.step {events : List event_t} {g : globals_t} (hrec : Recorded events g) {e : event_t}
    (hmax : WithinMaxOps (events ++ [e])) : Recorded (events ++ [e]) (step g e) := by
  have hcount (h : Nat) : (events ++ [e]).countP (event_t.writes_for h) =
      events.countP (event_t.writes_for h) + if e.writes_for h then 1 else 0 := by
    rw [List.countP_append, List.countP_singleton]
  refine ⟨?_, ?_, ?_⟩
  · intro h tx' htx'
    rw [hcount]
    rcases transaction_step htx' with ⟨-, -, rfl⟩ | ⟨tx, htx, ⟨key, value, op, hwritten, rfl⟩ | ⟨-, rfl⟩⟩
    · exact Nat.zero_le _
    · have hle := hrec.ops_le h tx htx
      rw [if_pos (by simp [event_t.writes_for, hwritten])]
      unfold write_version
      dsimp only
      split
      · rw [List.length_append]
        simpa using hle
      · omega
    · have hle := hrec.ops_le h tx' htx
      omega
  · intro h tx' key htx'
    rcases transaction_step htx' with ⟨hlast, hcall, rfl⟩ | ⟨tx, htx, ⟨k, value, op, hwritten, rfl⟩ | ⟨hnot, rfl⟩⟩
    · have hle := @created_by_step_le g e h key fun value => Or.inl (by simp [hcall, call_t.written])
      have hzero := hrec.fresh h key (Nat.le_of_eq hlast.symm)
      omega
    · have hle := hrec.created_le h tx key htx
      have hroom : tx.ops.length < MAX_OPS := by
        have hops := hrec.ops_le h tx htx
        have hbound := hmax h
        rw [hcount, if_pos (by simp [event_t.writes_for, hwritten])] at hbound
        omega
      have hops : ops_on (write_version e.now op h tx g.store k value).2 key =
          ops_on tx key + if k = key then 1 else 0 := by
        simp [write_version, hroom, ops_on, List.countP_append, List.countP_singleton]
      rw [hops]
      by_cases hk : k = key
      · subst k
        rw [if_pos rfl]
        have hstep : created_by h (versions_of (version_store.step g e).store key) ≤
            created_by h (versions_of g.store key) + 1 := by
          rcases versions_of_step g e key with hsame | ⟨writer, _, v, -, -, hpush⟩ | ⟨writer, _, -, -, hdrop⟩
          · rw [hsame]
            omega
          · rw [hpush, created_by, List.countP_cons]
            unfold created_by
            split <;> omega
          · rw [hdrop]
            exact Nat.le_succ_of_le (List.drop_sublist _ _).countP_le
        omega
      · rw [if_neg hk]
        have hother := @created_by_step_le g e h key fun v => Or.inl (by
          rw [hwritten]
          intro heq
          simp only [Option.some.injEq, Prod.mk.injEq] at heq
          exact hk heq.2.1)
        omega
    · have hle := @created_by_step_le g e h key fun value => Or.inl (hnot key value)
      have hold := hrec.created_le h tx' key htx
      omega
  · intro h key hlen
    rw [length_transactions_step] at hlen
    have hnone : g.transaction h = none := by
      unfold globals_t.transaction
      rw [List.getElem?_eq_none (by omega)]
      rfl
    have hle := @created_by_step_le g e h key fun _ => Or.inr hnone
    have hzero := hrec.fresh h key (by omega)
    omega

theorem run_recorded {events : List event_t} (hmax : WithinMaxOps events) : Recorded events (run events) := by
  induction events using List.reverseRecOn with
  | nil =>
    refine ⟨?_, ?_, ?_⟩
    · intro h tx htx
      cases htx
    · intro h tx key htx
      cases htx
    · intro h key _
      rfl
  | append_singleton events e ih =>
    rw [run_append]
    refine (ih ?_).step hmax
    intro h
    have hbound := hmax h
    rw [List.countP_append] at hbound
    omega

/-- Dropping the first `n` elements removes exactly those that pass the test,
if the test holds of the first `n` elements and of at most `n` in all. -/
private theorem drop_eq_filter_iff {α : Type} {p : α → Bool} {n : Nat} {xs : List α} (hcount : xs.countP p ≤ n) :
    xs.drop n = xs.filter (fun x => !p x) ↔ ∀ x ∈ xs.take n, p x = true := by
  have hsplit : xs.filter (fun x => !p x) = (xs.take n).filter (fun x => !p x) ++ (xs.drop n).filter (fun x => !p x) := by
    rw [← List.filter_append, List.take_append_drop]
  constructor
  · intro heq
    have hkept : (xs.drop n).filter (fun x => !p x) = xs.drop n := by
      rw [heq, List.filter_filter]
      simp
    rw [hsplit, hkept] at heq
    have hnone : (xs.take n).filter (fun x => !p x) = [] := by simpa using heq
    intro x hx
    simpa using (List.filter_eq_nil_iff.mp hnone) x hx
  · intro hall
    have htake : (xs.take n).filter (fun x => !p x) = [] := by
      rw [List.filter_eq_nil_iff]
      intro x hx
      simp [hall x hx]
    rw [hsplit, htake, List.nil_append, eq_comm, List.filter_eq_self]
    intro x hx
    have htotal : (xs.take n).countP p + (xs.drop n).countP p ≤ n := by
      rw [← List.countP_append, List.take_append_drop]
      exact hcount
    have hfull : (xs.take n).countP p = (xs.take n).length := List.countP_eq_length.mpr hall
    have hlength : (xs.take n).length = n := by
      have hpos : 0 < (xs.drop n).length := List.length_pos_of_mem hx
      rw [List.length_drop] at hpos
      rw [List.length_take]
      omega
    have hzero : (xs.drop n).countP p = 0 := by omega
    have hnot := List.countP_eq_zero.mp hzero x hx
    simpa using hnot

/-- The other transaction writes the same key first, and nothing after that. -/
def undisturbed : List event_t :=
  [⟨7, .begin_transaction⟩, ⟨7, .begin_transaction⟩, ⟨8, .transact 1 (.kv_set key_x value_100)⟩,
    ⟨9, .transact 0 (.kv_set key_x value_100)⟩, ⟨9, .transact 0 (.kv_set key_x value_100)⟩]

/-- Two transactions write the same key, the one that wrote first rolls back. -/
def overwritten : List event_t :=
  [⟨7, .begin_transaction⟩, ⟨7, .begin_transaction⟩, ⟨7, .transact 0 (.kv_set key_x value_100)⟩,
    ⟨7, .transact 1 (.kv_set key_x value_100)⟩]

end csystems.version_store
