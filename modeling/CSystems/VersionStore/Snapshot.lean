import CSystems.VersionStore.Steps

open clib.string

namespace csystems.version_store

/-- The call that created a non-empty version. -/
def write_event (key : key_t) (ver : Version) : event_t :=
  { now := ver.timestamp, call := .transact ver.writer (.kv_set key ver.value) }

/-- Versions come from the calls made so far. -/
def Written (events : List event_t) (g : globals_t) : Prop :=
  ∀ key, ∀ ver ∈ versions_of g.store key, ver.value ≠ empty_value → write_event key ver ∈ events

/-- Every open transaction began with a call made so far, at its start time. -/
def Begun (events : List event_t) (g : globals_t) : Prop :=
  ∀ h tx, g.transaction h = some tx → ∃ j, events[j]? = some { now := tx.start_time, call := .begin_transaction } ∧
    (events.take j).countP event_t.begins = h

private theorem call_of_written {call : call_t} {h : Nat} {key : key_t} {value : value_t}
    (hwritten : call.written = some (h, key, value)) (hvalue : value ≠ empty_value) :
    call = .transact h (.kv_set key value) := by
  unfold call_t.written at hwritten
  split at hwritten
  · cases hwritten
    rfl
  · cases hwritten
    exact absurd rfl hvalue
  · cases hwritten

theorem Written.step {events : List event_t} {g : globals_t} (h : Written events g) (e : event_t) :
    Written (events ++ [e]) (step g e) := by
  intro key ver hver hvalue
  have hold : ver ∈ versions_of g.store key → write_event key ver ∈ events ++ [e] :=
    fun hmem => List.mem_append_left _ (h key ver hmem hvalue)
  rcases versions_of_step g e key with hsame | ⟨writer, tx, value, -, hwritten, hpush⟩ | ⟨writer, tx, -, -, hdrop⟩
  · exact hold (hsame ▸ hver)
  · rw [hpush] at hver
    rcases List.mem_cons.mp hver with rfl | hmem
    · have hcall := call_of_written hwritten hvalue
      have he : e = write_event key { value := value, timestamp := e.now, writer := writer } := by
        rw [write_event, ← hcall]
      rw [← he]
      simp
    · exact hold hmem
  · rw [hdrop] at hver
    exact hold (List.mem_of_mem_drop hver)

theorem Begun.step {events : List event_t} (h : Begun events (run events)) (e : event_t) :
    Begun (events ++ [e]) (step (run events) e) := by
  intro handle tx htx
  have hold : ∀ t, (run events).transaction handle = some t → t.start_time = tx.start_time →
      ∃ j, (events ++ [e])[j]? = some { now := tx.start_time, call := .begin_transaction } ∧
        ((events ++ [e]).take j).countP event_t.begins = handle := by
    intro t ht hstart
    obtain ⟨j, hj, hcount⟩ := h handle t ht
    have hlt : j < events.length := (List.getElem?_eq_some_iff.mp hj).1
    refine ⟨j, ?_, ?_⟩
    · rw [List.getElem?_append_left hlt, hj, hstart]
    · rw [List.take_append_of_le_length (by omega), hcount]
  rcases transaction_step htx with ⟨hlast, hcall, rfl⟩ | ⟨t, ht, hwrite | ⟨-, rfl⟩⟩
  · refine ⟨events.length, ?_, ?_⟩
    · rw [List.getElem?_append_right (Nat.le_refl _), ← hcall]
      simp
    · rw [List.take_left, hlast, length_transactions_run]
  · obtain ⟨key, value, op, -, rfl⟩ := hwrite
    refine hold t ht ?_
    unfold write_version
    dsimp only
    split <;> rfl
  · exact hold tx ht rfl

theorem run_written (events : List event_t) : Written events (run events) ∧ Begun events (run events) := by
  induction events using List.reverseRecOn with
  | nil =>
    refine ⟨?_, ?_⟩
    · intro key ver hver
      cases hver
    · intro h tx htx
      cases htx
  | append_singleton events e ih =>
    rw [run_append]
    exact ⟨ih.1.step e, ih.2.step e⟩

/-- The values a transaction can read come from itself or from transactions
that had committed when it began. -/
def SnapshotIsolated (g : globals_t) : Prop :=
  ∀ h tx key ver, g.transaction h = some tx → visible_version tx (versions_of g.store key) = some ver →
    ver.writer = h ∨ ver.writer ∈ tx.snapshot

/-- Two transactions begin; the second writes and does not commit. -/
def dirty_read : List event_t :=
  [⟨7, .begin_transaction⟩, ⟨7, .begin_transaction⟩, ⟨7, .transact 1 (.kv_set key_x value_100)⟩]

end csystems.version_store
