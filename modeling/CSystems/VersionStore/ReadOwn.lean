import CSystems.Lib.Run
import CSystems.VersionStore.Order
import CSystems.VersionStore.Snapshot

open clib.string clib.run

namespace csystems.version_store

/-- The call neither writes nor deletes the key, nor rolls a write of it back. -/
def Undisturbed (key : key_t) (g : globals_t) (e : event_t) : Prop := pushed g e key = [] ∧ popped g e key = 0

/-- `kv_set` of a key for transaction `h`. -/
def set_event (now : Int64) (h : Nat) (key : key_t) (value : value_t) : event_t :=
  { now := now, call := .transact h (.kv_set key value) }

/-- Whatever value transaction `h` sets the key to after the calls of `past`, it
reads the value as long as it is open and nobody has touched the key. -/
def ReadsOwn (past : List event_t) (h : Nat) (key : key_t) (now : Int64) : Prop :=
  ∀ value, value ≠ empty_value → ∀ rest tx, ClockMonotone (past ++ set_event now h key value :: rest) →
    AllSteps step (Undisturbed key) (run (past ++ [set_event now h key value])) rest →
    (run (past ++ set_event now h key value :: rest)).transaction h = some tx →
    (kv_get tx (run (past ++ set_event now h key value :: rest)).store key).2 = some value

section Rest

variable {g : globals_t} {h : Nat} {key : key_t}

/-- The versions of a key that no call touches. -/
theorem versions_of_undisturbed {events : List event_t} (h : AllSteps step (Undisturbed key) g events) :
    versions_of (events.foldl step g).store key = versions_of g.store key := by
  refine @AllSteps.invariant _ _ step _ (fun g' => versions_of g'.store key = versions_of g.store key) ?_ _ _ rfl h
  intro s e hs hundisturbed
  rw [versions_of_step_eq, hundisturbed.1, hundisturbed.2, hs]
  rfl

/-- The version a `kv_set` leaves at the head. -/
theorem versions_of_set {tx : Transaction} (htx : g.transaction h = some tx) (now : Int64) (value : value_t) :
    versions_of (step g (set_event now h key value)).store key =
      { value := value, timestamp := now, writer := h } :: versions_of g.store key := by
  rw [set_event, (step_transact htx now (.kv_set key value)).1]
  exact (versions_of_write_version now .SET h tx value).trans (if_pos rfl)

end Rest

theorem visible_version_cons {tx : Transaction} {ver : Version} (hvalue : ver.value ≠ empty_value)
    (versions : List Version) :
    visible_version tx (ver :: versions) =
      if ver.timestamp ≤ tx.start_time then some ver else visible_version tx versions := by
  unfold visible_version
  by_cases hle : ver.timestamp ≤ tx.start_time
  · rw [if_pos hle, List.find?_cons_of_pos (by simp [hle, hvalue])]
  · rw [if_neg hle, List.find?_cons_of_neg (by simp [hle])]

/-- An open transaction did not begin later than the last call. -/
theorem start_time_le {events : List event_t} {now : Int64} (hnow : ∀ e ∈ events, e.now ≤ now) {h : Nat}
    {tx : Transaction} (htx : (run events).transaction h = some tx) : tx.start_time ≤ now := by
  obtain ⟨j, hj, -⟩ := (run_written events).2 h tx htx
  exact hnow _ (List.mem_of_getElem? hj)

/-- Another value than the one in a version. -/
private theorem exists_other_value (versions : Option Version) :
    ∃ value, value ≠ empty_value ∧ versions.map Version.value ≠ some value := by
  by_cases h : versions.map Version.value = some value_100
  · exact ⟨⟨[50], by decide, by decide⟩, by decide, by
      rw [h]
      decide⟩
  · exact ⟨value_100, by decide, h⟩

end csystems.version_store
