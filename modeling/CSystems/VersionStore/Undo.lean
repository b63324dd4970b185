import CSystems.VersionStore.Rollback

open clib.string

namespace csystems.version_store

/-- The calls a transaction makes between its beginning and its end. -/
def tx_call_t.accesses : tx_call_t → Bool
  | .kv_get _ | .kv_set _ _ | .kv_delete _ => true
  | .commit | .rollback => false

/-- The event is such a call of transaction `h`. -/
def event_t.accesses_for (h : Nat) (e : event_t) : Prop :=
  ∃ call, e.call = .transact h call ∧ call.accesses = true

/-- Nodes of keys that have been looked up only. -/
def empty_nodes (seen : List key_t) : List KVNode := seen.map fun key => { key := key, versions := [] }

section Store

variable {store : List KVNode} {key : key_t}

theorem get_node_of_mem (hmem : key ∈ store.map KVNode.key) : get_node store key = store := by
  obtain ⟨node, hnode, hkey⟩ := List.mem_map.mp hmem
  exact if_pos (List.any_eq_true.mpr ⟨node, hnode, by simpa using hkey⟩)

theorem mem_get_node : key ∈ (get_node store key).map KVNode.key := by
  unfold get_node
  split
  · next hany =>
    obtain ⟨node, hnode, hkey⟩ := List.any_eq_true.mp hany
    exact List.mem_map.mpr ⟨node, hnode, by simpa using hkey⟩
  · exact List.mem_cons_self

/-- A lookup makes at most an empty node. -/
theorem get_node_eq_append (store : List KVNode) (key : key_t) :
    ∃ seen, (∀ k ∈ seen, k ∉ store.map KVNode.key) ∧ get_node store key = empty_nodes seen ++ store := by
  by_cases hmem : key ∈ store.map KVNode.key
  · exact ⟨[], by simp, get_node_of_mem hmem⟩
  · refine ⟨[key], by simpa using hmem, ?_⟩
    unfold get_node
    rw [if_neg]
    · rfl
    · intro hany
      obtain ⟨node, hnode, hkey⟩ := List.any_eq_true.mp hany
      exact hmem (List.mem_map.mpr ⟨node, hnode, by simpa using hkey⟩)

theorem modify_node_append {f : List Version → List Version} {first : List KVNode}
    (habsent : key ∉ first.map KVNode.key) :
    modify_node f key (first ++ store) = first ++ modify_node f key store := by
  induction first with
  | nil => rfl
  | cons node first ih =>
    simp only [List.map_cons, List.mem_cons, not_or] at habsent
    rw [List.cons_append, modify_node, if_neg (Ne.symm habsent.1), ih habsent.2, List.cons_append]

/-- Taking the head version off undoes putting one on. -/
theorem modify_node_tail_cons (ver : Version) :
    modify_node List.tail key (modify_node (ver :: ·) key store) = store := by
  induction store with
  | nil => rfl
  | cons node store ih =>
    by_cases hkey : node.key = key
    · rw [modify_node, if_pos hkey, modify_node, if_pos hkey]
      rfl
    · rw [modify_node, if_neg hkey, modify_node, if_neg hkey, ih]

theorem versions_of_empty_nodes {seen : List key_t} (hseen : ∀ k ∈ seen, k ∉ store.map KVNode.key) :
    versions_of (empty_nodes seen ++ store) key = versions_of store key := by
  induction seen with
  | nil => rfl
  | cons k seen ih =>
    have hrest := ih fun k hk => hseen k (List.mem_cons_of_mem _ hk)
    rw [empty_nodes, List.map_cons, List.cons_append, versions_of]
    by_cases hkey : k = key
    · subst k
      have hnone : store.find? (fun node => decide (node.key = key)) = none := by
        simpa using hseen key List.mem_cons_self
      rw [List.find?_cons_of_pos (by simp), versions_of, hnone]
    · rw [List.find?_cons_of_neg (by simpa using hkey)]
      exact hrest

/-- Looking a key up and putting a version on it, then taking it off again. -/
theorem unwrite (seen : List key_t) (ver : Version)
    (hseen : ∀ k ∈ seen, k ∉ (modify_node (ver :: ·) key (get_node store key)).map KVNode.key) :
    modify_node List.tail key
        (get_node (empty_nodes seen ++ modify_node (ver :: ·) key (get_node store key)) key) =
      empty_nodes seen ++ get_node store key := by
  have hmem : key ∈ (modify_node (ver :: ·) key (get_node store key)).map KVNode.key := by
    rw [map_key_modify_node]
    exact mem_get_node
  have habsent : key ∉ (empty_nodes seen).map KVNode.key := by
    intro hkey
    obtain ⟨node, hnode, hkey⟩ := List.mem_map.mp hkey
    obtain ⟨k, hk, rfl⟩ := List.mem_map.mp hnode
    exact hseen k hk (hkey ▸ hmem)
  rw [get_node_of_mem (by simp [hmem]), modify_node_append habsent, modify_node_tail_cons]

/-- Keys that a store with one more node does not have, and the key of that node. -/
private theorem notMem_made {seen made : List key_t} (hmade : ∀ k ∈ made, k ∉ store.map KVNode.key)
    (hnode : get_node store key = empty_nodes made ++ store)
    (hseen : ∀ k ∈ seen, k ∉ (get_node store key).map KVNode.key) :
    ∀ k ∈ seen ++ made, k ∉ store.map KVNode.key := by
  intro k hk
  rcases List.mem_append.mp hk with hk | hk
  · intro hmem
    refine hseen k hk ?_
    rw [hnode]
    simp [hmem]
  · exact hmade k hk

end Store

/-- What one call that is neither `commit` nor `rollback` does to the store and
to the operations of its transaction. -/
private theorem transact_accesses (now : Int64) (g : globals_t) (h : Nat) (tx : Transaction) {call : tx_call_t}
    (hcall : call.accesses = true) :
    (∃ key, call = .kv_get key ∧ transact now g h tx call = ({ g with store := get_node g.store key }, some tx)) ∨
    (∃ key value op, (call_t.transact h call).written = some (h, key, value) ∧
      transact now g h tx call =
        ({ g with store := (write_version now op h tx g.store key value).1 },
          some (write_version now op h tx g.store key value).2)) := by
  cases call with
  | kv_get key => exact Or.inl ⟨key, rfl, rfl⟩
  | kv_set key value => exact Or.inr ⟨key, value, .SET, rfl, rfl⟩
  | kv_delete key => exact Or.inr ⟨key, empty_value, .DEL, rfl, rfl⟩
  | commit => cases hcall
  | rollback => cases hcall

/-- The transaction is still open after its calls. Undoing the operations it has
recorded during them restores the store, but for nodes without versions. -/
private theorem undo_accesses {h : Nat} {calls : List event_t} (hcalls : ∀ e ∈ calls, e.accesses_for h)
    {g : globals_t} {tx : Transaction} (htx : g.transaction h = some tx)
    (hroom : tx.ops.length + calls.countP (event_t.writes_for h) ≤ MAX_OPS) :
    ∃ ops seen, (calls.foldl step g).transaction h = some { tx with ops := tx.ops ++ ops } ∧
      (∀ key ∈ seen, key ∉ g.store.map KVNode.key) ∧
      ops.reverse.foldl (fun store op => modify_node List.tail op.key (get_node store op.key))
          (calls.foldl step g).store = empty_nodes seen ++ g.store := by
  induction calls generalizing g tx with
  | nil => exact ⟨[], [], by simpa using htx, by simp, rfl⟩
  | cons e calls ih =>
    have hrest : ∀ e ∈ calls, e.accesses_for h := fun e he => hcalls e (List.mem_cons_of_mem _ he)
    obtain ⟨now, call⟩ := e
    obtain ⟨call, rfl, haccesses⟩ := hcalls _ List.mem_cons_self
    obtain ⟨hstore, hafter⟩ := step_transact htx now call
    rw [List.countP_cons] at hroom
    rw [List.foldl_cons]
    rcases transact_accesses now g h tx haccesses with ⟨key, rfl, hcall⟩ | ⟨key, value, op, hwritten, hcall⟩
    · rw [hcall] at hstore hafter
      obtain ⟨ops, seen, hlast, hseen, hundo⟩ := ih hrest hafter (by omega)
      obtain ⟨made, hmade, hnode⟩ := get_node_eq_append g.store key
      rw [hstore] at hseen hundo
      refine ⟨ops, seen ++ made, hlast, notMem_made hmade hnode hseen, ?_⟩
      rw [hundo, hnode]
      simp [empty_nodes]
    · rw [hcall] at hstore hafter
      have hwrites : event_t.writes_for h ⟨now, .transact h call⟩ = true := by simp [event_t.writes_for, hwritten]
      rw [if_pos hwrites] at hroom
      have htx' : (write_version now op h tx g.store key value).2 =
          { tx with ops := tx.ops ++ [{ tid := tx.tid, op := op, key := key, value := value, ts := now }] } := by
        simp only [write_version]
        rw [if_pos (by omega)]
      rw [htx'] at hafter
      obtain ⟨ops, seen, hlast, hseen, hundo⟩ := ih hrest hafter (by
        rw [List.length_append, List.length_singleton]
        omega)
      rw [hstore] at hseen hundo
      have hunwrite := unwrite seen { value := value, timestamp := now, writer := h } hseen
      obtain ⟨made, hmade, hnode⟩ := get_node_eq_append g.store key
      refine ⟨{ tid := tx.tid, op := op, key := key, value := value, ts := now } :: ops, seen ++ made, ?_, ?_, ?_⟩
      · rw [hlast]
        simp
      · refine notMem_made hmade hnode fun k hk => ?_
        have hold := hseen k hk
        simp only [write_version] at hold
        rwa [map_key_modify_node] at hold
      · rw [List.reverse_cons, List.foldl_append, hundo, List.foldl_cons, List.foldl_nil]
        simp only [write_version]
        rw [hunwrite, hnode]
        simp [empty_nodes]

/-- A transaction that has recorded nothing makes at most as many writes as it
can record, with no call of another transaction in between, and rolls back. The
store is what it was, but for nodes without versions of keys it did not have, so
every key has the versions it had. -/
theorem rollback_restores (g : globals_t) (h : Nat) (tx : Transaction) (htx : g.transaction h = some tx)
    (hops : tx.ops = []) (calls : List event_t) (hcalls : ∀ e ∈ calls, e.accesses_for h)
    (hmax : calls.countP (event_t.writes_for h) ≤ MAX_OPS) (now : Int64) :
    (∃ seen, (∀ key ∈ seen, key ∉ g.store.map KVNode.key) ∧
      (step (calls.foldl step g) ⟨now, .transact h .rollback⟩).store = empty_nodes seen ++ g.store) ∧
    ∀ key, versions_of (step (calls.foldl step g) ⟨now, .transact h .rollback⟩).store key =
      versions_of g.store key := by
  obtain ⟨ops, seen, hlast, hseen, hundo⟩ := undo_accesses hcalls htx (by simpa [hops] using hmax)
  have hstore : (step (calls.foldl step g) ⟨now, .transact h .rollback⟩).store = empty_nodes seen ++ g.store := by
    rw [(step_transact hlast now .rollback).1, ← hundo]
    simp only [transact, rollback, hops, List.nil_append]
  refine ⟨⟨seen, hseen, hstore⟩, ?_⟩
  intro key
  rw [hstore]
  exact versions_of_empty_nodes hseen

/-- A key is set and committed, and the next transaction begins. -/
def committed_x : List event_t :=
  [⟨7, .begin_transaction⟩, ⟨7, .transact 0 (.kv_set key_x value_100)⟩, ⟨7, .transact 0 .commit⟩,
    ⟨8, .begin_transaction⟩]

/-- The key is deleted, read and set again. -/
def rewritten : List event_t :=
  [⟨8, .transact 1 (.kv_delete key_x)⟩, ⟨8, .transact 1 (.kv_get key_x)⟩,
    ⟨9, .transact 1 (.kv_set key_x value_100)⟩]

theorem rollback_restores_rewritten :
    versions_of (step (rewritten.foldl step (run committed_x)) ⟨9, .transact 1 .rollback⟩).store key_x =
      versions_of (run committed_x).store key_x :=
  (rollback_restores (run committed_x) 1 { tid := 2, start_time := 8, ops := [], snapshot := [0] } (by decide) rfl
    rewritten (by simp [rewritten, event_t.accesses_for, tx_call_t.accesses]) (by decide) 9).2 key_x

end csystems.version_store
