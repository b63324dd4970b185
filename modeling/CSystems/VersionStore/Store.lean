import CSystems.Lib.CString

open clib.string

namespace csystems.version_store

def MAX_KEY : Nat := 64
def MAX_VAL : Nat := 256
def MAX_OPS : Nat := 100

abbrev key_t := CStr MAX_KEY
abbrev value_t := CStr MAX_VAL

/-- `""`. -/
def empty_value : value_t := ⟨[], by decide, by decide⟩

/-- A version of a key. `writer` is the transaction that created it; the program
does not record it and no function reads it. -/
structure Version where
  value : value_t
  timestamp : Int64
  writer : Nat
  deriving DecidableEq

structure KVNode where
  key : key_t
  versions : List Version
  deriving DecidableEq

inductive op_t where
  | SET
  | DEL
  deriving DecidableEq, Repr

structure Log where
  tid : Int32
  op : op_t
  key : key_t
  value : value_t
  ts : Int64
  deriving DecidableEq

/-- A transaction with the operations it has recorded, `op_count` of them.
`snapshot` lists the transactions that had committed when it began; no function
reads it. -/
structure Transaction where
  tid : Int32
  start_time : Int64
  ops : List Log
  snapshot : List Nat
  deriving DecidableEq

/-- `get_node`: the store, in which the key now has a node. -/
def get_node (store : List KVNode) (key : key_t) : List KVNode :=
  if store.any fun node => decide (node.key = key) then store else { key := key, versions := [] } :: store

/-- Storing to the version list of the first node of the key. -/
def modify_node (f : List Version → List Version) (key : key_t) : List KVNode → List KVNode
  | [] => []
  | node :: store =>
    if node.key = key then { node with versions := f node.versions } :: store
    else node :: modify_node f key store

/-- The version list of the first node of the key. -/
def versions_of (store : List KVNode) (key : key_t) : List Version :=
  match store.find? fun node => decide (node.key = key) with
  | none => []
  | some node => node.versions

/-- The version whose value `kv_get` returns. -/
def visible_version (tx : Transaction) (versions : List Version) : Option Version :=
  versions.find? fun ver => decide (ver.timestamp ≤ tx.start_time ∧ ver.value ≠ empty_value)

def kv_get (tx : Transaction) (store : List KVNode) (key : key_t) : List KVNode × Option value_t :=
  let store := get_node store key
  (store, (visible_version tx (versions_of store key)).map Version.value)

/-- The keys and values that `print_store` lists. -/
def print_store (tx : Transaction) (store : List KVNode) : List (key_t × value_t) :=
  store.filterMap fun node => (visible_version tx node.versions).map fun ver => (node.key, ver.value)

/-- `kv_set` and `kv_delete` at time `now`, which differ in the operation
recorded and in the value. -/
def write_version (now : Int64) (op : op_t) (writer : Nat) (tx : Transaction) (store : List KVNode) (key : key_t)
    (value : value_t) : List KVNode × Transaction :=
  let store := modify_node ({ value := value, timestamp := now, writer := writer } :: ·) key (get_node store key)
  let tx := if tx.ops.length < MAX_OPS then
      { tx with ops := tx.ops ++ [{ tid := tx.tid, op := op, key := key, value := value, ts := now }] }
    else tx
  (store, tx)

def kv_set (now : Int64) (writer : Nat) (tx : Transaction) (store : List KVNode) (key : key_t) (value : value_t) :
    List KVNode × Transaction :=
  write_version now .SET writer tx store key value

def kv_delete (now : Int64) (writer : Nat) (tx : Transaction) (store : List KVNode) (key : key_t) :
    List KVNode × Transaction :=
  write_version now .DEL writer tx store key empty_value

def commit (tx : Transaction) (logs : List Log) : List Log := logs ++ tx.ops

/-- `rollback`: the head version goes, once per recorded operation, the last
operation first. -/
def rollback (tx : Transaction) (store : List KVNode) : List KVNode :=
  tx.ops.reverse.foldl (fun store op => modify_node List.tail op.key (get_node store op.key)) store

/-- The global variables and the transactions. A transaction is named by its
place in `transactions`, which is empty again once it has been committed or
rolled back, since the callers free it then. `logs` also holds what is written
past the end of the program's array. -/
structure globals_t where
  store : List KVNode
  logs : List Log
  tid_counter : Int32
  transactions : List (Option Transaction)
  committed : List Nat
  deriving DecidableEq

def initial : globals_t where
  store := []
  logs := []
  tid_counter := 1
  transactions := []
  committed := []

def begin_transaction (now : Int64) (g : globals_t) : globals_t :=
  let tx := { tid := g.tid_counter, start_time := now, ops := [], snapshot := g.committed }
  { g with tid_counter := g.tid_counter + 1, transactions := g.transactions ++ [some tx] }

/-- The calls made for a transaction. -/
inductive tx_call_t where
  | kv_get (key : key_t)
  | kv_set (key : key_t) (value : value_t)
  | kv_delete (key : key_t)
  | commit
  | rollback
  deriving DecidableEq

inductive call_t where
  | begin_transaction
  | transact (tx : Nat) (call : tx_call_t)
  deriving DecidableEq

/-- A call and what `time(NULL)` answers during it. -/
structure event_t where
  now : Int64
  call : call_t
  deriving DecidableEq

/-- The transaction behind a pointer that is still valid. -/
def globals_t.transaction (g : globals_t) (h : Nat) : Option Transaction := (g.transactions[h]?).join

/-- A call for transaction `h`: the globals and the transaction after it, which
is gone once it has ended. -/
def transact (now : Int64) (g : globals_t) (h : Nat) (tx : Transaction) : tx_call_t → globals_t × Option Transaction
  | .kv_get key => ({ g with store := (kv_get tx g.store key).1 }, some tx)
  | .kv_set key value =>
    let (store, tx) := kv_set now h tx g.store key value
    ({ g with store := store }, some tx)
  | .kv_delete key =>
    let (store, tx) := kv_delete now h tx g.store key
    ({ g with store := store }, some tx)
  | .commit => ({ g with logs := commit tx g.logs, committed := g.committed ++ [h] }, none)
  | .rollback => ({ g with store := rollback tx g.store }, none)

/-- One call, made as one atomic step. A call for a transaction that has not
begun or has ended is not made. -/
def step (g : globals_t) (e : event_t) : globals_t :=
  match e.call with
  | .begin_transaction => begin_transaction e.now g
  | .transact h call =>
    match g.transaction h with
    | none => g
    | some tx =>
      let (g', tx) := transact e.now g h tx call
      { g' with transactions := g.transactions.set h tx }

def run (events : List event_t) : globals_t := events.foldl step initial

/-- The clock does not go back. -/
def ClockMonotone (events : List event_t) : Prop := events.Pairwise fun e e' => e.now ≤ e'.now

instance (events : List event_t) : Decidable (ClockMonotone events) := inferInstanceAs (Decidable (List.Pairwise _ _))

/-- The key `"x"` of `thread_demo` and the value it stores there. -/
def key_x : key_t := ⟨[120], by decide, by decide⟩
def value_100 : value_t := ⟨[49, 48, 48], by decide, by decide⟩

section Versions

variable {store : List KVNode} {key key' : key_t}

theorem map_key_modify_node (f : List Version → List Version) :
    (modify_node f key store).map KVNode.key = store.map KVNode.key := by
  induction store with
  | nil => rfl
  | cons node store ih =>
    rw [modify_node]
    split
    · rfl
    · rw [List.map_cons, List.map_cons, ih]

theorem versions_of_get_node : versions_of (get_node store key) key' = versions_of store key' := by
  unfold get_node
  split
  · rfl
  · next habsent =>
    unfold versions_of
    by_cases hkey : key = key'
    · subst key'
      have hnone : store.find? (fun node => decide (node.key = key)) = none := by
        simpa using habsent
      rw [List.find?_cons_of_pos (by simp), hnone]
    · rw [List.find?_cons_of_neg (by simpa using hkey)]

private theorem versions_of_cons (node : KVNode) (store : List KVNode) (key : key_t) :
    versions_of (node :: store) key = if node.key = key then node.versions else versions_of store key := by
  unfold versions_of
  by_cases hkey : node.key = key
  · rw [List.find?_cons_of_pos (by simpa using hkey), if_pos hkey]
  · rw [List.find?_cons_of_neg (by simpa using hkey), if_neg hkey]

private theorem versions_of_modify_node {f : List Version → List Version}
    (hnode : store.any (fun node => decide (node.key = key)) = true) :
    versions_of (modify_node f key store) key' =
      if key' = key then f (versions_of store key) else versions_of store key' := by
  induction store with
  | nil => cases hnode
  | cons node store ih =>
    rw [modify_node]
    by_cases hkey : node.key = key
    · rw [if_pos hkey, versions_of_cons, versions_of_cons, versions_of_cons]
      by_cases hk' : key' = key
      · subst key'
        simp [hkey]
      · have hne : ¬ node.key = key' := fun h => hk' (h.symm.trans hkey)
        simp [hk', hne]
    · have hrest : store.any (fun node => decide (node.key = key)) = true := by
        simpa [hkey] using hnode
      rw [if_neg hkey, versions_of_cons, versions_of_cons, versions_of_cons, ih hrest, if_neg hkey]
      by_cases hk' : key' = key
      · subst key'
        simp [hkey]
      · simp [hk']

/-- Storing to the version list of a key, whose node is made if need be. -/
theorem versions_of_update (f : List Version → List Version) :
    versions_of (modify_node f key (get_node store key)) key' =
      if key' = key then f (versions_of store key) else versions_of store key' := by
  have hnode : (get_node store key).any (fun node => decide (node.key = key)) = true := by
    unfold get_node
    split
    · assumption
    · simp
  rw [versions_of_modify_node hnode, versions_of_get_node, versions_of_get_node]

theorem versions_of_write_version (now : Int64) (op : op_t) (writer : Nat) (tx : Transaction) (value : value_t) :
    versions_of (write_version now op writer tx store key value).1 key' =
      if key' = key then { value := value, timestamp := now, writer := writer } :: versions_of store key
      else versions_of store key' :=
  versions_of_update _

/-- How many operations on the key the transaction has recorded. -/
def ops_on (tx : Transaction) (key : key_t) : Nat := tx.ops.countP fun op => decide (op.key = key)

private theorem versions_of_pops (ops : List Log) (store : List KVNode) :
    versions_of (ops.foldl (fun store op => modify_node List.tail op.key (get_node store op.key)) store) key =
      (versions_of store key).drop (ops.countP fun op => decide (op.key = key)) := by
  induction ops generalizing store with
  | nil => simp
  | cons op ops ih =>
    rw [List.foldl_cons, ih, versions_of_update]
    by_cases hkey : op.key = key
    · subst hkey
      rw [if_pos rfl, List.countP_cons_of_pos (by simp), List.drop_tail]
    · rw [if_neg (Ne.symm hkey), List.countP_cons_of_neg (by simpa using hkey)]

/-- `rollback` takes as many versions off a key as the transaction has recorded
operations on it, whoever created them. -/
theorem versions_of_rollback (tx : Transaction) :
    versions_of (rollback tx store) key = (versions_of store key).drop (ops_on tx key) := by
  rw [rollback, versions_of_pops, List.countP_reverse]
  rfl

end Versions

end csystems.version_store
