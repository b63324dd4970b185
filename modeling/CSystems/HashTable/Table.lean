import Mathlib.Data.List.Induction
import CSystems.Lib.CString
import CSystems.Lib.HashTable
import CSystems.Lib.Run
import CSystems.Lib.Table

open clib.heap clib.string clib.run clib.table

namespace csystems.hash_table

def TABLE_SIZE : Nat := 10
def KEY_SIZE : Nat := 50

abbrev key_t := CStr KEY_SIZE

structure Node where
  key : key_t
  value : Int32
  next : Option Nat
  deriving DecidableEq

namespace Node

def set_value (value : Int32) (n : Node) : Node := { n with value := value }
def set_next (p : Option Nat) (n : Node) : Node := { n with next := p }

/-- What the node holds, without its link. -/
def contents (n : Node) : key_t × Int32 := (n.key, n.value)

end Node

/-- The array of chains and the heap the nodes live in. -/
structure table_t where
  hashTable : List (Option Nat)
  heap : Heap Node

def hash (key : key_t) : Nat :=
  (key.chars.foldl (fun (hashValue : UInt32) c => hashValue * 31 + char_to_unsigned c) 0).toNat % TABLE_SIZE

/-- The loop of `main` that empties the table. -/
def initial : table_t where
  hashTable := List.replicate TABLE_SIZE none
  heap := Heap.empty

/-- Every walk along a chain visits an address at most once. -/
def table_t.fuel (t : table_t) : Nat := t.heap.next + 1

/-- The loop of `insert`, from `temp` to the last node. A node before the last
one that has the key gets the value, and `newNode` is freed, but the walk goes
on. -/
def insert_walk (key : key_t) (value : Int32) (newNode : Nat) : Nat → Heap Node → Nat → Option (Heap Node × Nat)
  | 0, _, _ => none
  | fuel + 1, heap, temp => do
    let n ← heap.get temp
    match n.next with
    | none => some (heap, temp)
    | some next =>
      if n.key = key then
        let heap ← heap.modify temp (.set_value value)
        let heap ← heap.free newNode
        insert_walk key value newNode fuel heap next
      else insert_walk key value newNode fuel heap next

def insert (key : key_t) (value : Int32) (t : table_t) : Option table_t := do
  let (newNode, heap) := t.heap.alloc { key := key, value := value, next := none }
  let head ← t.hashTable[hash key]?
  match head with
  | none => some { hashTable := t.hashTable.set (hash key) (some newNode), heap := heap }
  | some first =>
    let (heap, temp) ← insert_walk key value newNode t.fuel heap first
    let n ← heap.get temp
    if n.key = key then
      let heap ← heap.modify temp (.set_value value)
      let heap ← heap.free newNode
      some { t with heap := heap }
    else
      let heap ← heap.modify temp (.set_next (some newNode))
      some { t with heap := heap }

def search (key : key_t) (t : table_t) : Option Int32 := do
  let head ← t.hashTable[hash key]?
  match ← find_cell (t.heap.field Node.next) (t.heap.field fun n => decide (n.key = key)) t.fuel head with
  | none => some (-1)
  | some temp => t.heap.field Node.value temp

def delete (key : key_t) (t : table_t) : Option table_t := do
  let head ← t.hashTable[hash key]?
  match ← find_prev (t.heap.field Node.next) (t.heap.field fun n => decide (n.key = key)) t.fuel none head with
  | none => some t
  | some (prev, temp) =>
    let n ← t.heap.get temp
    let hashTable := if prev = none then t.hashTable.set (hash key) n.next else t.hashTable
    let heap ← t.heap.modify_if prev (.set_next n.next)
    let heap ← heap.free temp
    some { hashTable := hashTable, heap := heap }

inductive call_t where
  | insert (key : key_t) (value : Int32)
  | search (key : key_t)
  | delete (key : key_t)
  deriving DecidableEq

/-- One call. Following a pointer to a freed node is `none`, after which nothing
more is known. -/
def step (t : Option table_t) (c : call_t) : Option table_t :=
  t.bind fun t =>
    match c with
    | .insert key value => insert key value t
    | .search key => (search key t).map fun _ => t
    | .delete key => delete key t

def run (calls : List call_t) : Option table_t := calls.foldl step (some initial)

/-- The value of the last insertion of the key that no deletion of it follows. -/
def last_insert (key : key_t) (calls : List call_t) : Option Int32 :=
  calls.foldl (fun found c =>
    match c with
    | .insert k value => if k = key then some value else found
    | .search _ => found
    | .delete k => if k = key then none else found) none

/-- `search` answers as a finite map would, and every chain leads through live
nodes with distinct keys to its end. -/
structure Good (calls : List call_t) (t : table_t) : Prop where
  search_eq : ∀ key, search key t = some ((last_insert key calls).getD (-1))
  linked : ∀ (b : Nat) (head : Option Nat), t.hashTable[b]? = some head →
    ∃ xs, Chain (t.heap.field Node.next) head xs ∧ (xs.map (t.heap.field Node.key)).Nodup

/-- The keys and values in the order in which the keys were entered. -/
def enter_call (entries : List (key_t × Int32)) : call_t → List (key_t × Int32)
  | .insert key value =>
    if key ∈ entries.map Prod.fst then entries.map fun p => if p.1 = key then (key, value) else p
    else entries ++ [(key, value)]
  | .search _ => entries
  | .delete key => entries.filter fun p => decide (p.1 ≠ key)

/-- The entries of a bucket, in the order of its chain. -/
def bucket (entries : List (key_t × Int32)) (b : Nat) : List (key_t × Int32) :=
  entries.filter fun p => decide (hash p.1 = b)

/-- The key of an insertion is not in the table, or no other key of its bucket
was entered later. -/
def AtEnd (entries : List (key_t × Int32)) : call_t → Prop
  | .insert key _ => key ∈ entries.map Prod.fst → (bucket entries (hash key)).getLast?.map Prod.fst = some key
  | _ => True

instance (entries : List (key_t × Int32)) (c : call_t) : Decidable (AtEnd entries c) :=
  match c with
  | .insert key _ =>
    inferInstanceAs (Decidable
      (key ∈ entries.map Prod.fst → (bucket entries (hash key)).getLast?.map Prod.fst = some key))
  | .search _ => .isTrue trivial
  | .delete _ => .isTrue trivial

section Entries

variable {entries : List (key_t × Int32)} {key : key_t}

theorem hash_lt (key : key_t) : hash key < TABLE_SIZE := Nat.mod_lt _ (by decide)

private theorem value_of_map_update (k : key_t) (value : Int32) :
    value_of key (entries.map fun p => if p.1 = k then (k, value) else p) =
      if key = k then (value_of key entries).map fun _ => value else value_of key entries := by
  induction entries with
  | nil => simp [value_of]
  | cons p entries ih =>
    rw [List.map_cons, value_of, value_of, ih]
    by_cases hp : p.1 = k <;> by_cases hk : key = k
    · simp [hp, hk]
    · simp [hp, hk, Ne.symm hk]
    · simp [hp, hk]
    · simp [hp, hk]

private theorem value_of_filter (k : key_t) :
    value_of key (entries.filter fun p => decide (p.1 ≠ k)) = if key = k then none else value_of key entries := by
  induction entries with
  | nil => simp [value_of]
  | cons p entries ih =>
    by_cases hp : p.1 = k
    · rw [List.filter_cons_of_neg (by simpa using hp), ih, value_of]
      by_cases hk : key = k
      · simp [hk]
      · rw [if_neg hk, if_neg hk, if_neg fun h => hk (h.symm.trans hp)]
    · rw [List.filter_cons_of_pos (by simpa using hp), value_of, value_of, ih]
      by_cases hk : key = k
      · simp [hk, hp]
      · simp [hk]

/-- The entries bind each key to the value of its last insertion. -/
theorem last_insert_eq (calls : List call_t) (key : key_t) :
    last_insert key calls = value_of key (calls.foldl enter_call []) := by
  induction calls using List.reverseRecOn with
  | nil => rfl
  | append_singleton calls c ih =>
    rw [last_insert, List.foldl_append, List.foldl_append, List.foldl_cons, List.foldl_cons, List.foldl_nil,
      List.foldl_nil]
    rw [last_insert] at ih
    rw [ih]
    cases c with
    | search k => rfl
    | delete k =>
      dsimp only
      rw [enter_call, value_of_filter]
      simp only [eq_comm]
    | insert k value =>
      dsimp only
      rw [enter_call]
      by_cases hmem : k ∈ (calls.foldl enter_call []).map Prod.fst
      · rw [if_pos hmem, value_of_map_update]
        by_cases hk : k = key
        · subst k
          obtain ⟨old, hold⟩ : ∃ old, value_of key (calls.foldl enter_call []) = some old := by
            rw [← Option.ne_none_iff_exists']
            exact fun hnone => value_of_eq_none_iff.mp hnone hmem
          simp [hold]
        · simp [hk, Ne.symm hk]
      · rw [if_neg hmem, value_of_append]
        by_cases hk : k = key
        · subst k
          rw [value_of_eq_none_iff.mpr hmem]
          simp [value_of]
        · simp [hk, value_of]

/-- No key is entered twice. -/
theorem nodup_enter_call (hnodup : (entries.map Prod.fst).Nodup) (c : call_t) :
    ((enter_call entries c).map Prod.fst).Nodup := by
  cases c with
  | search k => exact hnodup
  | delete k => exact hnodup.sublist (List.filter_sublist.map _)
  | insert k value =>
    rw [enter_call]
    split
    · have hkeys : (entries.map fun p => if p.1 = k then (k, value) else p).map Prod.fst = entries.map Prod.fst := by
        rw [List.map_map]
        refine List.map_congr_left fun p _ => ?_
        by_cases hp : p.1 = k <;> simp [hp]
      rwa [hkeys]
    · next habsent =>
      rw [List.map_append]
      refine List.nodup_append.mpr ⟨hnodup, List.nodup_singleton _, ?_⟩
      rintro k' hk' _ hk rfl
      rw [List.map_singleton, List.mem_singleton] at hk
      have hk : k' = k := hk
      exact habsent (hk ▸ hk')

end Entries

end csystems.hash_table
