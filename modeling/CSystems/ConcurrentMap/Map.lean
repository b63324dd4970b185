import CSystems.Lib.CString
import CSystems.Lib.Guarded
import CSystems.Lib.Table

open clib.guarded clib.string clib.table

namespace csystems.concurrent_map

def NUM_BUCKETS : Nat := 16

/-- A C string. -/
@[ext] structure key_t where
  chars : List UInt8
  no_nul : 0 ∉ chars

instance : DecidableEq key_t := fun _ _ => decidable_of_iff _ key_t.ext_iff.symm

/-- A node: its key and its value. The links are the order of the nodes in their
bucket, where none is ever unlinked. -/
abbrev Node := key_t × Int32

def hash (key : key_t) : Fin NUM_BUCKETS :=
  ⟨(key.chars.foldl (fun (h : UInt64) c => ((h <<< 5) + h) + c.toInt8.toInt64.toUInt64) 5381).toNat % NUM_BUCKETS,
    Nat.mod_lt _ (by decide)⟩

inductive call_t where
  | hashmapInsert (key : key_t) (value : Int32)
  | hashmapLookup (key : key_t)
  deriving DecidableEq

def call_t.key : call_t → key_t
  | .hashmapInsert key _ => key
  | .hashmapLookup key => key

/-- What a call returns: nothing, or `*found` and the value. -/
inductive result_t where
  | inserted
  | looked_up (found : Bool) (value : Int32)
  deriving DecidableEq

/-- A round of the loop of `hashmapInsert`, or the part behind it. There is memory for
the new node. -/
def hashmapInsert (key : key_t) (value : Int32) (curr : Nat) (nodes : List Node) :
    List Node × (Nat ⊕ result_t) :=
  match nodes[curr]? with
  | some n =>
    if strcmp n.1.chars key.chars = 0 then (nodes.set curr (n.1, value), .inr .inserted)
    else (nodes, .inl (curr + 1))
  | none => ((key, value) :: nodes, .inr .inserted)

/-- A round of the loop of `hashmapLookup`, or the part behind it. -/
def hashmapLookup (key : key_t) (curr : Nat) (nodes : List Node) : List Node × (Nat ⊕ result_t) :=
  match nodes[curr]? with
  | some n =>
    if strcmp n.1.chars key.chars = 0 then (nodes, .inr (.looked_up true n.2))
    else (nodes, .inl (curr + 1))
  | none => (nodes, .inr (.looked_up false (-1)))

/-- Between the lock and the unlock of its bucket, a call is at node `curr`. -/
def code : Code (Fin NUM_BUCKETS) (List Node) call_t Nat result_t where
  lock_of c := hash c.key
  entry _ := 0
  run
    | .hashmapInsert key value => hashmapInsert key value
    | .hashmapLookup key => hashmapLookup key

/-- `hashmapInit`. -/
def initial : Fin NUM_BUCKETS → List Node := fun _ => []

/-- A call made alone on its bucket. -/
def effect : call_t → List Node → List Node × result_t
  | .hashmapInsert key value, nodes => (put_front key value nodes, .inserted)
  | .hashmapLookup key, nodes =>
    (nodes, match value_of key nodes with
      | some value => .looked_up true value
      | none => .looked_up false (-1))

section Loop

variable {key : key_t}

theorem strcmp_key (n : Node) : strcmp n.1.chars key.chars = 0 ↔ n.1 = key := by
  rw [strcmp_eq_zero_iff, c_str_eq_self n.1.no_nul, c_str_eq_self key.no_nul]
  obtain ⟨⟨chars, _⟩, _⟩ := n
  cases key
  simp

theorem run_other {c : call_t} {nodes : List Node} {curr : Nat} {n : Node} (hget : nodes[curr]? = some n)
    (hn : n.1 ≠ c.key) : code.run c curr nodes = (nodes, .inl (curr + 1)) := by
  cases c with
  | hashmapInsert key value =>
    have hne : n.1 ≠ key := hn
    simp [code, hashmapInsert, hget, strcmp_key, hne]
  | hashmapLookup key =>
    have hne : n.1 ≠ key := hn
    simp [code, hashmapLookup, hget, strcmp_key, hne]

theorem run_found {c : call_t} {first rest : List Node} (hfirst : c.key ∉ first.map Prod.fst) (old : Int32) :
    code.run c first.length (first ++ (c.key, old) :: rest) =
      ((effect c (first ++ (c.key, old) :: rest)).1, .inr (effect c (first ++ (c.key, old) :: rest)).2) := by
  cases c with
  | hashmapInsert key value =>
    have hreplace : replace key value (first ++ (key, old) :: rest) = some (first ++ (key, value) :: rest) :=
      replace_append_cons hfirst
    have hself : strcmp key.chars key.chars = 0 := (strcmp_key (key, old)).mpr rfl
    simp [code, hashmapInsert, hself, effect, put_front, call_t.key, hreplace]
  | hashmapLookup key =>
    have hnone : value_of key first = none := value_of_eq_none_iff.mpr hfirst
    have hself : strcmp key.chars key.chars = 0 := (strcmp_key (key, old)).mpr rfl
    simp [code, hashmapLookup, hself, effect, call_t.key, value_of_append, hnone, value_of]

theorem run_end {c : call_t} {nodes : List Node} (h : c.key ∉ nodes.map Prod.fst) :
    code.run c nodes.length nodes = ((effect c nodes).1, .inr (effect c nodes).2) := by
  cases c with
  | hashmapInsert key value =>
    have hreplace : replace key value nodes = none := replace_eq_none_iff.mpr h
    simp [code, hashmapInsert, effect, put_front, hreplace]
  | hashmapLookup key =>
    have hnone : value_of key nodes = none := value_of_eq_none_iff.mpr h
    simp [code, hashmapLookup, effect, hnone]

/-- A round that goes on changes nothing. -/
theorem eq_of_run_inl {c : call_t} {nodes nodes' : List Node} {curr next : Nat}
    (h : code.run c curr nodes = (nodes', .inl next)) : nodes' = nodes := by
  cases c with
  | hashmapInsert key value =>
    simp only [code, hashmapInsert] at h
    split at h
    · split at h <;> cases h
      rfl
    · cases h
  | hashmapLookup key =>
    simp only [code, hashmapLookup] at h
    split at h
    · split at h <;> cases h
      rfl
    · cases h

/-- The loop of a call goes on behind nodes with other keys. -/
theorem completes_from {c : call_t} (first : List Node) {rest : List Node} (hfirst : c.key ∉ first.map Prod.fst) :
    Completes code c first.length (first ++ rest) (effect c (first ++ rest)).1 (effect c (first ++ rest)).2 := by
  induction rest generalizing first with
  | nil =>
    rw [List.append_nil]
    exact .last (run_end hfirst)
  | cons n rest ih =>
    by_cases hn : n.1 = c.key
    · obtain ⟨_, old⟩ := n
      obtain rfl := hn
      exact .last (run_found hfirst old)
    · have hnot : c.key ∉ (first ++ [n]).map Prod.fst := by
        simp only [List.map_append, List.mem_append, not_or, List.map_singleton, List.mem_singleton]
        exact ⟨hfirst, fun heq => hn heq.symm⟩
      have hrest := ih (first ++ [n]) hnot
      rw [List.append_assoc, List.singleton_append, List.length_append, List.length_singleton] at hrest
      exact .next (run_other (by simp) hn) hrest

theorem code_completes (c : call_t) (nodes : List Node) :
    Completes code c (code.entry c) nodes (effect c nodes).1 (effect c nodes).2 :=
  completes_from [] (by simp)

end Loop

end csystems.concurrent_map
