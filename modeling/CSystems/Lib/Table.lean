import Mathlib.Data.List.Basic
import Mathlib.Data.List.Infix
import Mathlib.Logic.Function.Basic

namespace clib.table

/-! Tables with a fixed number of places, where an entry is found by the first key that
matches and a full table takes no new ones. A key is entered under a name made from it. -/

variable {κ ν : Type} [DecidableEq κ]

/-- The value of the first entry with the key. -/
def value_of (k : κ) : List (κ × ν) → Option ν
  | [] => none
  | p :: table => if p.1 = k then some p.2 else value_of k table

/-- The table with a new value in the first entry with the key, if there is one. -/
def replace (k : κ) (v : ν) : List (κ × ν) → Option (List (κ × ν))
  | [] => none
  | p :: table => if p.1 = k then some ((p.1, v) :: table) else (replace k v table).map (p :: ·)

/-- The table after a value is set: in the entry with the key, or in a new one as long as
there is room. -/
def put (name : κ → κ) (capacity : Nat) (table : List (κ × ν)) (k : κ) (v : ν) : List (κ × ν) :=
  match replace k v table with
  | some table => table
  | none => if table.length < capacity then table ++ [(name k, v)] else table

/-- The keys that a table without a bound would have entered. -/
def enter (name : κ → κ) (keys : List κ) (k : κ) : List κ := if k ∈ keys then keys else keys ++ [name k]

variable {name : κ → κ} {capacity : Nat} {table table' : List (κ × ν)} {k k' : κ} {v : ν}

theorem replace_eq_none_iff : replace k v table = none ↔ k ∉ table.map Prod.fst := by
  induction table with
  | nil => simp [replace]
  | cons p table ih =>
    by_cases hk : p.1 = k
    · simp [replace, hk]
    · have hne : ¬ k = p.1 := fun h => hk h.symm
      simp [replace, hk, hne, ih]

theorem replace_keys (h : replace k v table = some table') : table'.map Prod.fst = table.map Prod.fst := by
  induction table generalizing table' with
  | nil => cases h
  | cons p table ih =>
    rw [replace] at h
    split at h
    · obtain rfl := Option.some.inj h
      rfl
    · obtain ⟨rest, hrest, rfl⟩ := Option.map_eq_some_iff.mp h
      simp [ih hrest]

theorem value_of_replace (h : replace k v table = some table') (k' : κ) :
    value_of k' table' = if k' = k then some v else value_of k' table := by
  induction table generalizing table' with
  | nil => cases h
  | cons p table ih =>
    rw [replace] at h
    split at h
    case isTrue hk =>
      obtain rfl := Option.some.inj h
      by_cases hk' : k' = k
      · simp [value_of, hk, hk']
      · have hne : ¬ k = k' := fun heq => hk' heq.symm
        simp [value_of, hk, hk', hne]
    case isFalse hk =>
      obtain ⟨rest, hrest, rfl⟩ := Option.map_eq_some_iff.mp h
      by_cases hp : p.1 = k'
      · have hk' : k' ≠ k := fun heq => hk (hp.trans heq)
        simp [value_of, hp, hk']
      · simp [value_of, hp, ih hrest]

theorem value_of_append (left right : List (κ × ν)) (k : κ) :
    value_of k (left ++ right) = (value_of k left).or (value_of k right) := by
  induction left with
  | nil => simp [value_of]
  | cons p left ih =>
    by_cases hp : p.1 = k
    · simp [value_of, hp]
    · simp [value_of, hp, ih]

theorem value_of_eq_none_iff : value_of k table = none ↔ k ∉ table.map Prod.fst := by
  induction table with
  | nil => simp [value_of]
  | cons p table ih =>
    by_cases hk : p.1 = k
    · simp [value_of, hk]
    · have hne : ¬ k = p.1 := fun h => hk h.symm
      simp [value_of, hk, hne, ih]

/-- The first entry with the key is behind entries with other keys. -/
theorem replace_append_cons {left right : List (κ × ν)} {old : ν} (hleft : k ∉ left.map Prod.fst) :
    replace k v (left ++ (k, old) :: right) = some (left ++ (k, v) :: right) := by
  induction left with
  | nil => simp [replace]
  | cons p left ih =>
    simp only [List.map_cons, List.mem_cons, not_or] at hleft
    rw [List.cons_append, replace, if_neg (Ne.symm hleft.1), ih hleft.2]
    rfl

section Front

/-- The table after a value is set, where a new entry is the first one. -/
def put_front (k : κ) (v : ν) (table : List (κ × ν)) : List (κ × ν) := (replace k v table).getD ((k, v) :: table)

theorem value_of_put_front (k' : κ) :
    value_of k' (put_front k v table) = if k' = k then some v else value_of k' table := by
  cases hreplace : replace k v table with
  | some table' => rw [put_front, hreplace, Option.getD_some, value_of_replace hreplace]
  | none =>
    rw [put_front, hreplace, Option.getD_none, value_of]
    simp only [eq_comm]

theorem put_front_keys :
    (put_front k v table).map Prod.fst =
      if k ∈ table.map Prod.fst then table.map Prod.fst else k :: table.map Prod.fst := by
  cases hreplace : replace k v table with
  | some table' =>
    have hmem : k ∈ table.map Prod.fst := by
      by_contra hnot
      rw [replace_eq_none_iff.mpr hnot] at hreplace
      cases hreplace
    rw [put_front, hreplace, Option.getD_some, if_pos hmem, replace_keys hreplace]
  | none =>
    rw [put_front, hreplace, Option.getD_none, if_neg (replace_eq_none_iff.mp hreplace), List.map_cons]

theorem put_front_nodup (h : (table.map Prod.fst).Nodup) : ((put_front k v table).map Prod.fst).Nodup := by
  rw [put_front_keys]
  split
  · exact h
  · next hnew => exact List.nodup_cons.mpr ⟨hnew, h⟩

theorem mem_keys_put_front (h : k' ∈ (put_front k v table).map Prod.fst) : k' = k ∨ k' ∈ table.map Prod.fst := by
  rw [put_front_keys] at h
  split at h
  · exact Or.inr h
  · exact List.mem_cons.mp h

end Front

variable (name) in
/-- The keys of the table are the first ones that were entered. -/
theorem put_keys {keys : List κ} (h : table.map Prod.fst = keys.take capacity) (k : κ) (v : ν) :
    (put name capacity table k v).map Prod.fst = (enter name keys k).take capacity := by
  have hlength : table.length = min capacity keys.length := by
    rw [← List.length_map Prod.fst, h, List.length_take]
  unfold put enter
  split
  case h_1 table' hreplace =>
    have hmem : k ∈ keys := by
      by_contra hnot
      have hnone : k ∉ table.map Prod.fst := fun hk => hnot (List.mem_of_mem_take (h ▸ hk))
      rw [replace_eq_none_iff.mpr hnone] at hreplace
      cases hreplace
    rw [if_pos hmem, replace_keys hreplace, h]
  case h_2 hreplace =>
    have hnone := replace_eq_none_iff.mp hreplace
    split
    case isTrue hroom =>
      have hall : keys.take capacity = keys := List.take_of_length_le (by omega)
      rw [h, hall] at hnone
      rw [if_neg hnone, List.map_append, h, hall, List.take_of_length_le]
      · rfl
      · rw [List.length_append, List.length_singleton]
        omega
    case isFalse hfull =>
      split
      · exact h
      · rw [h, List.take_append_of_le_length (by omega)]

/-- A replacement shows in the first places if the entry is one of them, and otherwise
leaves them alone. -/
theorem replace_take (h : replace k v table = some table') (n : Nat) :
    replace k v (table.take n) = some (table'.take n) ∨
      (replace k v (table.take n) = none ∧ table'.take n = table.take n ∧ n < table.length) := by
  induction table generalizing table' n with
  | nil => cases h
  | cons p table ih =>
    cases n with
    | zero => exact Or.inr ⟨rfl, rfl, by simp⟩
    | succ n =>
      rw [replace] at h
      split at h
      case isTrue hk =>
        obtain rfl := Option.some.inj h
        exact Or.inl (by simp [replace, hk])
      case isFalse hk =>
        obtain ⟨rest, hrest, rfl⟩ := Option.map_eq_some_iff.mp h
        obtain hfound | ⟨hnone, hsame, hlt⟩ := ih hrest n
        · exact Or.inl (by simp [replace, hk, hfound])
        · exact Or.inr ⟨by simp [replace, hk, hnone], by simp [hsame], by simpa using hlt⟩

/-- A table with fewer places holds the first entries of one with more. -/
theorem put_take {smaller : Nat} (hle : smaller ≤ capacity) (table : List (κ × ν)) (k : κ) (v : ν) :
    put name smaller (table.take smaller) k v = (put name capacity table k v).take smaller := by
  cases hreplace : replace k v table with
  | some table' =>
    have hlarge : put name capacity table k v = table' := by simp [put, hreplace]
    rw [hlarge]
    obtain hfound | ⟨hnone, hsame, hlt⟩ := replace_take hreplace smaller
    · simp [put, hfound]
    · have hfull : ¬ (table.take smaller).length < smaller := by
        rw [List.length_take]
        omega
      simp only [put, hnone, if_neg hfull, hsame]
  | none =>
    have hmem : k ∉ (table.take smaller).map Prod.fst := by
      intro hk
      rw [List.map_take] at hk
      exact replace_eq_none_iff.mp hreplace (List.mem_of_mem_take hk)
    simp only [put, hreplace, replace_eq_none_iff.mpr hmem, List.length_take]
    by_cases hroom : table.length < smaller
    · rw [if_pos (by omega), if_pos (by omega), List.take_of_length_le (by omega), List.take_of_length_le]
      rw [List.length_append, List.length_singleton]
      omega
    · rw [if_neg (by omega)]
      split
      · rw [List.take_append_of_le_length (by omega)]
      · rfl

/-- The first places of a table answer for a key as the whole table does exactly if they
hold the key whenever the table does. -/
theorem value_of_take_eq_iff (table : List (κ × ν)) (k : κ) (n : Nat) :
    value_of k (table.take n) = value_of k table ↔
      (k ∈ table.map Prod.fst → k ∈ (table.map Prod.fst).take n) := by
  have hsplit := value_of_append (table.take n) (table.drop n) k
  rw [List.take_append_drop] at hsplit
  rw [hsplit, ← List.map_take]
  cases hfirst : value_of k (table.take n) with
  | some v =>
    have hmem : k ∈ (table.take n).map Prod.fst := by
      by_contra hnot
      rw [value_of_eq_none_iff.mpr hnot] at hfirst
      cases hfirst
    exact iff_of_true rfl fun _ => hmem
  | none =>
    have hmem := value_of_eq_none_iff.mp hfirst
    rw [hfirst, Option.none_or] at hsplit
    rw [Option.none_or, eq_comm, ← hsplit, value_of_eq_none_iff]
    exact ⟨fun hnot hk => absurd hk hnot, fun himp hk => hmem (himp hk)⟩

/-- What a table answers after a value is set, when a key is entered as it is. -/
theorem value_of_put (hname : name k = k) (k' : κ) :
    value_of k' (put name capacity table k v) =
      if k' = k then (if k ∈ table.map Prod.fst ∨ table.length < capacity then some v else none)
      else value_of k' table := by
  unfold put
  cases hreplace : replace k v table with
  | some table' =>
    have hmem : k ∈ table.map Prod.fst := by
      by_contra hnot
      rw [replace_eq_none_iff.mpr hnot] at hreplace
      cases hreplace
    simp only [value_of_replace hreplace, hmem, true_or, if_true]
  | none =>
    have hmem := replace_eq_none_iff.mp hreplace
    have hget := value_of_eq_none_iff.mpr hmem
    dsimp only
    by_cases hroom : table.length < capacity
    · rw [if_pos hroom, value_of_append, hname]
      by_cases hk : k' = k
      · simp [hk, hget, value_of, hroom]
      · have hne : ¬ k = k' := fun h => hk h.symm
        simp [value_of, hk, hne]
    · rw [if_neg hroom]
      by_cases hk : k' = k
      · rw [if_pos hk, if_neg (by simp only [hmem, hroom, or_self, not_false_eq_true]), hk, hget]
      · rw [if_neg hk]

/-- The table has the first of the keys that were entered, each with its last value. -/
structure HasFirst (capacity : Nat) (table : List (κ × ν)) (keys : List κ) (latest : κ → Option ν) : Prop where
  first : table.map Prod.fst = keys.take capacity
  values : ∀ k ∈ keys.take capacity, value_of k table = latest k

section HasFirst

variable {keys : List κ} {latest : κ → Option ν}

theorem HasFirst.put (h : HasFirst capacity table keys latest) (hname : name k = k) (v : ν) :
    HasFirst capacity (put name capacity table k v) (enter name keys k) (Function.update latest k (some v)) := by
  have hput := put_keys name h.first k v
  refine ⟨hput, fun k' hk' => ?_⟩
  rw [← hput] at hk'
  have hfound := mt value_of_eq_none_iff.mp (not_not.mpr hk')
  rw [value_of_put hname] at hfound ⊢
  by_cases hsame : k' = k
  · rw [if_pos hsame] at hfound ⊢
    rw [hsame, Function.update_self]
    split at hfound
    case isTrue hroom => exact if_pos hroom
    case isFalse => exact absurd rfl hfound
  · rw [if_neg hsame] at hfound ⊢
    rw [Function.update_of_ne hsame]
    refine h.values k' ?_
    rw [← h.first]
    by_contra hnot
    exact hfound (value_of_eq_none_iff.mpr hnot)

theorem HasFirst.value_of (h : HasFirst capacity table keys latest) (k : κ) :
    value_of k table = if k ∈ keys.take capacity then latest k else none := by
  split
  · next hmem => exact h.values k hmem
  · next hnot =>
    rw [value_of_eq_none_iff, h.first]
    exact hnot

end HasFirst

theorem mem_enter (hname : name k = k) (keys : List κ) : k ∈ enter name keys k := by
  unfold enter
  split
  · assumption
  · simp [hname]

section Enumerated

variable {key : Nat → κ} {n : Nat}

/-- Different keys that are their own names are entered one after the other. -/
theorem foldl_enter_range (hname : ∀ i < n, name (key i) = key i)
    (hkey : ∀ i < n, ∀ j < n, key i = key j → i = j) :
    (List.range n).foldl (fun keys i => enter name keys (key i)) [] = (List.range n).map key := by
  induction n with
  | zero => rfl
  | succ n ih =>
    have hnew : key n ∉ (List.range n).map key := by
      intro hmem
      obtain ⟨i, hi, heq⟩ := List.mem_map.mp hmem
      have hlt := List.mem_range.mp hi
      have hsame := hkey i (by omega) n (by omega) heq
      omega
    have hfirst := ih (fun i hi => hname i (by omega)) fun i hi j hj => hkey i (by omega) j (by omega)
    rw [List.range_succ, List.foldl_append, hfirst, List.map_append, List.foldl_cons, List.foldl_nil]
    rw [enter, if_neg hnew, hname n (by omega), List.map_singleton]

omit [DecidableEq κ] in
theorem mem_take_range_iff (hkey : ∀ i < n, ∀ j < n, key i = key j → i = j) {i m : Nat} (hi : i < n) :
    key i ∈ ((List.range n).map key).take m ↔ i < m := by
  rw [← List.map_take, List.take_range, List.mem_map]
  constructor
  · rintro ⟨j, hj, heq⟩
    have hlt := List.mem_range.mp hj
    have hsame := hkey j (by omega) i hi heq
    omega
  · intro hm
    exact ⟨i, List.mem_range.mpr (by omega), rfl⟩

end Enumerated

end clib.table
