import CSystems.ConcurrentMap.Map

open clib.guarded clib.run clib.table

namespace csystems.concurrent_map

/-- The value that a call inserts for the key. -/
def inserts (key : key_t) : call_t → Option Int32
  | .hashmapInsert key' value => if key' = key then some value else none
  | .hashmapLookup _ => none

/-- The value of the last insertion of the key. -/
def last_insert (key : key_t) (calls : List call_t) : Option Int32 := (calls.filterMap (inserts key)).getLast?

/-- What a lookup reports when the map has this value for its key. -/
def reported : Option Int32 → result_t
  | some value => .looked_up true value
  | none => .looked_up false (-1)

/-- The buckets after calls made one after the other. -/
def contents (calls : List call_t) : Fin NUM_BUCKETS → List Node := after code.lock_of effect initial calls

/-- A bucket has one node for a key, and only keys that belong there. -/
structure Placed (b : Fin NUM_BUCKETS) (nodes : List Node) : Prop where
  distinct : (nodes.map Prod.fst).Nodup
  hash_eq : ∀ key ∈ nodes.map Prod.fst, hash key = b

section Contents

variable {c : call_t} {nodes : List Node}

theorem last_insert_append (key : key_t) (calls : List call_t) (c : call_t) :
    last_insert key (calls ++ [c]) = (inserts key c).or (last_insert key calls) := by
  rw [last_insert, List.filterMap_append]
  cases hc : inserts key c with
  | none => simp [hc, last_insert]
  | some value => simp [hc]

theorem value_of_effect (key : key_t) (c : call_t) (nodes : List Node) :
    value_of key (effect c nodes).1 = (inserts key c).or (value_of key nodes) := by
  cases c with
  | hashmapLookup key' => rfl
  | hashmapInsert key' value =>
    rw [effect, value_of_put_front, inserts]
    by_cases hkey : key = key'
    · simp [hkey]
    · simp [hkey, Ne.symm hkey]

theorem Placed.effect {b : Fin NUM_BUCKETS} (h : Placed b nodes) (hc : hash c.key = b) :
    Placed b (effect c nodes).1 := by
  cases c with
  | hashmapLookup key => exact h
  | hashmapInsert key value =>
    refine ⟨put_front_nodup h.distinct, ?_⟩
    intro key' hkey'
    rcases mem_keys_put_front hkey' with rfl | hold
    · exact hc
    · exact h.hash_eq key' hold

theorem inserts_of_ne {key : key_t} (h : hash c.key ≠ hash key) : inserts key c = none := by
  cases c with
  | hashmapLookup key' => rfl
  | hashmapInsert key' value =>
    refine if_neg ?_
    rintro rfl
    exact h rfl

theorem contents_concat_self (calls : List call_t) {b : Fin NUM_BUCKETS} (hc : hash c.key = b) :
    contents (calls ++ [c]) b = (effect c (contents calls b)).1 := by
  subst hc
  rw [contents, after_concat]
  exact Function.update_self ..

theorem contents_concat_of_ne (calls : List call_t) {b : Fin NUM_BUCKETS} (hc : hash c.key ≠ b) :
    contents (calls ++ [c]) b = contents calls b := by
  rw [contents, after_concat]
  exact Function.update_of_ne (Ne.symm hc) _ _

/-- The bucket of a key has the value of its last insertion. -/
theorem value_of_contents (key : key_t) (calls : List call_t) :
    value_of key (contents calls (hash key)) = last_insert key calls := by
  induction calls using List.reverseRecOn with
  | nil => rfl
  | append_singleton calls c ih =>
    rw [last_insert_append, ← ih]
    by_cases hc : hash c.key = hash key
    · rw [contents_concat_self calls hc, value_of_effect]
    · rw [contents_concat_of_ne calls hc, inserts_of_ne hc, Option.none_or]

theorem contents_placed (calls : List call_t) (b : Fin NUM_BUCKETS) : Placed b (contents calls b) := by
  induction calls using List.reverseRecOn with
  | nil => exact ⟨List.nodup_nil, by simp [contents, after, initial]⟩
  | append_singleton calls c ih =>
    by_cases hc : hash c.key = b
    · rw [contents_concat_self calls hc]
      exact ih.effect hc
    · rw [contents_concat_of_ne calls hc]
      exact ih

theorem effect_lookup (key : key_t) (nodes : List Node) :
    (effect (.hashmapLookup key) nodes).2 = reported (value_of key nodes) := by
  rw [effect]
  cases value_of key nodes <;> rfl

/-- Up to its end a call leaves its bucket as it is. -/
theorem eq_of_reaches {nodes' : List Node} {curr : Nat} (h : Reaches code c nodes curr nodes') : nodes' = nodes := by
  induction h with
  | entry => rfl
  | next h hrun ih => rw [eq_of_run_inl hrun, ih]

end Contents

/-- However the steps of the threads interleave, a lookup reports the value of the last
insertion of its key that took the lock of the bucket before it, every bucket has one
node for a key and only keys that belong there, and steps and calls on different
buckets commute. -/
theorem hashmap_is_map {θ : Type} [DecidableEq θ] {events : List (Event θ call_t)}
    {s : State (Fin NUM_BUCKETS) θ (List Node) call_t Nat result_t}
    (hrun : steps (step code) (start initial) events = some s) :
    (∀ t key result, s.thread t = .returned (.hashmapLookup key) result →
      ∃ first rest, events = first ++ .lock t (.hashmapLookup key) :: rest ∧ (∀ c, .lock t c ∉ rest) ∧
        result = reported (last_insert key (taken first))) ∧
    (∀ b, Placed b (s.object b)) ∧
    (∀ e e' : Event θ call_t, e.actor ≠ e'.actor →
      (∀ b, lock_used code s e = some b → lock_used code s e' ≠ some b) →
      (step code s e).bind (step code · e') = (step code s e').bind (step code · e)) ∧
    ∀ (map : Fin NUM_BUCKETS → List Node) (c d : call_t), hash c.key ≠ hash d.key →
      (perform code.lock_of effect (perform code.lock_of effect map c).1 d).1 =
        (perform code.lock_of effect (perform code.lock_of effect map d).1 c).1 ∧
      (perform code.lock_of effect (perform code.lock_of effect map c).1 d).2 =
        (perform code.lock_of effect map d).2 := by
  have hlinear : Linear code effect initial events s := linear_of_steps code_completes hrun
  refine ⟨?_, ?_, fun e e' => step_commute, fun map c d hne => ?_⟩
  · intro t key result ht
    have hfollows := hlinear.thread t
    rw [ht] at hfollows
    obtain ⟨before, later, ⟨first, rest, hevents, rfl, rfl, hlast⟩, hresult⟩ := hfollows
    refine ⟨first, rest, hevents, hlast, ?_⟩
    rw [← hresult, effect_lookup]
    exact congrArg reported (value_of_contents key (taken first))
  · intro b
    obtain ⟨calls, heq | ⟨c, curr, hreaches⟩⟩ := hlinear.object_eq b
    · exact heq ▸ contents_placed calls b
    · exact eq_of_reaches hreaches ▸ contents_placed calls b
  · exact perform_commute map hne

/-- One thread looks a key up, and finds it, after another one has inserted it, while
that one is inserting a key of another bucket. -/
def overlapping : List (Event Bool call_t) :=
  [.lock false (.hashmapInsert ⟨[113], by decide⟩ 5), .run false, .run false,
    .lock false (.hashmapInsert ⟨[114], by decide⟩ 7), .lock true (.hashmapLookup ⟨[113], by decide⟩), .run true,
    .run false, .run true, .run false]

theorem hashmap_is_map_overlapping :
    ∃ s, steps (step code) (start initial) overlapping = some s ∧
      s.thread true = .returned (.hashmapLookup ⟨[113], by decide⟩) (.looked_up true 5) ∧
      ∀ b, Placed b (s.object b) := by
  have hsome : (steps (step code) (start initial) overlapping).isSome = true := by decide
  obtain ⟨s, hs⟩ := Option.isSome_iff_exists.mp hsome
  obtain ⟨-, hplaced, -⟩ := hashmap_is_map hs
  refine ⟨s, hs, ?_, hplaced⟩
  obtain rfl := Option.some.inj hs
  rfl

end csystems.concurrent_map
