import CSystems.HashTable.Update

open clib.heap clib.hash_table clib.run

namespace csystems.hash_table

section Step

variable {t : table_t} {chains : Nat → List Nat} {entries : List (key_t × Int32)}

/-- The cell of a key is the last one of its chain when the key was entered last
into its bucket. -/
theorem Represents.atEnd_iff (h : Represents t chains entries) {key : key_t} {old value : Int32} {a : Nat}
    (ha : a ∈ chains (hash key)) (hcontents : t.heap.field Node.contents a = some (key, old))
    (hmem : key ∈ entries.map Prod.fst) :
    AtEnd entries (.insert key value) ↔ (chains (hash key)).getLast? = some a := by
  obtain ⟨last, hlast⟩ : ∃ last, (chains (hash key)).getLast? = some last :=
    ⟨_, List.getLast?_eq_some_getLast (List.ne_nil_of_mem ha)⟩
  have hlastmem := List.mem_of_getLast? hlast
  obtain ⟨p, -, hp⟩ := h.cell (hash_lt key) hlastmem
  have hbucket : (bucket entries (hash key)).getLast? = some p := by
    have hmap := congrArg List.getLast? (h.contents _ (hash_lt key))
    rw [List.getLast?_map, List.getLast?_map, hlast, Option.map_some, hp] at hmap
    obtain ⟨q, hq, hqp⟩ := Option.map_eq_some_iff.mp hmap.symm
    exact hq.trans hqp
  rw [AtEnd, hbucket, hlast, Option.map_some, Option.some.injEq, Option.some.injEq,
    h.eq_cell_iff ha hcontents (hash_lt key) hlastmem hp]
  exact forall_prop_of_true hmem

theorem Represents.step (h : Represents t chains entries) {c : call_t} (hend : AtEnd entries c) :
    ∃ t' chains', step (some t) c = some t' ∧ Represents t' chains' (enter_call entries c) := by
  cases c with
  | search key => exact ⟨t, chains, by simp [hash_table.step, h.search_eq], h⟩
  | delete key => exact h.delete key
  | insert key value =>
    rcases h.stored_cases key with ⟨-, habsent⟩ | ⟨a, old, -, ha, hmem, hcontents⟩
    · exact ⟨_, _, h.insert_absent value habsent, h.appended value habsent⟩
    · have hkey : key ∈ entries.map Prod.fst := List.mem_map_of_mem hmem
      have hlast := (h.atEnd_iff ha hcontents hkey).mp hend
      exact ⟨_, _, h.insert_last hlast hcontents value, h.replaced ha hcontents hkey value⟩

/-- An insertion of the key of an earlier node leaves a bucket whose chain leads
to a freed node. -/
theorem Represents.step_dangling (h : Represents t chains entries) {c : call_t} (hnot : ¬ AtEnd entries c)
    {calls : List call_t} {t' : table_t} (hstep : hash_table.step (some t) c = some t') : ¬ Good calls t' := by
  cases c with
  | search key => exact absurd trivial hnot
  | delete key => exact absurd trivial hnot
  | insert key value =>
    rcases h.stored_cases key with ⟨-, habsent⟩ | ⟨a, old, -, ha, hmem, hcontents⟩
    · exact absurd (fun hkey => absurd hkey habsent) hnot
    · obtain ⟨last, hlast⟩ : ∃ last, (chains (hash key)).getLast? = some last :=
        ⟨_, List.getLast?_eq_some_getLast (List.ne_nil_of_mem ha)⟩
      have hne : a ≠ last := by
        rintro rfl
        exact hnot ((h.atEnd_iff ha hcontents (List.mem_map_of_mem hmem)).mpr hlast)
      have hinsert : insert key value t = some t' := hstep
      rw [h.insert_inner ha hlast hne hcontents value] at hinsert
      obtain ⟨head, hhead, -⟩ := h.head_get key
      rw [← Option.some.inj hinsert]
      intro hgood
      obtain ⟨xs, hchain, -⟩ := hgood.linked (hash key) head hhead
      exact h.not_linked hlast hhead xs hchain

theorem Represents.good (h : Represents t chains entries) {calls : List call_t}
    (hentries : entries = calls.foldl enter_call []) : Good calls t := by
  refine ⟨fun key => ?_, fun b head hhead => ?_⟩
  · rw [h.search_eq, last_insert_eq, hentries]
  · have hb : b < TABLE_SIZE := h.length ▸ (List.getElem?_eq_some_iff.mp hhead).1
    exact ⟨chains b, h.chain b head hhead, h.keys_nodup hb⟩

end Step

theorem represents_initial : Represents initial (fun _ => []) [] := by
  refine ⟨rfl, ?_, fun b _ => rfl, List.nodup_nil⟩
  intro b head hget
  obtain rfl : head = none := List.eq_of_mem_replicate (List.mem_of_getElem? hget)
  exact chain_nil _

/-- The entries after the calls are those of the table. -/
def Holds (past : List call_t) (entries : List (key_t × Int32)) : Prop :=
  entries = past.foldl enter_call [] ∧ ∃ t chains, run past = some t ∧ Represents t chains entries

theorem run_append (past : List call_t) (c : call_t) : run (past ++ [c]) = step (run past) c := by
  rw [run, List.foldl_append]
  rfl

theorem Holds.step {past : List call_t} {entries : List (key_t × Int32)} {c : call_t} (h : Holds past entries)
    (hend : AtEnd entries c) : Holds (past ++ [c]) (enter_call entries c) := by
  obtain ⟨rfl, t, chains, ht, hrep⟩ := h
  obtain ⟨t', chains', hstep, hrep'⟩ := hrep.step hend
  refine ⟨by rw [List.foldl_append]; rfl, t', chains', ?_, hrep'⟩
  rw [run_append, ht, hstep]

/-- The table answers as a finite map, with every chain intact, as long as no key
is inserted again while another key of its bucket was entered later. -/
theorem table_is_finite_map_iff (calls : List call_t) :
    (∀ now, now <+: calls → ∃ t, run now = some t ∧ Good now t) ↔ AllSteps enter_call AtEnd [] calls := by
  have hinit : Holds [] [] := ⟨rfl, initial, _, rfl, represents_initial⟩
  refine @forall_prefix_iff _ _ enter_call (fun _ => True) Holds AtEnd
    (fun past _ => ∃ t, run past = some t ∧ Good past t) ?_ (fun _ _ _ _ h => h.step) ?_ [] calls [] hinit
    fun _ _ => trivial
  · rintro past entries ⟨hentries, t, chains, ht, hrep⟩
    exact ⟨t, ht, hrep.good hentries⟩
  · rintro past entries c - ⟨-, t, chains, ht, hrep⟩ hend ⟨t', ht', hgood⟩
    rw [run_append, ht] at ht'
    exact hrep.step_dangling hend ht' hgood

/-- Two keys of one bucket, and the first of them again. -/
def again : List call_t :=
  [.insert ⟨[97], by decide, by decide⟩ 1, .insert ⟨[107], by decide, by decide⟩ 2,
    .insert ⟨[97], by decide, by decide⟩ 3]

/-- A search for a third key of the bucket then follows the link to the freed
node. -/
theorem search_follows_freed_node :
    ¬ ∀ now, now <+: again → ∃ t, run now = some t ∧ Good now t := by
  intro h
  obtain ⟨t, ht, hgood⟩ := h again (List.prefix_refl _)
  have hsearch := hgood.search_eq ⟨[117], by decide, by decide⟩
  have hdangling : (run again).bind (search ⟨[117], by decide, by decide⟩) = none := by decide +kernel
  rw [ht, Option.bind_some, hsearch] at hdangling
  cases hdangling

end csystems.hash_table
