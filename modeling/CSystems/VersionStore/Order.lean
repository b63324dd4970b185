import CSystems.VersionStore.Steps

open clib.string

namespace csystems.version_store

/-- The version that the call at a place of the run creates. -/
def written_at (events : List event_t) (i : Nat) : Option Version := do
  let e ← events[i]?
  let (h, _, value) ← e.call.written
  some { value := value, timestamp := e.now, writer := h }

/-- The places of the calls that created the versions of the key, followed
through one more call. -/
def track (key : key_t) (s : globals_t × List Nat) (e : event_t × Nat) : globals_t × List Nat :=
  (step s.1 e.1, (pushed s.1 e.1 key).map (fun _ => e.2) ++ s.2.drop (popped s.1 e.1 key))

/-- The places in the run of the calls that created the versions of the key
which are still in the store, the one of the head first. -/
def present (key : key_t) (events : List event_t) : List Nat :=
  (events.zipIdx.foldl (track key) (initial, [])).2

section Keys

variable {store : List KVNode} {key : key_t}

private theorem keys_get_node (hnodup : (store.map KVNode.key).Nodup) :
    ((get_node store key).map KVNode.key).Nodup := by
  unfold get_node
  split
  · exact hnodup
  · next habsent =>
    rw [List.map_cons, List.nodup_cons]
    refine ⟨?_, hnodup⟩
    intro hmem
    obtain ⟨node, hnode, hkey⟩ := List.mem_map.mp hmem
    exact habsent (List.any_eq_true.mpr ⟨node, hnode, by simpa using hkey⟩)

private theorem keys_update (f : List Version → List Version) (hnodup : (store.map KVNode.key).Nodup) :
    ((modify_node f key (get_node store key)).map KVNode.key).Nodup := by
  rw [map_key_modify_node]
  exact keys_get_node hnodup

private theorem keys_pops (ops : List Log) (hnodup : (store.map KVNode.key).Nodup) :
    ((ops.foldl (fun store op => modify_node List.tail op.key (get_node store op.key)) store).map
      KVNode.key).Nodup := by
  induction ops generalizing store with
  | nil => exact hnodup
  | cons op ops ih => exact ih (keys_update List.tail hnodup)

private theorem keys_step {g : globals_t} (hnodup : (g.store.map KVNode.key).Nodup) (e : event_t) :
    ((step g e).store.map KVNode.key).Nodup := by
  unfold step
  cases e.call with
  | begin_transaction => exact hnodup
  | transact h call =>
    cases htx : g.transaction h with
    | none => simpa only [htx] using hnodup
    | some tx =>
      simp only [htx]
      cases call with
      | kv_get k => exact keys_get_node hnodup
      | kv_set k value => exact keys_update _ hnodup
      | kv_delete k => exact keys_update _ hnodup
      | commit => exact hnodup
      | rollback => exact keys_pops _ hnodup

/-- Every key has at most one node. -/
theorem keys_run (events : List event_t) : ((run events).store.map KVNode.key).Nodup := by
  induction events using List.reverseRecOn with
  | nil => exact List.nodup_nil
  | append_singleton events e ih =>
    rw [run_append]
    exact keys_step ih e

end Keys

section Present

variable {events : List event_t} {key : key_t}

private theorem track_fst : (events.zipIdx.foldl (track key) (initial, [])).1 = run events := by
  induction events using List.reverseRecOn with
  | nil => rfl
  | append_singleton events e ih => simp [List.zipIdx_append, track, ih, run_append]

theorem present_append (e : event_t) :
    present key (events ++ [e]) =
      (pushed (run events) e key).map (fun _ => events.length) ++
        (present key events).drop (popped (run events) e key) := by
  simp [present, List.zipIdx_append, track, track_fst]

/-- The places are in the run, the later ones first. -/
theorem present_sorted : (present key events).Pairwise (· > ·) ∧ ∀ i ∈ present key events, i < events.length := by
  induction events using List.reverseRecOn with
  | nil => exact ⟨List.Pairwise.nil, by simp [present]⟩
  | append_singleton events e ih =>
    obtain ⟨hsorted, hlt⟩ := ih
    have hrest : ∀ i ∈ (present key events).drop (popped (run events) e key), i < events.length :=
      fun i hi => hlt i (List.mem_of_mem_drop hi)
    have hlast : ((pushed (run events) e key).map fun _ => events.length).Pairwise (· > ·) := by
      unfold pushed
      split
      · exact List.Pairwise.nil
      · split <;> simp
    rw [present_append]
    refine ⟨List.pairwise_append.mpr ⟨hlast, hsorted.drop, ?_⟩, ?_⟩
    · intro i hi j hj
      obtain ⟨_, _, rfl⟩ := List.mem_map.mp hi
      exact hrest j hj
    · intro i hi
      rw [List.length_append, List.length_singleton]
      rcases List.mem_append.mp hi with hi | hi
      · obtain ⟨_, _, rfl⟩ := List.mem_map.mp hi
        omega
      · have := hrest i hi
        omega

private theorem written_at_append {i : Nat} (hi : i < events.length) (e : event_t) :
    written_at (events ++ [e]) i = written_at events i := by
  rw [written_at, written_at, List.getElem?_append_left hi]

private theorem written_at_pushed {g : globals_t} {e : event_t} :
    (pushed g e key).map (fun _ => written_at (events ++ [e]) events.length) = (pushed g e key).map some := by
  apply List.map_congr_left
  intro ver hver
  obtain ⟨tx, -, hwritten, hnow⟩ := mem_pushed hver
  simp [written_at, hwritten, ← hnow]

/-- The versions in the store are those the calls at these places created. -/
theorem versions_of_run (events : List event_t) (key : key_t) :
    (present key events).map (written_at events) = (versions_of (run events).store key).map some := by
  induction events using List.reverseRecOn with
  | nil => rfl
  | append_singleton events e ih =>
    have hold : (present key events).map (written_at (events ++ [e])) =
        (present key events).map (written_at events) :=
      List.map_congr_left fun i hi => written_at_append (present_sorted.2 i hi) e
    rw [present_append, run_append, versions_of_step_eq, List.map_append, List.map_append, List.map_map,
      List.map_drop, hold, ih, List.map_drop]
    congr 1
    exact written_at_pushed

private theorem written_at_eq_some {i : Nat} {ver : Version} (h : written_at events i = some ver) :
    ∃ e, events[i]? = some e ∧ ver.timestamp = e.now := by
  unfold written_at at h
  obtain ⟨e, he, h⟩ := Option.bind_eq_some_iff.mp h
  obtain ⟨call, -, h⟩ := Option.bind_eq_some_iff.mp h
  exact ⟨e, he, by rw [← Option.some.inj h]⟩

private theorem timestamp_le (hclock : ClockMonotone events) {i j : Nat} (hij : i > j) {newer older : Version}
    (hnewer : written_at events i = some newer) (holder : written_at events j = some older) :
    older.timestamp ≤ newer.timestamp := by
  obtain ⟨e, he, hnow⟩ := written_at_eq_some hnewer
  obtain ⟨e', he', hnow'⟩ := written_at_eq_some holder
  obtain ⟨hi, rfl⟩ := List.getElem?_eq_some_iff.mp he
  obtain ⟨hj, rfl⟩ := List.getElem?_eq_some_iff.mp he'
  rw [hnow, hnow']
  exact List.pairwise_iff_getElem.mp hclock j i hj hi hij

/-- The versions of a key are ordered by time, the newest at the head. -/
theorem versions_sorted (hclock : ClockMonotone events) (key : key_t) :
    (versions_of (run events).store key).Pairwise fun newer older => older.timestamp ≤ newer.timestamp := by
  have hplaces : ((present key events).map (written_at events)).Pairwise
      fun a b => ∀ newer older, a = some newer → b = some older → older.timestamp ≤ newer.timestamp := by
    rw [List.pairwise_map]
    exact present_sorted.1.imp fun hij newer older hnewer holder => timestamp_le hclock hij hnewer holder
  rw [versions_of_run, List.pairwise_map] at hplaces
  exact hplaces.imp fun h => h _ _ rfl rfl

/-- A version was created not later than the last call. -/
theorem timestamp_le_of_mem {now : Int64} (hnow : ∀ e ∈ events, e.now ≤ now) {ver : Version}
    (hver : ver ∈ versions_of (run events).store key) : ver.timestamp ≤ now := by
  have hmem : some ver ∈ (present key events).map (written_at events) := by
    rw [versions_of_run]
    exact List.mem_map_of_mem hver
  obtain ⟨i, -, hi⟩ := List.mem_map.mp hmem
  obtain ⟨e, he, htime⟩ := written_at_eq_some hi
  rw [htime]
  exact hnow e (List.mem_of_getElem? he)

end Present

/-- The versions `kv_get` looks for. -/
def Visible (tx : Transaction) (ver : Version) : Prop := ver.timestamp ≤ tx.start_time ∧ ver.value ≠ empty_value

/-- Where the elements come from decreasing places, `find?` gives the one of
the greatest place that passes. -/
private theorem find_eq_some_iff {α : Type} {f : Nat → Option α} {p : α → Bool} {places : List Nat} {xs : List α}
    {x : α} (hsorted : places.Pairwise (· > ·)) (hmap : places.map f = xs.map some) :
    xs.find? p = some x ↔
      ∃ i ∈ places, f i = some x ∧ p x = true ∧ ∀ j ∈ places, ∀ y, f j = some y → p y = true → j ≤ i := by
  induction places generalizing xs with
  | nil =>
    obtain rfl : xs = [] := by simpa using hmap.symm
    simp
  | cons i places ih =>
    obtain ⟨x', xs', rfl, hi, hrest⟩ : ∃ x' xs', xs = x' :: xs' ∧ f i = some x' ∧ places.map f = xs'.map some := by
      cases xs with
      | nil => cases hmap
      | cons x' xs' =>
        obtain ⟨hi, hrest⟩ := List.cons.inj hmap
        exact ⟨x', xs', rfl, hi, hrest⟩
    obtain ⟨hgt, hsorted⟩ := List.pairwise_cons.mp hsorted
    by_cases hp : p x' = true
    · rw [List.find?_cons_of_pos hp]
      constructor
      · intro heq
        obtain rfl := Option.some.inj heq
        refine ⟨i, List.mem_cons_self, hi, hp, ?_⟩
        intro j hj _ _ _
        rcases List.mem_cons.mp hj with rfl | hj
        · exact Nat.le_refl _
        · exact Nat.le_of_lt (hgt j hj)
      · rintro ⟨j, hj, hfj, -, hmax⟩
        have hle := hmax i List.mem_cons_self x' hi hp
        rcases List.mem_cons.mp hj with rfl | hj
        · rw [← hi, hfj]
        · have hlt := hgt j hj
          omega
    · rw [List.find?_cons_of_neg hp, ih hsorted hrest]
      constructor
      · rintro ⟨j, hj, hfj, hpx, hmax⟩
        refine ⟨j, List.mem_cons_of_mem _ hj, hfj, hpx, ?_⟩
        intro k hk y hfk hpy
        rcases List.mem_cons.mp hk with rfl | hk
        · rw [hi] at hfk
          obtain rfl := Option.some.inj hfk
          exact absurd hpy hp
        · exact hmax k hk y hfk hpy
      · rintro ⟨j, hj, hfj, hpx, hmax⟩
        rcases List.mem_cons.mp hj with rfl | hj
        · rw [hi] at hfj
          obtain rfl := Option.some.inj hfj
          exact absurd hpx hp
        · exact ⟨j, hj, hfj, hpx, fun k hk => hmax k (List.mem_cons_of_mem _ hk)⟩

/-- The first node of a key that has one node. -/
theorem versions_of_mem {store : List KVNode} (hnodup : (store.map KVNode.key).Nodup) {node : KVNode}
    (hnode : node ∈ store) : versions_of store node.key = node.versions := by
  induction store with
  | nil => cases hnode
  | cons first store ih =>
    rw [List.map_cons, List.nodup_cons] at hnodup
    rcases List.mem_cons.mp hnode with rfl | hnode
    · simp [versions_of]
    · have hne : ¬ first.key = node.key := by
        intro heq
        exact hnodup.1 (heq ▸ List.mem_map_of_mem hnode)
      rw [versions_of, List.find?_cons_of_neg (by simpa using hne)]
      exact ih hnodup.2 hnode

/-- A version is written, another one written and rolled back. -/
def popped_head : List event_t :=
  [⟨7, .begin_transaction⟩, ⟨7, .transact 0 (.kv_set key_x value_100)⟩, ⟨7, .transact 0 .commit⟩,
    ⟨8, .begin_transaction⟩, ⟨8, .transact 1 (.kv_delete key_x)⟩, ⟨9, .transact 1 .rollback⟩]

end csystems.version_store
