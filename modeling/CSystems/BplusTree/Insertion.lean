import CSystems.BplusTree.Tree

open clib.row clib.sorted_list

namespace csystems.bplus_tree

/-- Insertion into a branch goes to the child before the first key that is not
below the inserted one. -/
theorem insert_tree_succ (key : Int32) {d : Nat} (t : branch_t (tree_t d)) (next : Nat) :
    ∃ z : Zipper Int32 (tree_t d), t.row = join z.pre z.focus z.post ∧ (∀ e ∈ z.pre, e.2 < key) ∧
      (∀ e ∈ z.post.head?, key ≤ e.1) ∧
      insert_tree key (d := d + 1) t next =
        grow_branch { addr := t.addr, row := plug z (insert_tree key z.focus next).1 }
          (insert_tree key z.focus next).2 := by
  let p : Int32 → Bool := fun k => decide (k < key)
  refine ⟨locate p t.row.head t.row.entries, ?_, ?_, ?_, rfl⟩
  · rw [join_locate]
  · intro e he
    simpa [p] using locate_pre p t.row.head t.row.entries e he
  · intro e he
    simpa [p] using locate_post p t.row.head t.row.entries e he

section Separators

variable {key : Int32} {d : Nat} {pre : List (tree_t d × Int32)} {post : List (Int32 × tree_t d)}

/-- The keys before a child are at most those of the separators before it. -/
private theorem le_key_of_mem_pre (hsorted : (pre.flatMap fun e => inorder e.1 ++ [e.2]).Pairwise (· ≤ ·))
    (hpre : ∀ e ∈ pre, e.2 < key) : ∀ x ∈ pre.flatMap fun e => inorder e.1 ++ [e.2], x ≤ key := by
  intro x hx
  obtain ⟨e, he, hxe⟩ := List.mem_flatMap.mp hx
  have hblock : (inorder e.1 ++ [e.2]).Pairwise (· ≤ ·) := by
    refine hsorted.sublist ?_
    rw [List.flatMap_def]
    exact List.sublist_flatten_of_mem (List.mem_map.mpr ⟨e, he, rfl⟩)
  have hkey : e.2 ≤ key := Int32.le_of_lt (hpre e he)
  rcases List.mem_append.mp hxe with hxe | hxe
  · exact Int32.le_trans ((List.pairwise_append.mp hblock).2.2 x hxe e.2 (by simp)) hkey
  · rwa [List.mem_singleton.mp hxe]

/-- The keys after a child are at least the separator after it. -/
private theorem key_le_of_mem_post (hsorted : (post.flatMap fun e => [e.1] ++ inorder e.2).Pairwise (· ≤ ·))
    (hpost : ∀ e ∈ post.head?, key ≤ e.1) : ∀ x ∈ post.flatMap fun e => [e.1] ++ inorder e.2, key ≤ x := by
  refine forall_of_head hsorted ?_
  intro x hx
  cases post with
  | nil => cases hx
  | cons e post =>
    obtain rfl : e.1 = x := by simpa using hx
    exact hpost e rfl

end Separators

/-- The nodes' keys stay in order, and no key but the inserted one is new. -/
theorem insert_tree_inorder (key : Int32) {d : Nat} (t : tree_t d) (next : Nat) (h : Ordered t) :
    ((insert_tree key t next).1.list (fun k => [k]) inorder).Pairwise (· ≤ ·) ∧
      ∀ x ∈ (insert_tree key t next).1.list (fun k => [k]) inorder, x = key ∨ x ∈ inorder t := by
  induction d generalizing next with
  | zero =>
    change leaf_t at t
    let keys := t.keys.orderedInsert (· ≤ ·) key
    have hsorted : keys.Pairwise (· ≤ ·) := List.Pairwise.orderedInsert key t.keys h
    have hmem : ∀ x ∈ keys, x = key ∨ x ∈ t.keys := fun x hx => (List.mem_orderedInsert (· ≤ ·)).mp hx
    rcases grow_leaf_cases { addr := t.addr, keys := keys } next with ⟨-, heq⟩ | ⟨k, rest, -, hkeys, heq⟩
    · rw [insert_tree, heq]
      exact ⟨hsorted, hmem⟩
    · dsimp only at hkeys
      rw [insert_tree, heq]
      have hlist : (keys.take MID ++ [k] ++ (k :: rest)).Pairwise (· ≤ ·) := by
        rw [hkeys] at hsorted
        rw [List.append_assoc]
        exact pairwise_separate hsorted
      refine ⟨hlist, ?_⟩
      intro x hx
      apply hmem
      rw [hkeys]
      simp only [grown_t.list, inorder, List.append_assoc, List.mem_append, List.mem_cons, List.not_mem_nil,
        or_false] at hx ⊢
      rcases hx with hx | rfl | hx
      · exact Or.inl hx
      · exact Or.inr (Or.inl rfl)
      · exact Or.inr hx
  | succ d ih =>
    change branch_t (tree_t d) at t
    obtain ⟨z, hrow, hpre, hpost, heq⟩ := insert_tree_succ key t next
    have hinorder : inorder (d := d + 1) t = (z.pre.flatMap fun e => inorder e.1 ++ [e.2]) ++ inorder z.focus ++
        z.post.flatMap fun e => [e.1] ++ inorder e.2 := by
      rw [inorder, hrow, fold_join]
    have hlist : (insert_tree key (d := d + 1) t next).1.list (fun k => [k]) inorder =
        (z.pre.flatMap fun e => inorder e.1 ++ [e.2]) ++ (insert_tree key z.focus next).1.list (fun k => [k]) inorder ++
          z.post.flatMap fun e => [e.1] ++ inorder e.2 := by
      rw [heq]
      exact (list_grow_branch _ _ _ _).trans (fold_plug _ _ _ _)
    rw [Ordered, hinorder] at h
    obtain ⟨hsorted, hmem⟩ := ih z.focus next (h.sublist (List.infix_append _ _ _).sublist)
    rw [hlist, hinorder]
    refine ⟨pairwise_replace h hsorted hmem ?_ ?_, ?_⟩
    · rw [List.append_assoc] at h
      exact le_key_of_mem_pre (h.sublist (List.sublist_append_left _ _)) hpre
    · exact key_le_of_mem_post (h.sublist (List.sublist_append_right _ _)) hpost
    · intro x hx
      simp only [List.mem_append] at hx ⊢
      rcases hx with (hx | hx) | hx
      · exact Or.inr (Or.inl (Or.inl hx))
      · rcases hmem x hx with rfl | hx
        · exact Or.inl rfl
        · exact Or.inr (Or.inl (Or.inr hx))
      · exact Or.inr (Or.inr hx)

/-- The leaves hold the inserted key besides what they held. -/
theorem insert_tree_contents (key : Int32) {d : Nat} (t : tree_t d) (next : Nat) :
    (((insert_tree key t next).1.list (fun _ => []) leaves).flatMap leaf_t.keys).Perm (key :: contents t) := by
  induction d generalizing next with
  | zero =>
    change leaf_t at t
    let keys := t.keys.orderedInsert (· ≤ ·) key
    have hperm : keys.Perm (key :: t.keys) := List.perm_orderedInsert (· ≤ ·) key t.keys
    rcases grow_leaf_cases { addr := t.addr, keys := keys } next with ⟨-, heq⟩ | ⟨k, rest, -, hkeys, heq⟩
    · rw [insert_tree, heq]
      simpa [grown_t.list, contents, leaves] using hperm
    · dsimp only at hkeys
      rw [insert_tree, heq]
      rw [hkeys] at hperm
      simpa [grown_t.list, contents, leaves] using hperm
  | succ d ih =>
    change branch_t (tree_t d) at t
    obtain ⟨z, hrow, -, -, heq⟩ := insert_tree_succ key t next
    have hlist : (insert_tree key (d := d + 1) t next).1.list (fun _ => []) leaves =
        (z.pre.flatMap fun e => leaves e.1 ++ []) ++ (insert_tree key z.focus next).1.list (fun _ => []) leaves ++
          z.post.flatMap fun e => [] ++ leaves e.2 := by
      rw [heq]
      exact (list_grow_branch _ _ _ _).trans (fold_plug _ _ _ _)
    have hcontents : contents (d := d + 1) t =
        (z.pre.flatMap fun e => leaves e.1 ++ []).flatMap leaf_t.keys ++ contents z.focus ++
          (z.post.flatMap fun e => [] ++ leaves e.2).flatMap leaf_t.keys := by
      rw [contents, leaves, hrow, fold_join, List.flatMap_append, List.flatMap_append, contents]
    rw [hlist, hcontents, List.flatMap_append, List.flatMap_append]
    refine (((ih z.focus next).append_left _).append_right _).trans ?_
    rw [List.append_assoc, List.append_assoc, List.cons_append]
    exact List.perm_middle

/-- Insertion keeps the nodes and allocates new ones from `next` on. -/
theorem insert_tree_addrs (key : Int32) {d : Nat} (t : tree_t d) (next : Nat) :
    ∃ m, (insert_tree key t next).2 = next + m ∧
      ((insert_tree key t next).1.list (fun _ => []) addrs).Perm (addrs t ++ List.range' next m) := by
  induction d generalizing next with
  | zero =>
    change leaf_t at t
    let keys := t.keys.orderedInsert (· ≤ ·) key
    rcases grow_leaf_cases { addr := t.addr, keys := keys } next with ⟨-, heq⟩ | ⟨k, rest, -, -, heq⟩
    · refine ⟨0, ?_⟩
      rw [insert_tree, heq]
      exact ⟨rfl, List.Perm.refl _⟩
    · refine ⟨1, ?_⟩
      rw [insert_tree, heq]
      exact ⟨rfl, List.Perm.refl _⟩
  | succ d ih =>
    change branch_t (tree_t d) at t
    obtain ⟨z, hrow, -, -, heq⟩ := insert_tree_succ key t next
    obtain ⟨m, hm, hperm⟩ := ih z.focus next
    let row := plug z (insert_tree key z.focus next).1
    have hrow' : (t.addr :: row.fold (fun _ => []) addrs).Perm (addrs (d := d + 1) t ++ List.range' next m) := by
      rw [fold_plug, addrs, hrow, fold_join, List.cons_append]
      refine List.Perm.cons _ ?_
      refine ((hperm.append_left _).append_right _).trans ?_
      simp only [List.append_assoc]
      refine (List.perm_append_comm.append_left _).append_left _
    rw [heq, hm]
    rcases grow_branch_cases { addr := t.addr, row := row } (next + m) with
      ⟨-, hgrow⟩ | ⟨k, c, entries, -, hentries, hgrow⟩
    · exact ⟨m, by rw [hgrow], by rw [hgrow]; exact hrow'⟩
    · refine ⟨m + 1, by rw [hgrow]; rfl, ?_⟩
      rw [hgrow, List.range'_1_concat, ← List.append_assoc]
      refine List.Perm.trans ?_ (hrow'.append_right _)
      rw [Row.fold_of_entries hentries]
      simp only [grown_t.list, addrs, List.append_nil, List.cons_append, List.append_assoc]
      refine List.Perm.cons _ (List.Perm.append_left _ ?_)
      exact List.perm_append_singleton (next + m) _ |>.symm

private theorem head_plug {τ : Type} (z : Zipper Int32 τ) (g : grown_t τ) (f : τ → Nat) (h : f g.left = f z.focus) :
    f (plug z g).head = f (join z.pre z.focus z.post).head := by
  cases hpre : z.pre with
  | nil => cases g <;> simpa [plug, hpre, join, grown_t.left] using h
  | cons e pre => cases g <;> simp [plug, hpre, join]

/-- The node at the top and the leftmost leaf stay where they are. -/
theorem insert_tree_left (key : Int32) {d : Nat} (t : tree_t d) (next : Nat) :
    root (insert_tree key t next).1.left = root t ∧ first_leaf (insert_tree key t next).1.left = first_leaf t := by
  induction d generalizing next with
  | zero =>
    change leaf_t at t
    let keys := t.keys.orderedInsert (· ≤ ·) key
    rcases grow_leaf_cases { addr := t.addr, keys := keys } next with ⟨-, heq⟩ | ⟨k, rest, -, -, heq⟩
    · rw [insert_tree, heq]
      exact ⟨rfl, rfl⟩
    · rw [insert_tree, heq]
      exact ⟨rfl, rfl⟩
  | succ d ih =>
    change branch_t (tree_t d) at t
    obtain ⟨z, hrow, -, -, heq⟩ := insert_tree_succ key t next
    let row := plug z (insert_tree key z.focus next).1
    have hhead : first_leaf row.head = first_leaf (d := d + 1) t := by
      rw [first_leaf, hrow]
      exact head_plug z _ first_leaf (ih z.focus next).2
    rw [heq]
    rcases grow_branch_cases { addr := t.addr, row := row } (insert_tree key z.focus next).2 with
      ⟨-, hgrow⟩ | ⟨k, c, entries, -, -, hgrow⟩
    · rw [hgrow]
      exact ⟨rfl, hhead⟩
    · rw [hgrow]
      exact ⟨rfl, hhead⟩

/-- What `Filled` says of a tree that may have split. -/
def grown_t.Fits (least : Nat) {d : Nat} : grown_t (tree_t d) → Prop
  | kept t => Filled least t
  | split left _ right => Filled 2 left ∧ Filled 2 right

private theorem mem_children_plug {d : Nat} {z : Zipper Int32 (tree_t d)} {g : grown_t (tree_t d)}
    (hz : ∀ c ∈ (join z.pre z.focus z.post).children, Filled 2 c) (hg : g.Fits 2) :
    ∀ c ∈ (plug z g).children, Filled 2 c := by
  rw [children_join] at hz
  intro c hc
  cases g with
  | kept t =>
    rw [plug, children_join] at hc
    rcases List.mem_append.mp hc with hc | hc
    · exact hz c (List.mem_append_left _ hc)
    · rcases List.mem_cons.mp hc with rfl | hc
      · exact hg
      · exact hz c (List.mem_append_right _ (List.mem_cons_of_mem _ hc))
  | split left upKey right =>
    rw [plug, children_join, List.map_append] at hc
    rcases List.mem_append.mp hc with hc | hc
    · rcases List.mem_append.mp hc with hc | hc
      · exact hz c (List.mem_append_left _ hc)
      · rw [List.mem_singleton.mp hc]
        exact hg.1
    · rcases List.mem_cons.mp hc with rfl | hc
      · exact hg.2
      · exact hz c (List.mem_append_right _ (List.mem_cons_of_mem _ hc))

private theorem length_keys_plug {τ : Type} (z : Zipper Int32 τ) (g : grown_t τ) :
    (join z.pre z.focus z.post).keys.length ≤ (plug z g).keys.length ∧
      (plug z g).keys.length ≤ (join z.pre z.focus z.post).keys.length + 1 := by
  cases g with
  | kept t => simp [plug]
  | split left upKey right =>
    simp [plug]
    omega

/-- No node gets too full or too empty. -/
theorem insert_tree_filled (key : Int32) {d : Nat} (t : tree_t d) (next : Nat) {least : Nat} (h : Filled least t) :
    (insert_tree key t next).1.Fits least := by
  have hmax : MAX = 3 := rfl
  have hmid : MID = 2 := rfl
  induction d generalizing next least with
  | zero =>
    change leaf_t at t
    let keys := t.keys.orderedInsert (· ≤ ·) key
    have hlength : keys.length = t.keys.length + 1 := List.orderedInsert_length _ _ _
    obtain ⟨hleast, hmost⟩ := h
    rcases grow_leaf_cases { addr := t.addr, keys := keys } next with ⟨hroom, heq⟩ | ⟨k, rest, hfull, hkeys, heq⟩
    · rw [insert_tree, heq]
      exact ⟨by change least ≤ keys.length; omega, hroom⟩
    · dsimp only at hfull hkeys
      have hsum := congrArg List.length hkeys
      rw [List.length_append, List.length_take, List.length_cons] at hsum
      rw [insert_tree, heq]
      refine ⟨⟨?_, ?_⟩, ?_, ?_⟩
      · change 2 ≤ (keys.take MID).length
        rw [List.length_take]
        omega
      · change (keys.take MID).length ≤ MAX
        rw [List.length_take]
        omega
      · change 2 ≤ rest.length + 1
        omega
      · change rest.length + 1 ≤ MAX
        omega
  | succ d ih =>
    change branch_t (tree_t d) at t
    obtain ⟨hleast, hmost, hchildren⟩ := h
    obtain ⟨z, hrow, -, -, heq⟩ := insert_tree_succ key t next
    let row := plug z (insert_tree key z.focus next).1
    have hfocus : Filled 2 z.focus := by
      apply hchildren
      rw [hrow, children_join]
      exact List.mem_append_right _ (List.mem_cons_self ..)
    have hrow' : ∀ c ∈ row.children, Filled 2 c := mem_children_plug (hrow ▸ hchildren) (ih z.focus next hfocus)
    have hlength : t.row.keys.length ≤ row.keys.length ∧ row.keys.length ≤ t.row.keys.length + 1 := by
      rw [hrow]
      exact length_keys_plug z _
    have hkeys : row.keys.length = row.entries.length := List.length_map _
    rw [heq]
    rcases grow_branch_cases { addr := t.addr, row := row } (insert_tree key z.focus next).2 with
      ⟨hroom, hgrow⟩ | ⟨k, c, entries, hfull, hentries, hgrow⟩
    · rw [hgrow]
      refine ⟨?_, ?_, hrow'⟩
      · exact Nat.le_trans hleast hlength.1
      · change row.keys.length ≤ MAX
        rw [hkeys]
        exact hroom
    · dsimp only at hfull hentries
      have hsum := congrArg List.length hentries
      rw [List.length_append, List.length_take, List.length_cons] at hsum
      have hmem : ∀ e ∈ row.entries, Filled 2 e.2 := fun e he =>
        hrow' e.2 (List.mem_cons_of_mem _ (List.mem_map_of_mem he))
      rw [hgrow]
      refine ⟨⟨?_, ?_, ?_⟩, ?_, ?_, ?_⟩
      · simp only [Row.keys, List.length_map, List.length_take]
        omega
      · simp only [Row.keys, List.length_map, List.length_take]
        omega
      · intro c hc
        rcases List.mem_cons.mp hc with rfl | hc
        · exact hrow' _ (List.mem_cons_self ..)
        · obtain ⟨e, he, rfl⟩ := List.mem_map.mp hc
          exact hmem e (List.mem_of_mem_take he)
      · simp only [Row.keys, List.length_map]
        omega
      · simp only [Row.keys, List.length_map]
        omega
      · intro c hc
        rcases List.mem_cons.mp hc with rfl | hc
        · exact hmem (k, _) (by rw [hentries]; simp)
        · obtain ⟨e, he, rfl⟩ := List.mem_map.mp hc
          exact hmem e (by rw [hentries]; simp [he])

end csystems.bplus_tree
