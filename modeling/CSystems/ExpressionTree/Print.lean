import CSystems.Lib.BinaryTree
import CSystems.Lib.CString
import CSystems.Lib.Token

open clib.binary_tree clib.string clib.token

namespace csystems.expression_tree

/-- A node with the string in its `data`, or `NULL`. -/
abbrev Node := BinaryTree (CStr 10)

/-- A leaf with the string `data`; `none` where `strcpy` writes behind the array. -/
def createNode (data : List UInt8) : Option Node :=
  if h : (c_str data).length < 10 then
    some (.node ⟨c_str data, h, fun hmem => ne_zero_of_mem_c_str hmem rfl⟩ .nil .nil)
  else none

/-- Every string that fits can be the string of a node. -/
theorem createNode_chars (data : CStr 10) : createNode data.chars = some (.node data .nil .nil) := by
  have hstr : c_str data.chars = data.chars := c_str_eq_self data.no_nul
  have hfits : (c_str data.chars).length < 10 := by
    rw [hstr]
    exact data.length_lt
  rw [createNode, dif_pos hfits]
  congr

def space : UInt8 := 32
def opening : UInt8 := 40
def closing : UInt8 := 41

/-- The text that `inorder` prints. -/
def inorder : Node → List UInt8
  | .nil => []
  | .node data left right =>
    (if left ≠ .nil then [opening] else []) ++ inorder left ++ (space :: data.chars ++ [space]) ++ inorder right ++
      if right ≠ .nil then [closing] else []

/-- No `data` contains a space. -/
def Spaceless (root : Node) : Prop := ∀ data ∈ in_order root, space ∉ data.chars

instance (root : Node) : Decidable (Spaceless root) := inferInstanceAs (Decidable (∀ _ ∈ _, _))

variable {data : CStr 10} {left right : Node}

theorem Spaceless.of_node (h : Spaceless (.node data left right)) :
    Spaceless left ∧ space ∉ data.chars ∧ Spaceless right := by
  refine ⟨fun d hd => h d ?_, h data ?_, fun d hd => h d ?_⟩
  · exact List.mem_append_left _ hd
  · exact List.mem_append_right _ List.mem_cons_self
  · exact List.mem_append_right _ (List.mem_cons_of_mem _ hd)

theorem inorder_leaf_append (data : CStr 10) (rest : List UInt8) :
    inorder (.node data .nil .nil) ++ rest = space :: (data.chars ++ space :: rest) := by
  simp [inorder]

theorem inorder_node_append (hleft : left ≠ .nil) (hright : right ≠ .nil) (data : CStr 10) (rest : List UInt8) :
    inorder (.node data left right) ++ rest =
      opening :: (inorder left ++ space :: (data.chars ++ space :: (inorder right ++ closing :: rest))) := by
  simp [inorder, hleft, hright]

/-- The text of a tree ends by itself, whatever is printed after it. -/
theorem inorder_append_inj {t t' : Node} {rest rest' : List UInt8} (hne : t ≠ .nil) (hne' : t' ≠ .nil)
    (hfull : Full t) (hfull' : Full t') (hspace : Spaceless t) (hspace' : Spaceless t')
    (h : inorder t ++ rest = inorder t' ++ rest') : t = t' ∧ rest = rest' := by
  induction t generalizing t' rest rest' with
  | nil => exact absurd rfl hne
  | node data left right ihl ihr =>
    obtain _ | ⟨data', left', right'⟩ := t'
    · exact absurd rfl hne'
    obtain ⟨hboth, hl, hr⟩ := hfull
    obtain ⟨hboth', hl', hr'⟩ := hfull'
    obtain ⟨hsl, hdata, hsr⟩ := hspace.of_node
    obtain ⟨hsl', hdata', hsr'⟩ := hspace'.of_node
    -- the first character tells a leaf from an inner node
    by_cases hleft : left = .nil <;> by_cases hleft' : left' = .nil
    · obtain rfl := hboth.mp hleft
      obtain rfl := hboth'.mp hleft'
      subst hleft hleft'
      rw [inorder_leaf_append, inorder_leaf_append] at h
      obtain ⟨hchars, hrest⟩ := word_inj hdata hdata' (List.cons.inj h).2
      exact ⟨by rw [CStr.eq_of_chars hchars], hrest⟩
    · obtain rfl := hboth.mp hleft
      subst hleft
      rw [inorder_leaf_append, inorder_node_append hleft' (fun hnil => hleft' (hboth'.mpr hnil))] at h
      exact absurd (List.cons.inj h).1 (by decide)
    · obtain rfl := hboth'.mp hleft'
      subst hleft'
      rw [inorder_leaf_append, inorder_node_append hleft (fun hnil => hleft (hboth.mpr hnil))] at h
      exact absurd (List.cons.inj h).1 (by decide)
    · have hright : right ≠ .nil := fun hnil => hleft (hboth.mpr hnil)
      have hright' : right' ≠ .nil := fun hnil => hleft' (hboth'.mpr hnil)
      rw [inorder_node_append hleft hright, inorder_node_append hleft' hright'] at h
      obtain ⟨hlefts, hword⟩ := ihl hleft hleft' hl hl' hsl hsl' (List.cons.inj h).2
      obtain ⟨hchars, htail⟩ := word_inj hdata hdata' (List.cons.inj hword).2
      obtain ⟨hrights, hclosing⟩ := ihr hright hright' hr hr' hsr hsr' htail
      exact ⟨by rw [hlefts, CStr.eq_of_chars hchars, hrights], (List.cons.inj hclosing).2⟩

theorem inorder_ne_nil {t : Node} (h : t ≠ .nil) : inorder t ≠ [] := by
  cases t with
  | nil => exact absurd rfl h
  | node data left right => simp [inorder]

/-- The printed expression determines the tree. -/
theorem inorder_inj {t t' : Node} (hfull : Full t) (hfull' : Full t') (hspace : Spaceless t) (hspace' : Spaceless t')
    (h : inorder t = inorder t') : t = t' := by
  by_cases hne : t = .nil <;> by_cases hne' : t' = .nil
  · rw [hne, hne']
  · rw [hne] at h
    exact absurd h.symm (inorder_ne_nil hne')
  · rw [hne'] at h
    exact absurd h (inorder_ne_nil hne)
  · have hnil : inorder t ++ [] = inorder t' ++ [] := by rw [h]
    exact (inorder_append_inj hne hne' hfull hfull' hspace hspace' hnil).1

/-- The tree of `1+2`. -/
def one_plus_two : Node :=
  .node ⟨[43], by decide, by decide⟩ (.node ⟨[49], by decide, by decide⟩ .nil .nil)
    (.node ⟨[50], by decide, by decide⟩ .nil .nil)

theorem inorder_inj_one_plus_two :
    inorder one_plus_two = [40, 32, 49, 32, 32, 43, 32, 32, 50, 32, 41] ∧ one_plus_two = one_plus_two := by
  have hfull : Full one_plus_two := ⟨by simp, ⟨by simp, trivial, trivial⟩, ⟨by simp, trivial, trivial⟩⟩
  exact ⟨by decide, inorder_inj hfull hfull (by decide) (by decide) rfl⟩

end csystems.expression_tree
