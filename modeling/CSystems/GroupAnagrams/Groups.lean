import CSystems.GroupAnagrams.Keys
import CSystems.Lib.Grouping
import CSystems.Lib.Run

open clib.array clib.string clib.format clib.tag clib.grouping clib.run

namespace csystems.group_anagrams

def TABLE_SIZE : Nat := 10007

/-- An entry of the table. Words are pointers of type `α`. -/
structure Entry (α : Type) where
  key : List UInt8
  words : List α
  count : Nat

def hash (str : List UInt8) : Nat :=
  ((c_str str).foldl (fun h c => h * 131 + char_to_unsigned c) 0 % UInt32.ofNat TABLE_SIZE).toNat

section Program

variable {α : Type} (text : α → List UInt8)

/-- The walk along a chain; `none` if no entry has the key. -/
def add_word (key : List UInt8) (word : α) : List (Entry α) → Option (List (Entry α))
  | [] => none
  | curr :: rest =>
    if strcmp curr.key key = 0 then
      some ({ curr with words := word :: curr.words, count := curr.count + 1 } :: rest)
    else (add_word key word rest).map (curr :: ·)

/-- The word enters the entry with its key, or a new one in front of the chain. -/
def insert (hashTable : List (List (Entry α))) (word : α) : Option (List (List (Entry α))) := do
  let key ← generateKey (text word)
  let idx := hash key
  let chain ← hashTable[idx]?
  some (hashTable.set idx ((add_word key word chain).getD ({ key, words := [word], count := 1 } :: chain)))

structure groups_t (α : Type) where
  returnColumnSizes : Slots Nat
  result : Slots (Slots α)
  g : Nat

/-- The loop over the words of an entry. -/
def copy_words : List α → Nat → Slots α → Option (Slots α)
  | [], _, row => some row
  | w :: words, j, row => do
    let row ← write row j w
    copy_words words (j + 1) row

def copy_entry (s : groups_t α) (curr : Entry α) : Option (groups_t α) := do
  let returnColumnSizes ← write s.returnColumnSizes s.g curr.count
  let row ← copy_words curr.words 0 (uninit curr.count)
  let result ← write s.result s.g row
  some { returnColumnSizes, result, g := s.g + 1 }

/-- The array returned, `*returnSize` and `*returnColumnSizes`; `none` if an access
is out of bounds or an `int` overflows. -/
def groupAnagrams (strs : List α) : Option (Slots (Slots α) × Nat × Slots Nat) := do
  let hashTable ← strs.foldlM (insert text) (List.replicate TABLE_SIZE [])
  let groups := hashTable.foldl (fun groups chain => chain.foldl (fun groups _ => groups + 1) groups) 0
  let s ← hashTable.foldlM (fun s chain => chain.foldlM copy_entry s)
    { returnColumnSizes := uninit groups, result := uninit groups, g := 0 }
  some (s.result, groups, s.returnColumnSizes)

/-- The arrays that hold the groups, with their number and their lengths. -/
def arrays (groups : List (List α)) : Slots (Slots α) × Nat × Slots Nat :=
  (groups.map fun group => some (group.map some), groups.length, groups.map fun group => some group.length)

/-- The words of an array in groups: each place of the array has its word in one
group, once, no group is empty, and words are in one group exactly if they are
anagrams of each other. -/
structure AnagramGroups (strs : List α) (groups : List (List α)) : Prop where
  members : groups.flatten.Perm strs
  inhabited : ∀ group ∈ groups, group ≠ []
  together : ∀ group ∈ groups, ∀ v ∈ group, ∀ w ∈ group, (text v).Perm (text w)
  apart : groups.Pairwise fun g g' => ∀ v ∈ g, ∀ w ∈ g', ¬ (text v).Perm (text w)

end Program

theorem hash_lt (str : List UInt8) : hash str < TABLE_SIZE := by
  rw [hash, UInt32.toNat_mod]
  exact Nat.mod_lt _ (by decide)

section Table

variable {α : Type} {text : α → List UInt8} {key : List UInt8} {word : α} {chain : List (Entry α)}

/-- An entry as the group of a key. -/
def Entry.group (e : Entry α) : List UInt8 × List α := (e.key, e.words)

theorem add_word_eq (word : α) (hkey : 0 ∉ key) (hchain : ∀ e ∈ chain, 0 ∉ e.key) :
    (key ∉ chain.map Entry.key ∧ add_word key word chain = none) ∨
      ∃ front e rest, chain = front ++ e :: rest ∧ e.key = key ∧ add_word key word chain =
        some (front ++ { e with words := word :: e.words, count := e.count + 1 } :: rest) := by
  induction chain with
  | nil => exact Or.inl ⟨by simp, rfl⟩
  | cons e chain ih =>
    have hequal : strcmp e.key key = 0 ↔ e.key = key := by
      rw [strcmp_eq_zero_iff, c_str_eq_self hkey, c_str_eq_self (hchain e List.mem_cons_self)]
    by_cases he : e.key = key
    · exact Or.inr ⟨[], e, chain, rfl, he, if_pos (hequal.mpr he)⟩
    · have hrest : add_word key word (e :: chain) = (add_word key word chain).map (e :: ·) :=
        if_neg (mt hequal.mp he)
      obtain ⟨hnew, hnone⟩ | ⟨front, d, rest, rfl, hd, hsome⟩ := ih fun d hd => hchain d (List.mem_cons_of_mem e hd)
      · refine Or.inl ⟨?_, by rw [hrest, hnone, Option.map_none]⟩
        rw [List.map_cons, List.mem_cons]
        rintro (heq | hmem)
        · exact he heq.symm
        · exact hnew hmem
      · exact Or.inr ⟨e :: front, d, rest, rfl, hd, by rw [hrest, hsome, Option.map_some, List.cons_append]⟩

/-- The table holds the words in groups of one key, in the chains of the keys. -/
structure Stores (text : α → List UInt8) (words : List α) (hashTable : List (List (Entry α))) : Prop where
  length : hashTable.length = TABLE_SIZE
  hashed : ∀ b chain, hashTable[b]? = some chain → ∀ e ∈ chain, hash e.key = b
  counted : ∀ e ∈ hashTable.flatten, e.count = e.words.length
  grouped : Grouped (fun w => letter_key (text w)) words (hashTable.flatten.map Entry.group)

variable {words : List α} {hashTable : List (List (Entry α))} {idx : Nat}

theorem Stores.zero_notMem_key (h : Stores text words hashTable) {e : Entry α} (he : e ∈ hashTable.flatten) :
    0 ∉ e.key := by
  obtain ⟨w, -, hkey⟩ := h.grouped.exists_key (List.mem_map_of_mem he)
  have hkey : letter_key (text w) = e.key := hkey
  rw [← hkey]
  exact zero_notMem_letter_key

/-- A key that is not in its own chain is in none. -/
theorem Stores.key_notMem (h : Stores text words hashTable) (hget : hashTable[hash key]? = some chain)
    (hnew : key ∉ chain.map Entry.key) : key ∉ (hashTable.flatten.map Entry.group).map Prod.fst := by
  rw [List.map_map]
  intro hmem
  obtain ⟨e, he, hkey⟩ := List.mem_map.mp hmem
  have hkey : e.key = key := hkey
  obtain ⟨other, hother, he⟩ := List.mem_flatten.mp he
  obtain ⟨b, hb⟩ := List.mem_iff_getElem?.mp hother
  have hhash := h.hashed b other hb e he
  rw [hkey] at hhash
  rw [← hhash, hget, Option.some_inj] at hb
  subst hb
  exact hnew (List.mem_map.mpr ⟨e, he, hkey⟩)

/-- The other chains keep their entries when one chain is replaced. -/
theorem exists_flatten_perm (hget : hashTable[idx]? = some chain) :
    ∃ others, hashTable.flatten.Perm (chain ++ others) ∧
      ∀ chain', (hashTable.set idx chain').flatten.Perm (chain' ++ others) := by
  obtain ⟨hidx, hchain⟩ := List.getElem?_eq_some_iff.mp hget
  have hset (chain' : List (Entry α)) : (hashTable.set idx chain').flatten.Perm
      (chain' ++ (hashTable.take idx ++ hashTable.drop (idx + 1)).flatten) := by
    rw [List.set_eq_take_append_cons_drop, if_pos hidx, List.flatten_append, List.flatten_cons, List.flatten_append]
    exact List.perm_append_comm_assoc _ _ _
  refine ⟨_, ?_, hset⟩
  have hsame := hset chain
  rwa [← hchain, List.set_getElem_self, hchain] at hsame

/-- A chain is replaced by entries of the same hash. -/
theorem Stores.replace (h : Stores text words hashTable) {chain' others : List (Entry α)}
    (hperm : hashTable.flatten.Perm (chain ++ others))
    (hset : (hashTable.set idx chain').flatten.Perm (chain' ++ others)) (hhashed : ∀ e ∈ chain', hash e.key = idx)
    (hcounted : ∀ e ∈ chain', e.count = e.words.length)
    (hgrouped : Grouped (fun w => letter_key (text w)) (word :: words) ((chain' ++ others).map Entry.group)) :
    Stores text (word :: words) (hashTable.set idx chain') := by
  refine ⟨by rw [List.length_set, h.length], ?_, ?_, hgrouped.of_perm (hset.map Entry.group)⟩
  · intro b c hget
    by_cases hb : idx = b
    · subst hb
      have hidx := (List.getElem?_eq_some_iff.mp hget).1
      rw [List.length_set] at hidx
      rw [List.getElem?_set_self hidx, Option.some_inj] at hget
      exact hget ▸ hhashed
    · rw [List.getElem?_set_ne hb] at hget
      exact h.hashed b c hget
  · intro e he
    obtain he | he := List.mem_append.mp (hset.mem_iff.mp he)
    · exact hcounted e he
    · exact h.counted e (hperm.mem_iff.mpr (List.mem_append_right chain he))

/-- A word of a new key gets an entry in front of its chain. -/
theorem Stores.push_entry (h : Stores text words hashTable)
    (hget : hashTable[hash (letter_key (text word))]? = some chain)
    (hnew : letter_key (text word) ∉ chain.map Entry.key) :
    Stores text (word :: words) (hashTable.set (hash (letter_key (text word)))
      ({ key := letter_key (text word), words := [word], count := 1 } :: chain)) := by
  obtain ⟨others, hperm, hset⟩ := exists_flatten_perm hget
  have hgrouped := h.grouped.of_perm (hperm.symm.map Entry.group)
  refine h.replace hperm (hset _) ?_ ?_ (hgrouped.push ?_)
  · intro e he
    obtain rfl | he := List.mem_cons.mp he
    · rfl
    · exact h.hashed _ _ hget e he
  · intro e he
    obtain rfl | he := List.mem_cons.mp he
    · rfl
    · exact h.counted e (hperm.mem_iff.mpr (List.mem_append_left others he))
  · rw [((hperm.map Entry.group).map Prod.fst).symm.mem_iff]
    exact h.key_notMem hget hnew

/-- A word of a known key is added to the entry of the key. -/
theorem Stores.extend_entry (h : Stores text words hashTable) {front rest : List (Entry α)} {e : Entry α}
    (hget : hashTable[idx]? = some (front ++ e :: rest)) (he : e.key = letter_key (text word)) :
    Stores text (word :: words) (hashTable.set idx
      (front ++ { e with words := word :: e.words, count := e.count + 1 } :: rest)) := by
  obtain ⟨others, hperm, hset⟩ := exists_flatten_perm hget
  have hhashed := h.hashed _ _ hget
  have hcounted : ∀ d ∈ front ++ e :: rest, d.count = d.words.length :=
    fun d hd => h.counted d (hperm.mem_iff.mpr (List.mem_append_left others hd))
  have hmem : e ∈ front ++ e :: rest := List.mem_append_right front List.mem_cons_self
  have hmove (d : Entry α) : ((front ++ d :: rest ++ others).map Entry.group).Perm
      (d.group :: (front ++ rest ++ others).map Entry.group) := by
    rw [← List.map_cons, ← List.cons_append]
    exact (List.perm_middle.append_right others).map Entry.group
  have hgroup : e.group = (letter_key (text word), e.words) := by rw [Entry.group, he]
  have hgroup' : Entry.group { e with words := word :: e.words, count := e.count + 1 } =
      (letter_key (text word), word :: e.words) := by rw [Entry.group, he]
  have hfirst := h.grouped.of_perm ((hmove e).symm.trans (hperm.symm.map Entry.group))
  rw [hgroup] at hfirst
  refine h.replace hperm (hset _) ?_ ?_ (Grouped.of_perm ?_ (hmove _))
  · intro d hd
    obtain hd | hd := List.mem_append.mp hd
    · exact hhashed d (List.mem_append_left _ hd)
    · obtain rfl | hd := List.mem_cons.mp hd
      · exact hhashed e hmem
      · exact hhashed d (by simp [hd])
  · intro d hd
    obtain hd | hd := List.mem_append.mp hd
    · exact hcounted d (List.mem_append_left _ hd)
    · obtain rfl | hd := List.mem_cons.mp hd
      · rw [List.length_cons, ← hcounted e hmem]
      · exact hcounted d (by simp [hd])
  · rw [hgroup']
    exact Grouped.add (x := word) hfirst

/-- A word is stored in the group of its key. -/
theorem Stores.insert_word (h : Stores text words hashTable)
    (hkey : generateKey (text word) = some (letter_key (text word))) :
    ∃ hashTable', insert text hashTable word = some hashTable' ∧ Stores text (word :: words) hashTable' := by
  have hidx : hash (letter_key (text word)) < hashTable.length := by
    rw [h.length]
    exact hash_lt _
  obtain ⟨chain, hget⟩ : ∃ chain, hashTable[hash (letter_key (text word))]? = some chain :=
    ⟨_, List.getElem?_eq_getElem hidx⟩
  have hchain : ∀ e ∈ chain, 0 ∉ e.key :=
    fun e he => h.zero_notMem_key (List.mem_flatten.mpr ⟨chain, List.mem_of_getElem? hget, he⟩)
  have hrun : insert text hashTable word = some (hashTable.set (hash (letter_key (text word)))
      ((add_word (letter_key (text word)) word chain).getD
        ({ key := letter_key (text word), words := [word], count := 1 } :: chain))) := by
    simp only [insert, hkey, hget, Option.bind_eq_bind, Option.bind_some]
  refine ⟨_, hrun, ?_⟩
  obtain ⟨hnew, hnone⟩ | ⟨front, e, rest, rfl, he, hsome⟩ := add_word_eq word zero_notMem_letter_key hchain
  · rw [hnone, Option.getD_none]
    exact h.push_entry hget hnew
  · rw [hsome, Option.getD_some]
    exact h.extend_entry hget he

theorem stores_empty : Stores text ([] : List α) (List.replicate TABLE_SIZE []) := by
  have hflat : (List.replicate TABLE_SIZE ([] : List (Entry α))).flatten = [] := List.flatten_replicate_nil
  refine ⟨List.length_replicate, ?_, ?_, ?_⟩
  · intro b chain hget
    obtain rfl := List.eq_of_mem_replicate (List.mem_of_getElem? hget)
    simp
  · rw [hflat]
    simp
  · rw [hflat]
    exact grouped_nil

/-- All words are stored, the last one first. -/
theorem Stores.insert_words {strs : List α} (h : Stores text words hashTable)
    (hkeys : ∀ w ∈ strs, generateKey (text w) = some (letter_key (text w))) :
    ∃ hashTable', strs.foldlM (insert text) hashTable = some hashTable' ∧
      Stores text (strs.reverse ++ words) hashTable' := by
  refine foldlM_history (fun past hashTable => Stores text (past.reverse ++ words) hashTable) h ?_
  intro past w hashTable hnow h
  rw [List.reverse_append, List.append_assoc]
  exact h.insert_word (hkeys w (hnow.subset (by simp)))

end Table

section Result

variable {α : Type} {text : α → List UInt8}

/-- The counting loops count the entries. -/
theorem count_groups (hashTable : List (List (Entry α))) (groups : Nat) :
    hashTable.foldl (fun groups chain => chain.foldl (fun groups _ => groups + 1) groups) groups =
      groups + hashTable.flatten.length := by
  induction hashTable generalizing groups with
  | nil => rfl
  | cons chain hashTable ih =>
    rw [List.foldl_cons, ih, List.foldl_add_const, List.flatten_cons, List.length_append]
    omega

theorem copy_words_eq {copied : List α} {row : Slots α} {n : Nat} (words : List α) (h : Holds row n copied)
    (hroom : copied.length + words.length = n) :
    ∃ row', copy_words words copied.length row = some row' ∧ Holds row' n (copied ++ words) := by
  induction words generalizing copied row with
  | nil => exact ⟨row, rfl, by rwa [List.append_nil]⟩
  | cons w words ih =>
    rw [List.length_cons] at hroom
    obtain ⟨next, hwrite, hnext⟩ := h.write_end (by omega) w
    obtain ⟨last, hrest, hlast⟩ := ih hnext (by rw [List.length_append, List.length_singleton]; omega)
    rw [List.length_append, List.length_singleton] at hrest
    refine ⟨last, ?_, ?_⟩
    · rw [copy_words, hwrite]
      exact hrest
    · rwa [List.append_assoc] at hlast

/-- The arrays after the entries `copied`. -/
structure Copied (n : Nat) (copied : List (Entry α)) (s : groups_t α) : Prop where
  sizes : Holds s.returnColumnSizes n (copied.map fun e => e.words.length)
  rows : Holds s.result n (copied.map fun e => e.words.map some)
  g : s.g = copied.length

theorem copied_nil (n : Nat) :
    Copied n ([] : List (Entry α)) { returnColumnSizes := uninit n, result := uninit n, g := 0 } :=
  ⟨holds_nil (length_uninit n), holds_nil (length_uninit n), rfl⟩

theorem Copied.step {n : Nat} {copied : List (Entry α)} {s : groups_t α} (h : Copied n copied s) {e : Entry α}
    (he : e.count = e.words.length) (hroom : copied.length < n) :
    ∃ s', copy_entry s e = some s' ∧ Copied n (copied ++ [e]) s' := by
  obtain ⟨sizes, hsizes, hsizes'⟩ := h.sizes.write_end (by rwa [List.length_map]) e.words.length
  obtain ⟨row, hrow, hrow'⟩ := copy_words_eq e.words (holds_nil (length_uninit e.words.length)) (by simp)
  rw [List.nil_append] at hrow'
  obtain ⟨rows, hrows, hrows'⟩ := h.rows.write_end (by rwa [List.length_map]) (e.words.map some)
  rw [List.length_map] at hsizes hrows
  refine ⟨{ returnColumnSizes := sizes, result := rows, g := s.g + 1 }, ?_, ?_⟩
  · rw [List.length_nil, hrow'.eq_map, ← he] at hrow
    rw [copy_entry, h.g, he, hsizes]
    simp only [← he, hrow, hrows, Option.bind_eq_bind, Option.bind_some]
  · refine ⟨?_, ?_, ?_⟩
    · rwa [List.map_append]
    · rwa [List.map_append]
    · rw [List.length_append, h.g, List.length_singleton]

theorem Copied.run {n : Nat} {copied entries : List (Entry α)} {s : groups_t α} (h : Copied n copied s)
    (hcounted : ∀ e ∈ entries, e.count = e.words.length) (hroom : copied.length + entries.length = n) :
    ∃ s', entries.foldlM copy_entry s = some s' ∧ Copied n (copied ++ entries) s' := by
  have hinit : Copied n (copied ++ []) s := by rwa [List.append_nil]
  refine foldlM_history (fun past s => Copied n (copied ++ past) s) hinit ?_
  intro past e s hnow h
  have hle := hnow.length_le
  rw [List.length_append, List.length_singleton] at hle
  rw [← List.append_assoc]
  exact h.step (hcounted e (hnow.subset (by simp))) (by rw [List.length_append]; omega)

/-- The arrays after all entries. -/
theorem Copied.eq_arrays {entries : List (Entry α)} {s : groups_t α} (h : Copied entries.length entries s) :
    (s.result, entries.length, s.returnColumnSizes) = arrays (entries.map Entry.words) := by
  have hrows : s.result = (entries.map fun e => e.words.map some).map some :=
    Holds.eq_map (by rw [List.length_map]; exact h.rows)
  have hsizes : s.returnColumnSizes = (entries.map fun e => e.words.length).map some :=
    Holds.eq_map (by rw [List.length_map]; exact h.sizes)
  rw [arrays, hrows, hsizes, List.length_map]
  simp only [List.map_map]
  rfl

/-- The groups of one key are the groups of anagrams. -/
theorem anagramGroups_of_grouped {words strs : List α} {entries : List (Entry α)}
    (h : Grouped (fun w => letter_key (text w)) words (entries.map Entry.group)) (hperm : words.Perm strs)
    (hlower : ∀ w ∈ strs, ∀ c ∈ text w, IsLower c) : AnagramGroups text strs (entries.map Entry.words) := by
  have hwords : (entries.map Entry.group).flatMap Prod.snd = (entries.map Entry.words).flatten := by
    rw [List.flatMap_map]
    rfl
  have hmembers : (entries.map Entry.words).flatten.Perm strs := hwords ▸ h.members.trans hperm
  have hword : ∀ e ∈ entries, ∀ w ∈ e.words, ∀ c ∈ text w, IsLower c := by
    intro e he w hw
    exact hlower w (hmembers.mem_iff.mp (List.mem_flatten.mpr ⟨e.words, List.mem_map_of_mem he, hw⟩))
  refine ⟨hmembers, ?_, ?_, ?_⟩
  · intro group hgroup
    obtain ⟨e, he, rfl⟩ := List.mem_map.mp hgroup
    exact h.inhabited e.group (List.mem_map_of_mem he)
  · intro group hgroup v hv w hw
    obtain ⟨e, he, rfl⟩ := List.mem_map.mp hgroup
    have hkeyed := h.keyed e.group (List.mem_map_of_mem he)
    exact (letter_key_eq_iff (hword e he v hv) (hword e he w hw)).mp ((hkeyed v hv).trans (hkeyed w hw).symm)
  · have hapart : entries.Pairwise fun e e' =>
        ∀ v ∈ e.words, ∀ w ∈ e'.words, letter_key (text v) ≠ letter_key (text w) := List.pairwise_map.mp h.apart
    refine List.pairwise_map.mpr (hapart.imp_of_mem ?_)
    intro e e' he he' hne v hv w hw hanagram
    exact hne v hv w hw ((letter_key_eq_iff (hword e he v hv) (hword e' he' w hw)).mpr hanagram)

/-- Words with small counts are grouped. -/
theorem groupAnagrams_groups {strs : List α} (hlower : ∀ w ∈ strs, ∀ c ∈ text w, IsLower c)
    (hfits : ∀ w ∈ strs, (letter_key (text w)).length < 100)
    (hsmall : ∀ w ∈ strs, ∀ c, (text w).count c < 100000000) :
    ∃ groups, groupAnagrams text strs = some (arrays groups) ∧ AnagramGroups text strs groups := by
  obtain ⟨hashTable, htable, hstores⟩ := stores_empty.insert_words fun w hw =>
    generateKey_eq (hlower w hw) (hfits w hw) (hsmall w hw)
  obtain ⟨s, hcopy, hcopied⟩ := (copied_nil hashTable.flatten.length).run hstores.counted (by simp)
  refine ⟨hashTable.flatten.map Entry.words, ?_, anagramGroups_of_grouped hstores.grouped ?_ hlower⟩
  · rw [← hcopied.eq_arrays, groupAnagrams, htable, Option.bind_eq_bind, Option.bind_some, count_groups, Nat.zero_add]
    simp only [foldlM_nested, hcopy, Option.bind_eq_bind, Option.bind_some]
  · rw [List.append_nil]
    exact List.reverse_perm strs

/-- A count of nine digits does not fit `buffer`. -/
theorem groupAnagrams_eq_none {strs : List α} (hlower : ∀ w ∈ strs, ∀ c ∈ text w, IsLower c) {w : α} (hw : w ∈ strs)
    {c : UInt8} (hlarge : 100000000 ≤ (text w).count c) : groupAnagrams text strs = none := by
  have hfail : ∀ hashTable, insert text hashTable w = none := by
    intro hashTable
    rw [insert, generateKey_eq_none (hlower w hw) hlarge]
    rfl
  rw [groupAnagrams, foldlM_eq_none hw hfail]
  rfl

/-- Words of lowercase letters with keys that fit are grouped exactly if no letter
occurs `10^8` times in a word. -/
theorem groupAnagrams_groups_iff (text : α → List UInt8) (strs : List α)
    (hlower : ∀ w ∈ strs, ∀ c ∈ text w, IsLower c) (hfits : ∀ w ∈ strs, (letter_key (text w)).length < 100) :
    (∃ groups, groupAnagrams text strs = some (arrays groups) ∧ AnagramGroups text strs groups) ↔
    ∀ w ∈ strs, ∀ c, (text w).count c < 100000000 := by
  constructor
  · rintro ⟨groups, hrun, -⟩ w hw c
    by_contra hlarge
    rw [groupAnagrams_eq_none hlower hw (Nat.not_lt.mp hlarge)] at hrun
    cases hrun
  · intro hsmall
    exact groupAnagrams_groups hlower hfits hsmall

end Result

theorem groupAnagrams_three_words :
    ∃ groups, groupAnagrams (fun w : Fin 3 => [[97, 98], [98, 97], [99]].get w) [0, 1, 2] = some (arrays groups) ∧
      AnagramGroups (fun w : Fin 3 => [[97, 98], [98, 97], [99]].get w) [0, 1, 2] groups :=
  (groupAnagrams_groups_iff (fun w : Fin 3 => [[97, 98], [98, 97], [99]].get w) [0, 1, 2] (by simp [IsLower]) (by decide)).mpr
    (fun w _ _ => Nat.lt_of_le_of_lt List.count_le_length (by revert w; decide))

/-- The key of a word of one letter. -/
theorem length_letter_key_replicate {n : Nat} (hn : n < 1000000000) :
    (letter_key (List.replicate n 97)).length < 100 := by
  have hletters : letters 26 = 97 :: (letters 26).tail := by decide
  have hother : 97 ∉ (letters 26).tail := by decide
  have hrest : tagged (occurrences (List.replicate n 97)) (letters 26).tail = [] := by
    refine tagged_eq_nil fun c hc => occurrences_zero (List.count_eq_zero_of_not_mem fun hmem => ?_)
    rw [List.eq_of_mem_replicate hmem] at hc
    exact hother hc
  rw [letter_key, hletters, tagged_cons, hrest, List.append_nil]
  by_cases hzero : n = 0
  · subst hzero
    decide
  · have hcount : (List.replicate n (97 : UInt8)).count 97 = n := List.count_replicate_self
    have hdigits : (decimal n).length ≤ 9 := by
      rw [decimal, if_neg (by omega), Int.natAbs_natCast, Nat.length_toDigits_le_iff (by decide) (by decide)]
      omega
    rw [entry_some (occurrences_pos (by rwa [hcount])), hcount, List.length_cons, List.length_map]
    omega

/-- A word of `10^8` letters `a` has a key of ten characters, and the text of the
count overflows `buffer`. -/
theorem groupAnagrams_overflow :
    (∀ c ∈ List.replicate 100000000 97, IsLower c) ∧ (letter_key (List.replicate 100000000 97)).length < 100 ∧
      ¬ ∃ groups, groupAnagrams (fun _ : Unit => List.replicate 100000000 97) [()] = some (arrays groups) ∧
        AnagramGroups (fun _ : Unit => List.replicate 100000000 97) [()] groups := by
  have hlower : ∀ c ∈ List.replicate 100000000 97, IsLower c := by
    intro c hc
    rw [List.eq_of_mem_replicate hc]
    decide
  have hcount : List.count 97 (List.replicate 100000000 (97 : UInt8)) = 100000000 := List.count_replicate_self
  refine ⟨hlower, length_letter_key_replicate (by decide), ?_⟩
  rintro ⟨groups, hrun, -⟩
  rw [groupAnagrams_eq_none (fun _ _ => hlower) (List.mem_singleton.mpr rfl) (Nat.le_of_eq hcount.symm)] at hrun
  cases hrun

end csystems.group_anagrams
