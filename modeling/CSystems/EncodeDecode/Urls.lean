import Mathlib.Data.List.Dedup
import Mathlib.Data.List.Perm.Subperm
import CSystems.Lib.CArray
import CSystems.Lib.Format
import CSystems.Lib.Run

open clib.array clib.string clib.format clib.run

namespace csystems.encode_decode

def MAX_URLS : Nat := 1000

structure store_t where
  longUrls : Slots (List UInt8)
  shortUrls : Slots (List UInt8)
  urlCount : Nat

def start : store_t := { longUrls := uninit MAX_URLS, shortUrls := uninit MAX_URLS, urlCount := 0 }

/-- The loop over `n` entries from index `i` on, which looks for the first one
equal to a string. -/
def search (urls : Slots (List UInt8)) (url : List UInt8) : Nat → Nat → Option (Option Nat)
  | 0, _ => some none
  | n + 1, i => do
    let entry ← read urls i
    if strcmp entry url = 0 then some (some i) else search urls url n (i + 1)

/-- The text that is printed for an index. -/
def short_text (i : Nat) : List Char := "http://tinyurl.com/".toList ++ decimal i

/-- The short URL and the arrays; `none` if an access is out of bounds. -/
def encode (s : store_t) (longUrl : List UInt8) : Option (List UInt8 × store_t) := do
  let found ← search s.longUrls longUrl s.urlCount 0
  match found with
  | some i =>
    let shortUrl ← read s.shortUrls i
    some (shortUrl, s)
  | none =>
    let longUrls ← write s.longUrls s.urlCount (c_str longUrl)
    let buffer ← sprintf 100 (short_text s.urlCount)
    let shortUrls ← write s.shortUrls s.urlCount buffer
    let urlCount := s.urlCount + 1
    let shortUrl ← read shortUrls (urlCount - 1)
    some (shortUrl, { longUrls, shortUrls, urlCount })

/-- The long URL, if it is not `NULL`. -/
def decode (s : store_t) (shortUrl : List UInt8) : Option (Option (List UInt8)) := do
  let found ← search s.shortUrls shortUrl s.urlCount 0
  match found with
  | some i =>
    let longUrl ← read s.longUrls i
    some (some longUrl)
  | none => some none

/-- The answers to the calls of `encode` with these URLs, and the arrays then. -/
def run (calls : List (List UInt8)) : Option (List (List UInt8) × store_t) :=
  calls.foldlM (fun (answers, s) longUrl => do
    let (shortUrl, s) ← encode s longUrl
    some (answers ++ [shortUrl], s)) ([], start)

/-- The short URL of an index. -/
def short_url (i : Nat) : List UInt8 := (short_text i).map Char.toUInt8

theorem short_text_isText (i : Nat) : IsText (short_text i) :=
  IsText.append (by simp [IsText]) (decimal_isText i)

theorem c_str_short_url (i : Nat) : c_str (short_url i) = short_url i :=
  c_str_eq_self (short_text_isText i).zero_notMem

/-- Different indices have different short URLs. -/
theorem short_url_inj {i j : Nat} (h : short_url i = short_url j) : i = j := by
  have htext := map_toUInt8_inj (short_text_isText i) (short_text_isText j) h
  exact Int.natCast_inj.mp (decimal_inj (List.append_cancel_left htext))

theorem length_short_text (i : Nat) : (short_text i).length = 19 + (decimal i).length := by
  have hlength : "http://tinyurl.com/".toList.length = 19 := by decide
  have hsplit : (short_text i).length = "http://tinyurl.com/".toList.length + (decimal i).length := List.length_append
  rw [hsplit, hlength]

/-- The text fits its buffer. -/
theorem sprintf_short_text {i : Nat} (hi : i < 1000) : sprintf 100 (short_text i) = some (short_url i) := by
  have hint : (Int32.ofNat i).toInt = i := by
    have hsize : (Int32.size : Int) = 4294967296 := rfl
    rw [Int32.toInt_ofNat', Int.bmod_eq_of_le (by omega) (by omega)]
  have hdecimal := decimal_length_le (Int32.ofNat i)
  rw [hint] at hdecimal
  have hlength := length_short_text i
  rw [sprintf, if_pos (by omega)]
  rfl

/-- The first entry equal to a string is at its first place among the entries. -/
theorem search_eq {urls : Slots (List UInt8)} {n : Nat} {front rest : List (List UInt8)} {url : List UInt8}
    (h : Holds urls n (front ++ rest)) (hentries : ∀ x ∈ rest, c_str x = x) :
    search urls url rest.length front.length =
      some (if c_str url ∈ rest then some (front.length + rest.idxOf (c_str url)) else none) := by
  induction rest generalizing front with
  | nil => rfl
  | cons x rest ih =>
    have hread : read urls front.length = some x := h.read_eq (by simp)
    have hx := hentries x List.mem_cons_self
    have hequal : strcmp x url = 0 ↔ x = c_str url := by rw [strcmp_eq_zero_iff, hx]
    rw [List.length_cons, search, hread, Option.bind_eq_bind, Option.bind_some]
    by_cases heq : x = c_str url
    · rw [if_pos (hequal.mpr heq), if_pos (by simp [heq]), ← heq, List.idxOf_cons_self, Nat.add_zero]
    · have hsplit : front ++ x :: rest = (front ++ [x]) ++ rest := by simp
      have hlength : (front ++ [x]).length = front.length + 1 := List.length_append
      have hrest := ih (hsplit ▸ h) fun y hy => hentries y (List.mem_cons_of_mem x hy)
      rw [hlength] at hrest
      have hmem : c_str url ∈ x :: rest ↔ c_str url ∈ rest := by
        rw [List.mem_cons]
        exact or_iff_right fun h => heq h.symm
      rw [if_neg (mt hequal.mp heq), hrest, List.idxOf_cons_ne rest heq, if_congr hmem rfl rfl, Nat.add_right_comm,
        Nat.add_assoc]

/-- The state after some calls: the different URLs in the order of their first
call, each with the short URL of its index, and the answers given. -/
structure Entered (calls urls answers : List (List UInt8)) (s : store_t) : Prop where
  long : Holds s.longUrls MAX_URLS urls
  short : Holds s.shortUrls MAX_URLS ((List.range urls.length).map short_url)
  count : s.urlCount = urls.length
  nodup : urls.Nodup
  mem_iff : ∀ x, x ∈ urls ↔ x ∈ calls.map c_str
  answers_eq : answers = calls.map fun u => short_url (urls.idxOf (c_str u))

section Entered

variable {calls urls answers : List (List UInt8)} {s : store_t} {u : List UInt8} {i : Nat}

theorem Entered.c_str_eq (h : Entered calls urls answers s) : ∀ x ∈ urls, c_str x = x := by
  intro x hx
  obtain ⟨u, -, rfl⟩ := List.mem_map.mp ((h.mem_iff x).mp hx)
  exact c_str_c_str u

theorem Entered.search_long (h : Entered calls urls answers s) (u : List UInt8) :
    search s.longUrls u s.urlCount 0 = some (if c_str u ∈ urls then some (urls.idxOf (c_str u)) else none) := by
  have hfound : search s.longUrls u urls.length ([] : List (List UInt8)).length = _ := search_eq h.long h.c_str_eq
  rwa [List.length_nil, ← h.count, Nat.zero_add] at hfound

theorem Entered.read_short (h : Entered calls urls answers s) (hi : i < urls.length) :
    read s.shortUrls i = some (short_url i) :=
  h.short.read_eq (by rw [List.getElem?_map, List.getElem?_range hi, Option.map_some])

/-- A URL that was entered before keeps its short URL. -/
theorem Entered.encode_again (h : Entered calls urls answers s) (hu : c_str u ∈ urls) :
    encode s u = some (short_url (urls.idxOf (c_str u)), s) := by
  rw [encode, h.search_long, if_pos hu, Option.bind_eq_bind, Option.bind_some]
  simp only [h.read_short (List.idxOf_lt_length_of_mem hu), Option.bind_eq_bind, Option.bind_some]

theorem Entered.again (h : Entered calls urls answers s) (hu : c_str u ∈ urls) :
    Entered (calls ++ [u]) urls (answers ++ [short_url (urls.idxOf (c_str u))]) s := by
  refine ⟨h.long, h.short, h.count, h.nodup, ?_, by rw [h.answers_eq, List.map_append, List.map_singleton]⟩
  intro x
  rw [h.mem_iff, List.map_append, List.mem_append, List.map_singleton, List.mem_singleton]
  refine (or_iff_left_of_imp ?_).symm
  rintro rfl
  exact (h.mem_iff _).mp hu

theorem Entered.nodup_concat (h : Entered calls urls answers s) (hu : c_str u ∉ urls) :
    (urls ++ [c_str u]).Nodup := by
  refine List.nodup_append.mpr ⟨h.nodup, List.nodup_singleton _, ?_⟩
  intro x hx y hy heq
  rw [List.mem_singleton.mp hy] at heq
  exact hu (heq ▸ hx)

/-- A new URL gets the short URL of the next index. -/
theorem Entered.encode_new (h : Entered calls urls answers s) (hu : c_str u ∉ urls) (hroom : urls.length < MAX_URLS) :
    ∃ s', encode s u = some (short_url urls.length, s') ∧
      Entered (calls ++ [u]) (urls ++ [c_str u]) (answers ++ [short_url urls.length]) s' := by
  have hlength : ((List.range urls.length).map short_url).length = urls.length := by
    rw [List.length_map, List.length_range]
  obtain ⟨longUrls, hlong, hlong'⟩ := h.long.write_end hroom (c_str u)
  obtain ⟨shortUrls, hshort, hshort'⟩ := h.short.write_end (by rw [hlength]; exact hroom) (short_url urls.length)
  have hread := hshort'.read_eq (List.getElem?_concat_length)
  rw [hlength] at hshort hread
  have hrun : encode s u =
      some (short_url urls.length, { longUrls, shortUrls, urlCount := urls.length + 1 }) := by
    rw [encode, h.search_long, if_neg hu, h.count]
    simp only [hlong, sprintf_short_text hroom, hshort, Nat.add_sub_cancel, hread, Option.bind_eq_bind,
      Option.bind_some]
  refine ⟨_, hrun, hlong', ?_, ?_, ?_, ?_, ?_⟩
  · rw [List.length_append, List.length_singleton, List.range_succ, List.map_append, List.map_singleton]
    exact hshort'
  · rw [List.length_append, List.length_singleton]
  · exact h.nodup_concat hu
  · intro x
    rw [List.mem_append, h.mem_iff, List.map_append, List.mem_append, List.map_singleton]
  · rw [List.map_append, List.map_singleton, h.answers_eq, List.idxOf_append_of_notMem hu, List.idxOf_cons_self]
    congr 1
    refine List.map_congr_left fun v hv => ?_
    rw [List.idxOf_append_of_mem ((h.mem_iff _).mpr (List.mem_map_of_mem hv))]

/-- The short URL of an index leads back to the URL entered there. -/
theorem Entered.decode_short (h : Entered calls urls answers s) (hi : i < urls.length) :
    decode s (short_url i) = some (some urls[i]) := by
  have hnodup : ((List.range urls.length).map short_url).Nodup :=
    List.nodup_range.map fun i j => short_url_inj
  have hplace : i < ((List.range urls.length).map short_url).length := by
    rw [List.length_map, List.length_range]
    exact hi
  have hentry : ((List.range urls.length).map short_url)[i] = short_url i := by
    rw [List.getElem_map, List.getElem_range]
  have hindex := hnodup.idxOf_getElem i hplace
  have hmem := List.getElem_mem hplace
  rw [hentry] at hindex hmem
  have hfound : search s.shortUrls (short_url i) ((List.range urls.length).map short_url).length
      ([] : List (List UInt8)).length = _ := search_eq h.short (by
    intro x hx
    obtain ⟨j, -, rfl⟩ := List.mem_map.mp hx
    exact c_str_short_url j)
  rw [c_str_short_url, if_pos hmem, hindex, List.length_nil, Nat.zero_add, List.length_map, List.length_range,
    ← h.count] at hfound
  have hread := h.long.read_eq (List.getElem?_eq_getElem hi)
  rw [decode, hfound]
  simp only [hread, Option.bind_eq_bind, Option.bind_some]

theorem entered_nil : Entered [] [] [] start :=
  ⟨holds_nil (length_uninit _), holds_nil (length_uninit _), rfl, List.nodup_nil, by simp, rfl⟩

/-- A new URL finds room while there are few different ones. -/
theorem Entered.length_lt (h : Entered calls urls answers s) (hu : c_str u ∉ urls) {rest : List (List UInt8)}
    (hnow : calls ++ [u] <+: rest) (hfew : (rest.map c_str).dedup.length ≤ MAX_URLS) : urls.length < MAX_URLS := by
  have hall : urls ++ [c_str u] ⊆ (rest.map c_str).dedup := by
    intro x hx
    have hmem : x ∈ (calls ++ [u]).map c_str := by
      rw [List.map_append, List.mem_append, ← h.mem_iff]
      exact List.mem_append.mp hx
    exact List.mem_dedup.mpr ((hnow.map c_str).subset hmem)
  have hroom := (List.subperm_of_subset (h.nodup_concat hu) hall).length_le
  rw [List.length_append, List.length_singleton] at hroom
  omega

/-- The calls with few different URLs. -/
theorem run_entered (calls : List (List UInt8)) (hfew : (calls.map c_str).dedup.length ≤ MAX_URLS) :
    ∃ answers urls s, run calls = some (answers, s) ∧ Entered calls urls answers s := by
  have hruns : ∃ done : List (List UInt8) × store_t, run calls = some done ∧
      ∃ urls, Entered calls urls done.1 done.2 := by
    refine foldlM_history (fun past (done : List (List UInt8) × store_t) => ∃ urls, Entered past urls done.1 done.2)
      ⟨[], entered_nil⟩ ?_
    rintro past u ⟨answers, s⟩ hnow ⟨urls, h⟩
    by_cases hu : c_str u ∈ urls
    · exact ⟨_, by simp only [h.encode_again hu]; rfl, urls, h.again hu⟩
    · obtain ⟨s', hencode, h'⟩ := h.encode_new hu (h.length_lt hu hnow hfew)
      exact ⟨_, by simp only [hencode]; rfl, _, h'⟩
  obtain ⟨⟨answers, s⟩, hrun, urls, h⟩ := hruns
  exact ⟨answers, urls, s, hrun, h⟩

end Entered

/-- After any calls with at most `MAX_URLS` different URLs, every answer decodes
to its URL and is given again, and only equal URLs have equal answers. -/
theorem decode_encode (calls : List (List UInt8)) (hfew : (calls.map c_str).dedup.length ≤ MAX_URLS) :
    ∃ (answers : List (List UInt8)) (s : store_t), run calls = some (answers, s) ∧ answers.length = calls.length ∧
      (∀ (i : Nat) (u a : List UInt8), calls[i]? = some u → answers[i]? = some a →
        decode s a = some (some (c_str u)) ∧ encode s u = some (a, s)) ∧
      (∀ (i j : Nat) (u v a b : List UInt8), calls[i]? = some u → calls[j]? = some v → answers[i]? = some a →
        answers[j]? = some b → (a = b ↔ c_str u = c_str v)) := by
  obtain ⟨answers, urls, s, hrun, h⟩ := run_entered calls hfew
  have hanswer : ∀ (i : Nat) (u a : List UInt8), calls[i]? = some u → answers[i]? = some a →
      c_str u ∈ urls ∧ a = short_url (urls.idxOf (c_str u)) := by
    intro i u a hu ha
    rw [h.answers_eq, List.getElem?_map, hu, Option.map_some, Option.some_inj] at ha
    exact ⟨(h.mem_iff _).mpr (List.mem_map_of_mem (List.mem_of_getElem? hu)), ha.symm⟩
  refine ⟨answers, s, hrun, by rw [h.answers_eq, List.length_map], ?_, ?_⟩
  · intro i u a hu ha
    obtain ⟨hmem, rfl⟩ := hanswer i u a hu ha
    have hindex := List.idxOf_lt_length_of_mem hmem
    have hdecode := h.decode_short hindex
    rw [List.getElem_idxOf hindex] at hdecode
    exact ⟨hdecode, h.encode_again hmem⟩
  · intro i j u v a b hu hv ha hb
    obtain ⟨hmem, rfl⟩ := hanswer i u a hu ha
    obtain ⟨-, rfl⟩ := hanswer j v b hv hb
    constructor
    · intro heq
      exact (List.idxOf_inj hmem).mp (short_url_inj heq)
    · intro heq
      rw [heq]

theorem decode_encode_two :
    ∃ (answers : List (List UInt8)) (s : store_t),
      run [[104, 58, 97], [104, 58, 98], [104, 58, 97]] = some (answers, s) ∧ answers.length = 3 ∧
        ∀ a, answers[2]? = some a → decode s a = some (some [104, 58, 97]) := by
  obtain ⟨answers, s, hrun, hlength, hback, -⟩ :=
    decode_encode [[104, 58, 97], [104, 58, 98], [104, 58, 97]] (by decide)
  exact ⟨answers, s, hrun, hlength, fun a ha => (hback 2 _ a rfl ha).1⟩

end csystems.encode_decode
