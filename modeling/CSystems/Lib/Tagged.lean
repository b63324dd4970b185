import Mathlib.Data.List.Basic
import Mathlib.Data.List.TakeWhile

namespace clib.tag

variable {α : Type} {f g : α → Option (List α)} {tags : List α} {t c : α} {s b : List α} {p : α → Bool}

/-- A tag and what is written behind it; nothing for a tag without a body. -/
def entry (f : α → Option (List α)) (t : α) : List α :=
  match f t with
  | none => []
  | some b => t :: b

/-- The entries of all tags. -/
def tagged (f : α → Option (List α)) (tags : List α) : List α := tags.flatMap (entry f)

theorem entry_none (h : f t = none) : entry f t = [] := by rw [entry, h]

theorem entry_some (h : f t = some b) : entry f t = t :: b := by rw [entry, h]

theorem tagged_cons : tagged f (t :: tags) = entry f t ++ tagged f tags := List.flatMap_cons

theorem tagged_append (tags tags' : List α) : tagged f (tags ++ tags') = tagged f tags ++ tagged f tags' :=
  List.flatMap_append

theorem tagged_singleton (t : α) : tagged f [t] = entry f t := List.flatMap_singleton _ _

theorem tagged_eq_nil (h : ∀ t ∈ tags, f t = none) : tagged f tags = [] :=
  List.flatMap_eq_nil_iff.mpr fun t ht => entry_none (h t ht)

theorem mem_tagged (h : c ∈ tagged f tags) : c ∈ tags ∨ ∃ t ∈ tags, ∃ b, f t = some b ∧ c ∈ b := by
  obtain ⟨t, ht, hc⟩ := List.mem_flatMap.mp h
  cases hbody : f t with
  | none =>
    rw [entry_none hbody] at hc
    cases hc
  | some b =>
    rw [entry_some hbody] at hc
    obtain rfl | hc := List.mem_cons.mp hc
    · exact Or.inl ht
    · exact Or.inr ⟨t, ht, b, hbody, hc⟩

/-- The text starts with a tag. -/
theorem mem_of_tagged_eq_cons (h : tagged f tags = c :: s) : c ∈ tags := by
  induction tags with
  | nil => cases h
  | cons t tags ih =>
    rw [tagged_cons] at h
    cases hbody : f t with
    | none =>
      rw [entry_none hbody, List.nil_append] at h
      exact List.mem_cons_of_mem t (ih h)
    | some b =>
      rw [entry_some hbody, List.cons_append] at h
      obtain ⟨rfl, -⟩ := List.cons.inj h
      exact List.mem_cons_self

/-- Where the tags are told from what is in the bodies, a body ends where the next
tag is. -/
theorem takeWhile_append_tagged (hbody : ∀ c ∈ b, p c = true) (htags : ∀ t ∈ tags, p t = false) :
    (b ++ tagged f tags).takeWhile p = b := by
  rw [List.takeWhile_append_of_pos hbody]
  cases hrest : tagged f tags with
  | nil => rw [List.takeWhile_nil, List.append_nil]
  | cons c s =>
    rw [List.takeWhile_cons, htags c (mem_of_tagged_eq_cons hrest), if_neg Bool.false_ne_true, List.append_nil]

/-- The text determines the body of every tag. -/
theorem tagged_inj (hnodup : tags.Nodup) (htags : ∀ t ∈ tags, p t = false)
    (hf : ∀ t ∈ tags, ∀ b, f t = some b → ∀ c ∈ b, p c = true)
    (hg : ∀ t ∈ tags, ∀ b, g t = some b → ∀ c ∈ b, p c = true) (h : tagged f tags = tagged g tags) :
    ∀ t ∈ tags, f t = g t := by
  induction tags with
  | nil => simp
  | cons t tags ih =>
    obtain ⟨hnew, hnodup⟩ := List.nodup_cons.mp hnodup
    have hrest := fun t' ht' => htags t' (List.mem_cons_of_mem t ht')
    have hsame : f t = g t ∧ tagged f tags = tagged g tags := by
      rw [tagged_cons, tagged_cons] at h
      cases hft : f t with
      | none =>
        rw [entry_none hft, List.nil_append] at h
        cases hgt : g t with
        | none =>
          rw [entry_none hgt, List.nil_append] at h
          exact ⟨rfl, h⟩
        | some b =>
          rw [entry_some hgt, List.cons_append] at h
          exact absurd (mem_of_tagged_eq_cons h) hnew
      | some a =>
        rw [entry_some hft, List.cons_append] at h
        cases hgt : g t with
        | none =>
          rw [entry_none hgt, List.nil_append] at h
          exact absurd (mem_of_tagged_eq_cons h.symm) hnew
        | some b =>
          rw [entry_some hgt, List.cons_append] at h
          have htail := (List.cons.inj h).2
          have hbody : a = b := by
            rw [← takeWhile_append_tagged (f := f) (hf t List.mem_cons_self a hft) hrest, htail,
              takeWhile_append_tagged (hg t List.mem_cons_self b hgt) hrest]
          subst hbody
          exact ⟨rfl, List.append_cancel_left htail⟩
    intro t' ht'
    obtain rfl | ht' := List.mem_cons.mp ht'
    · exact hsame.1
    · exact ih hnodup hrest (fun u hu => hf u (List.mem_cons_of_mem t hu))
        (fun u hu => hg u (List.mem_cons_of_mem t hu)) hsame.2 t' ht'

end clib.tag
