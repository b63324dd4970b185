import CSystems.Lib.CArray

open clib.array

namespace csystems.sliding_window

structure window_t where
  deque : Slots Nat
  front : Nat
  back : Nat
  result : Slots Int32
  returnSize : Nat

/-- The loop `while (back > front && nums[deque[back - 1]] < x) back--`. -/
def pop_back (nums : List Int32) (deque : Slots Nat) (front : Nat) (x : Int32) : Nat → Option Nat
  | 0 => some 0
  | back + 1 =>
    if front < back + 1 then do
      let j ← read deque back
      let y ← nums[j]?
      if y < x then pop_back nums deque front x back else some (back + 1)
    else some (back + 1)

/-- The body of the loop over `nums`; `none` if an access is out of bounds or
reads a slot that was never written. -/
def slide (nums : List Int32) (k : Int) (i : Nat) (s : window_t) : Option window_t := do
  let x ← nums[i]?
  let back ← pop_back nums s.deque s.front x s.back
  let deque ← write s.deque back i
  let head ← read deque s.front
  let front := if (head : Int) ≤ i - k then s.front + 1 else s.front
  if k - 1 ≤ i then do
    let m ← read deque front
    let v ← nums[m]?
    let result ← write s.result s.returnSize v
    some { deque, front, back := back + 1, result, returnSize := s.returnSize + 1 }
  else some { s with deque, front, back := back + 1 }

/-- The array returned, if it is not `NULL`, and `*returnSize`. -/
def maxSlidingWindow (nums : List Int32) (k : Int) : Option (Option (Slots Int32) × Nat) :=
  if nums.length = 0 ∨ k = 0 then some (none, 0)
  else do
    let windowCount := (nums.length - k + 1).toNat
    let s ← for_up (slide nums k) nums.length
      { deque := uninit nums.length, front := 0, back := 0, result := uninit windowCount, returnSize := 0 }
    some (some s.result, s.returnSize)

/-- `v` is the maximum of `xs`. -/
def IsMaximum (v : Int32) (xs : List Int32) : Prop := v ∈ xs ∧ ∀ y ∈ xs, y ≤ v

/-- The values of `nums` at two positions, in order. -/
def ValueLe (nums : List Int32) (a b : Nat) : Prop := nums.getD a 0 ≤ nums.getD b 0

/-- Before step `i` the deque holds positions `q` inside of the window, of values
that do not increase, and for every position of the window one that is not before
it and of a value that is not less. -/
structure Holding (nums : List Int32) (k : Int) (i : Nat) (deque : Slots Nat) (front : Nat) (q : List Nat) : Prop where
  length : deque.length = nums.length
  reads : Reads deque front q
  room : front + q.length ≤ i
  increasing : q.Pairwise (· < ·)
  inside : ∀ j ∈ q, i - k ≤ j ∧ j < i
  falling : q.Pairwise fun a b => ValueLe nums b a
  covers : ∀ j, j < i → i - k ≤ j → ∃ m ∈ q, j ≤ m ∧ ValueLe nums j m

section Slide

variable {nums : List Int32} {k : Int} {i front : Nat} {deque : Slots Nat} {q : List Nat} {x : Int32}

/-- The positions at the end with values below `x` are popped, and no others. -/
theorem pop_back_eq (hreads : Reads deque front q) (hin : ∀ j ∈ q, j < nums.length) :
    ∃ kept popped, q = kept ++ popped ∧
      pop_back nums deque front x (front + q.length) = some (front + kept.length) ∧
      (∀ j ∈ popped, nums.getD j 0 < x) ∧ ∀ j ∈ kept.getLast?, x ≤ nums.getD j 0 := by
  induction q using List.reverseRecOn with
  | nil =>
    refine ⟨[], [], rfl, ?_, by simp, by simp⟩
    cases front with
    | zero => rfl
    | succ front => rw [List.length_nil, Nat.add_zero, pop_back, if_neg (by omega)]
  | append_singleton q j ih =>
    have hj := hin j (by simp)
    have hget : nums[j]? = some (nums.getD j 0) := by
      rw [List.getD_eq_getElem?_getD, List.getElem?_eq_getElem hj, Option.getD_some]
    have hstep : pop_back nums deque front x (front + (q ++ [j]).length) =
        if nums.getD j 0 < x then pop_back nums deque front x (front + q.length)
        else some (front + (q ++ [j]).length) := by
      rw [List.length_append, List.length_singleton, ← Nat.add_assoc, pop_back, if_pos (by omega), hreads.last,
        Option.bind_eq_bind, Option.bind_some, hget]
      rfl
    by_cases hlt : nums.getD j 0 < x
    · obtain ⟨kept, popped, rfl, hrun, hpopped, hkept⟩ := ih hreads.of_append fun j hj => hin j (by simp [hj])
      refine ⟨kept, popped ++ [j], List.append_assoc _ _ _, ?_, ?_, hkept⟩
      · rw [hstep, if_pos hlt, hrun]
      · intro m hm
        obtain hm | hm := List.mem_append.mp hm
        · exact hpopped m hm
        · rwa [List.mem_singleton.mp hm]
    · refine ⟨q ++ [j], [], (List.append_nil _).symm, by rw [hstep, if_neg hlt], by simp, ?_⟩
      intro m hm
      rw [List.getLast?_concat, Option.mem_some_iff] at hm
      exact hm ▸ Int32.not_lt.mp hlt

/-- The values in the deque are not less than the one pushed. -/
theorem forall_le_of_last {kept : List Nat} (hfalling : kept.Pairwise fun a b => ValueLe nums b a)
    (hlast : ∀ j ∈ kept.getLast?, x ≤ nums.getD j 0) : ∀ j ∈ kept, x ≤ nums.getD j 0 := by
  intro j hj
  cases kept using List.reverseRecOn with
  | nil => cases hj
  | append_singleton kept last =>
    have hx : x ≤ nums.getD last 0 := hlast last (by simp)
    obtain hj | hj := List.mem_append.mp hj
    · have hle : ValueLe nums last j := (List.pairwise_append.mp hfalling).2.2 j hj last (by simp)
      exact Int32.le_trans hx hle
    · rwa [List.mem_singleton.mp hj]

/-- Popping and pushing: until the front is looked at, the window is one position
longer. -/
theorem Holding.push (h : Holding nums k i deque front q) (hi : i < nums.length) (hk : 1 ≤ k) :
    ∃ kept deque', pop_back nums deque front (nums.getD i 0) (front + q.length) = some (front + kept.length) ∧
      write deque (front + kept.length) i = some deque' ∧
      Holding nums (k + 1) (i + 1) deque' front (kept ++ [i]) := by
  obtain ⟨hlength, hreads, hroom, hincreasing, hinside, hfalling, hcovers⟩ := h
  obtain ⟨kept, popped, rfl, hpop, hpopped, hlast⟩ :=
    pop_back_eq (x := nums.getD i 0) hreads fun j hj => Nat.lt_trans (hinside j hj).2 hi
  have hkept := hreads.of_append
  have hfalls := (List.pairwise_append.mp hfalling).1
  have hvalues := forall_le_of_last hfalls hlast
  rw [List.length_append] at hroom
  obtain ⟨hwrite, hreads'⟩ := hkept.write_end (by omega) i
  refine ⟨kept, _, hpop, hwrite, by rw [List.length_set, hlength], hreads', ?_, ?_, ?_, ?_, ?_⟩
  · rw [List.length_append, List.length_singleton]
    omega
  · refine List.pairwise_append.mpr ⟨(List.pairwise_append.mp hincreasing).1, List.pairwise_singleton _ _, ?_⟩
    intro j hj m hm
    rw [List.mem_singleton.mp hm]
    exact (hinside j (List.mem_append_left popped hj)).2
  · intro j hj
    obtain hj | hj := List.mem_append.mp hj
    · have hold := hinside j (List.mem_append_left popped hj)
      omega
    · rw [List.mem_singleton.mp hj]
      omega
  · refine List.pairwise_append.mpr ⟨hfalls, List.pairwise_singleton _ _, ?_⟩
    intro j hj m hm
    rw [List.mem_singleton.mp hm]
    exact hvalues j hj
  · intro j hj hwindow
    by_cases heq : j = i
    · subst heq
      exact ⟨j, by simp, Nat.le_refl j, Int32.le_refl _⟩
    · obtain ⟨m, hm, hjm, hle⟩ := hcovers j (by omega) (by omega)
      obtain hm | hm := List.mem_append.mp hm
      · exact ⟨m, List.mem_append_left _ hm, hjm, hle⟩
      · refine ⟨i, by simp, by omega, ?_⟩
        exact Int32.le_trans hle (Int32.le_of_lt (hpopped m hm))

/-- At most the front leaves the window. -/
theorem Holding.expire {head : Nat} (h : Holding nums (k + 1) (i + 1) deque front (head :: q)) :
    (i - k < head → Holding nums k (i + 1) deque front (head :: q)) ∧
      (head ≤ i - k → Holding nums k (i + 1) deque (front + 1) q) := by
  obtain ⟨hlength, hreads, hroom, hincreasing, hinside, hfalling, hcovers⟩ := h
  have hbehind := (List.pairwise_cons.mp hincreasing).1
  have hhead := hinside head List.mem_cons_self
  rw [List.length_cons] at hroom
  constructor
  · intro hstays
    refine ⟨hlength, hreads, by rw [List.length_cons]; omega, hincreasing, ?_, hfalling, ?_⟩
    · intro j hj
      have hold := hinside j hj
      obtain rfl | hj := List.mem_cons.mp hj
      · omega
      · have hlt := hbehind j hj
        omega
    · intro j hj hwindow
      exact hcovers j hj (by omega)
  · intro hleaves
    refine ⟨hlength, hreads.tail, by omega, (List.pairwise_cons.mp hincreasing).2, ?_,
      (List.pairwise_cons.mp hfalling).2, ?_⟩
    · intro j hj
      have hold := hinside j (List.mem_cons_of_mem head hj)
      have hlt := hbehind j hj
      omega
    · intro j hj hwindow
      obtain ⟨m, hm, hjm, hle⟩ := hcovers j hj (by omega)
      obtain rfl | hm := List.mem_cons.mp hm
      · omega
      · exact ⟨m, hm, hjm, hle⟩

/-- The front holds the maximum of a full window. -/
theorem Holding.maximum {head j : Nat} (h : Holding nums k (i + 1) deque front (head :: q)) (hi : i < nums.length)
    (hj : i + 1 = j + k) : IsMaximum (nums.getD head 0) ((nums.drop j).take k.toNat) := by
  have hhead := h.inside head List.mem_cons_self
  have hget (m : Nat) (hm : m < nums.length) : nums[m]? = some (nums.getD m 0) := by
    rw [List.getD_eq_getElem?_getD, List.getElem?_eq_getElem hm, Option.getD_some]
  constructor
  · refine List.mem_of_getElem? (i := head - j) ?_
    rw [List.getElem?_take_of_lt (by omega), List.getElem?_drop, show j + (head - j) = head by omega]
    exact hget head (by omega)
  · intro y hy
    obtain ⟨d, hd⟩ := List.getElem?_of_mem hy
    obtain ⟨hlt, -⟩ := List.getElem?_eq_some_iff.mp hd
    rw [List.length_take, List.length_drop] at hlt
    rw [List.getElem?_take_of_lt (by omega), List.getElem?_drop, hget (j + d) (by omega), Option.some_inj] at hd
    obtain ⟨m, hm, -, hle⟩ := h.covers (j + d) (by omega) (by omega)
    rw [← hd]
    obtain rfl | hm := List.mem_cons.mp hm
    · exact hle
    · exact Int32.le_trans hle ((List.pairwise_cons.mp h.falling).1 m hm)

/-- The state before step `i`: the maxima `out` of the windows that end before it
are in the result. -/
structure Sliding (nums : List Int32) (k : Int) (i : Nat) (s : window_t) (q : List Nat) (out : List Int32) : Prop where
  holding : Holding nums k i s.deque s.front q
  back : s.back = s.front + q.length
  result : Holds s.result (nums.length - k + 1).toNat out
  returnSize : s.returnSize = out.length
  length : out.length = (i - k + 1).toNat
  maxima : ∀ (j : Nat) (v : Int32), out[j]? = some v → IsMaximum v ((nums.drop j).take k.toNat)

variable {s : window_t} {out : List Int32}

/-- The front after the step, and the positions behind it. -/
theorem Holding.front_eq (h : Holding nums (k + 1) (i + 1) deque front q) (hk : 1 ≤ k) (hlast : i ∈ q) :
    ∃ head front' m rest, read deque front = some head ∧ (if (head : Int) ≤ i - k then front + 1 else front) = front' ∧
      Holding nums k (i + 1) deque front' (m :: rest) ∧ front + q.length = front' + (m :: rest).length := by
  cases q with
  | nil => cases hlast
  | cons head q =>
    obtain ⟨hstays, hleaves⟩ := h.expire
    by_cases hexpired : (head : Int) ≤ i - k
    · cases q with
      | nil =>
        obtain rfl := List.mem_singleton.mp hlast
        omega
      | cons m rest =>
        refine ⟨head, front + 1, m, rest, h.reads.head, if_pos hexpired, hleaves hexpired, ?_⟩
        simp only [List.length_cons]
        omega
    · exact ⟨head, front, head, q, h.reads.head, if_neg hexpired, hstays (by omega), rfl⟩

theorem Sliding.step (h : Sliding nums k i s q out) (hi : i < nums.length) (hk : 1 ≤ k) :
    ∃ s' q' out', slide nums k i s = some s' ∧ Sliding nums k (i + 1) s' q' out' := by
  obtain ⟨hholding, hback, hresult, hsize, hlength, hmaxima⟩ := h
  have hget : nums[i]? = some (nums.getD i 0) := by
    rw [List.getD_eq_getElem?_getD, List.getElem?_eq_getElem hi, Option.getD_some]
  obtain ⟨kept, deque, hpop, hwrite, hpushed⟩ := hholding.push hi hk
  obtain ⟨head, front, m, rest, hhead, hfront, hnext, hrest⟩ := hpushed.front_eq hk (by simp)
  have hback' : s.front + kept.length + 1 = front + (m :: rest).length := by
    rw [← hrest, List.length_append, List.length_singleton, Nat.add_assoc]
  rw [← hback] at hpop
  by_cases hfull : k - 1 ≤ i
  · have hm := hnext.inside m List.mem_cons_self
    have hvalue : nums[m]? = some (nums.getD m 0) := by
      rw [List.getD_eq_getElem?_getD, List.getElem?_eq_getElem (by omega), Option.getD_some]
    have hmaximum := hnext.maximum hi (j := out.length) (by omega)
    obtain ⟨result, hstore, hresult'⟩ := hresult.write_end (by omega) (nums.getD m 0)
    rw [← hsize] at hstore
    have hrun : slide nums k i s = some
        { deque, front, back := s.front + kept.length + 1, result, returnSize := s.returnSize + 1 } := by
      simp only [slide, hget, hpop, hwrite, hhead, hfront, if_pos hfull, hnext.reads.head, hvalue, hstore,
        Option.bind_eq_bind, Option.bind_some]
    refine ⟨_, m :: rest, out ++ [nums.getD m 0], hrun, hnext, hback', hresult', ?_, ?_, ?_⟩
    · rw [hsize, List.length_append, List.length_singleton]
    · rw [List.length_append, List.length_singleton, hlength]
      omega
    · intro j v hv
      by_cases hj : j = out.length
      · subst hj
        rw [List.getElem?_concat_length, Option.some_inj] at hv
        exact hv ▸ hmaximum
      · rw [List.getElem?_append] at hv
        split at hv
        · exact hmaxima j v hv
        · rw [List.getElem?_eq_none (by rw [List.length_singleton]; omega)] at hv
          cases hv
  · have hrun : slide nums k i s = some { s with deque, front, back := s.front + kept.length + 1 } := by
      simp only [slide, hget, hpop, hwrite, hhead, hfront, if_neg hfull, Option.bind_eq_bind, Option.bind_some]
    refine ⟨_, m :: rest, out, hrun, hnext, hback', hresult, hsize, ?_, hmaxima⟩
    rw [hlength]
    omega

/-- The loop over `nums`. -/
theorem Sliding.run (h : Sliding nums k 0 s q out) (hi : i ≤ nums.length) (hk : 1 ≤ k) :
    ∃ s' q' out', for_up (slide nums k) i s = some s' ∧ Sliding nums k i s' q' out' := by
  induction i with
  | zero => exact ⟨s, q, out, rfl, h⟩
  | succ i ih =>
    obtain ⟨s₁, q₁, out₁, hrun, h₁⟩ := ih (by omega)
    obtain ⟨s₂, q₂, out₂, hstep, h₂⟩ := h₁.step hi hk
    refine ⟨s₂, q₂, out₂, ?_, h₂⟩
    rw [for_up, hrun, Option.bind_eq_bind, Option.bind_some, hstep]

end Slide

/-- The maxima of all windows are returned, and no access is out of bounds. -/
theorem maxSlidingWindow_maxima (nums : List Int32) (k : Int) (hk : 1 ≤ k) (hle : k ≤ nums.length) :
    ∃ maxima : List Int32, maxSlidingWindow nums k = some (some (maxima.map some), maxima.length) ∧
      (maxima.length : Int) = nums.length - k + 1 ∧
      ∀ (j : Nat) (v : Int32), maxima[j]? = some v → IsMaximum v ((nums.drop j).take k.toNat) := by
  have hstart : Sliding nums k 0
      { deque := uninit nums.length, front := 0, back := 0, result := uninit (nums.length - k + 1).toNat,
        returnSize := 0 } [] [] := by
    refine ⟨⟨length_uninit _, ?_, Nat.le_refl 0, List.Pairwise.nil, by simp, List.Pairwise.nil, ?_⟩, rfl,
      holds_nil (length_uninit _), rfl, ?_, by simp⟩
    · intro i hi
      cases hi
    · intro j hj
      omega
    · rw [List.length_nil]
      omega
  obtain ⟨s, q, maxima, hrun, h⟩ := hstart.run (Nat.le_refl nums.length) hk
  have hlength := h.length
  refine ⟨maxima, ?_, by omega, h.maxima⟩
  have hresult := h.result
  rw [← hlength] at hresult
  rw [maxSlidingWindow, if_neg (by omega)]
  simp only [hrun, hresult.eq_map, h.returnSize, Option.bind_eq_bind, Option.bind_some]

theorem maxSlidingWindow_three :
    ∃ maxima : List Int32, maxSlidingWindow [1, 3, -1, -3, 5] 3 = some (some (maxima.map some), maxima.length) ∧
      (maxima.length : Int) = ([1, 3, -1, -3, 5] : List Int32).length - 3 + 1 ∧
      ∀ (j : Nat) (v : Int32), maxima[j]? = some v → IsMaximum v (([1, 3, -1, -3, 5].drop j).take (3 : Int).toNat) :=
  maxSlidingWindow_maxima [1, 3, -1, -3, 5] 3 (by decide) (by decide)

end csystems.sliding_window
