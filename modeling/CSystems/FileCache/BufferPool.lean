import CSystems.Lib.LinkedList

open clib.heap

namespace csystems.file_cache

def BUFFER_SIZE : Nat := 4096
def POOL_SIZE : Nat := 10

/-- A buffer of the pool. A pointer to one is its index in the array. -/
structure buffer_t where
  data : Vector UInt8 BUFFER_SIZE
  is_free : Bool
  buffer_id : Nat
  next : Option Nat

structure buffer_pool_t where
  buffers : List buffer_t
  free_list : Option Nat
  total_buffers : Nat
  free_count : Nat

/-- The buffers start with what `malloc` finds in memory. -/
def create_buffer_pool (memory : Nat → Vector UInt8 BUFFER_SIZE) (pool_size : Nat) : buffer_pool_t where
  buffers := (List.range pool_size).map fun iterator =>
    { data := memory iterator
      is_free := true
      buffer_id := iterator
      next := if iterator = pool_size - 1 then none else some (iterator + 1) }
  free_list := some 0
  total_buffers := pool_size
  free_count := pool_size

/-- The buffer taken from the list, if there is one. -/
def acquire_buffer (pool : buffer_pool_t) : Option (buffer_pool_t × Option Nat) :=
  if pool.free_count = 0 then some (pool, none)
  else do
    let buffer ← pool.free_list
    let b ← pool.buffers[buffer]?
    some ({ pool with
      buffers := pool.buffers.set buffer { b with is_free := false, next := none }
      free_list := b.next
      free_count := pool.free_count - 1 }, some buffer)

def release_buffer (pool : buffer_pool_t) (buffer : Nat) : Option buffer_pool_t := do
  let b ← pool.buffers[buffer]?
  if b.is_free then some pool
  else some { pool with
    buffers := pool.buffers.set buffer
      { b with data := Vector.replicate BUFFER_SIZE 0, is_free := true, next := pool.free_list }
    free_list := some buffer
    free_count := pool.free_count + 1 }

/-- The contents of a buffer after a read of fewer bytes than it has, with the
terminator behind them. -/
def filled (data : Vector UInt8 BUFFER_SIZE) (bytes : List UInt8) : Vector UInt8 BUFFER_SIZE :=
  Vector.ofFn fun i => (bytes ++ [0]).getD i data[i]

/-- `read` into the buffer. -/
def fill_buffer (pool : buffer_pool_t) (buffer : Nat) (bytes : List UInt8) : Option buffer_pool_t := do
  let b ← pool.buffers[buffer]?
  some { pool with buffers := pool.buffers.set buffer { b with data := filled b.data bytes } }

/-- The link out of a buffer. -/
def buffer_pool_t.next_of (pool : buffer_pool_t) (buffer : Nat) : Option (Option Nat) :=
  (pool.buffers[buffer]?).map buffer_t.next

/-- The free list holds the buffers marked as free, each once, and they are
counted. -/
structure buffer_pool_t.Sound (pool : buffer_pool_t) (free : List Nat) : Prop where
  chain : Chain pool.next_of pool.free_list free
  is_free : ∀ i b, pool.buffers[i]? = some b → (b.is_free = true ↔ i ∈ free)
  count : pool.free_count = free.length

section Pool

variable {pool : buffer_pool_t} {free : List Nat}

private theorem succ_range' (start n : Nat) {i : Nat} (hle : start ≤ i) (hlt : i < start + n) :
    succ (List.range' start n) i = if i + 1 = start + n then none else some (i + 1) := by
  induction n generalizing start with
  | zero => omega
  | succ n ih =>
    rw [List.range'_succ, succ]
    by_cases hi : i = start
    · subst hi
      rw [if_pos rfl]
      cases n with
      | zero => simp
      | succ n => rw [List.range'_succ, List.head?_cons, if_neg (by omega)]
    · rw [if_neg hi, ih (start + 1) (by omega) (by omega)]
      congr 1
      rw [eq_iff_iff]
      omega

/-- A new pool of at least one buffer. -/
theorem create_buffer_pool_sound (memory : Nat → Vector UInt8 BUFFER_SIZE) {pool_size : Nat} (hpos : 0 < pool_size) :
    (create_buffer_pool memory pool_size).Sound (List.range pool_size) := by
  refine ⟨⟨List.nodup_range, ?_, ?_⟩, ?_, ?_⟩
  · obtain ⟨n, rfl⟩ : ∃ n, pool_size = n + 1 := ⟨pool_size - 1, by omega⟩
    rw [List.range_succ_eq_map]
    rfl
  · intro i hi
    have hlt := List.mem_range.mp hi
    rw [List.range_eq_range', succ_range' 0 pool_size (Nat.zero_le i) (by omega)]
    simp only [buffer_pool_t.next_of, create_buffer_pool, List.getElem?_map, List.getElem?_range hlt, Option.map_some]
    by_cases hlast : i = pool_size - 1
    · rw [if_pos hlast, if_pos (by omega)]
    · rw [if_neg hlast, if_neg (by omega)]
  · intro i b hb
    simp only [create_buffer_pool, List.getElem?_map, Option.map_eq_some_iff] at hb
    obtain ⟨j, hj, rfl⟩ := hb
    obtain ⟨hlt, -⟩ := List.getElem?_eq_some_iff.mp hj
    simpa using hlt
  · simp [create_buffer_pool]

private theorem next_of_set {i j : Nat} {b' : buffer_t} (hne : j ≠ i) :
    ((pool.buffers.set i b')[j]?).map buffer_t.next = pool.next_of j := by
  rw [List.getElem?_set_ne (Ne.symm hne)]
  rfl

theorem buffer_pool_t.Sound.lt (h : pool.Sound free) {i : Nat} (hi : i ∈ free) : i < pool.buffers.length := by
  obtain ⟨b, hb, -⟩ := Option.map_eq_some_iff.mp (h.chain.next_eq i hi)
  exact (List.getElem?_eq_some_iff.mp hb).1

private theorem buffer_get {i : Nat} (hlt : i < pool.buffers.length) : ∃ b, pool.buffers[i]? = some b :=
  ⟨_, List.getElem?_eq_getElem hlt⟩

/-- What a store to one buffer leaves of the marks. -/
private theorem is_free_set {i : Nat} {b b' : buffer_t} (hb : pool.buffers[i]? = some b) {free' : List Nat}
    (h : pool.Sound free) (hself : b'.is_free = true ↔ i ∈ free') (hother : ∀ j, j ≠ i → (j ∈ free' ↔ j ∈ free)) :
    ∀ j c, (pool.buffers.set i b')[j]? = some c → (c.is_free = true ↔ j ∈ free') := by
  intro j c hc
  by_cases hj : j = i
  · subst j
    rw [List.getElem?_set_self (List.getElem?_eq_some_iff.mp hb).1] at hc
    rwa [← Option.some.inj hc]
  · rw [List.getElem?_set_ne (Ne.symm hj)] at hc
    rw [hother j hj]
    exact h.is_free j c hc

theorem acquire_buffer_nil (h : pool.Sound []) : acquire_buffer pool = some (pool, none) := if_pos h.count

/-- The first free buffer is handed out. -/
theorem acquire_buffer_cons {i : Nat} {rest : List Nat} (h : pool.Sound (i :: rest)) :
    ∃ pool', acquire_buffer pool = some (pool', some i) ∧ pool'.Sound rest ∧
      pool'.buffers.length = pool.buffers.length := by
  obtain ⟨b, hb⟩ := buffer_get (h.lt List.mem_cons_self)
  obtain ⟨hnext, hrest⟩ := h.chain.tail
  have hcount : pool.free_count = rest.length + 1 := h.count
  have hhead : pool.free_list = some i := h.chain.head_eq
  have hb' : b.next = rest.head? := by simpa [buffer_pool_t.next_of, hb] using hnext
  obtain ⟨hi, -⟩ := List.nodup_cons.mp h.chain.nodup
  refine ⟨{ pool with
    buffers := pool.buffers.set i { b with is_free := false, next := none }
    free_list := b.next
    free_count := pool.free_count - 1 }, ?_, ⟨?_, ?_, ?_⟩, List.length_set⟩
  · rw [acquire_buffer, if_neg (by omega), hhead]
    simp [hb]
  · rw [hb']
    refine hrest.congr fun j hj => ?_
    refine next_of_set ?_
    rintro rfl
    exact hi hj
  · refine is_free_set hb h (by simpa using hi) fun j hj => ?_
    simp [hj]
  · dsimp only
    omega

/-- A buffer in use goes to the front of the free list. -/
theorem release_buffer_held (h : pool.Sound free) {i : Nat} (hlt : i < pool.buffers.length) (hi : i ∉ free) :
    ∃ pool', release_buffer pool i = some pool' ∧ pool'.Sound (i :: free) ∧
      pool'.buffers.length = pool.buffers.length := by
  obtain ⟨b, hb⟩ := buffer_get hlt
  have hheld : b.is_free = false := by
    rw [Bool.eq_false_iff]
    exact fun hfree => hi ((h.is_free i b hb).mp hfree)
  refine ⟨{ pool with
    buffers := pool.buffers.set i
      { b with data := Vector.replicate BUFFER_SIZE 0, is_free := true, next := pool.free_list }
    free_list := some i
    free_count := pool.free_count + 1 }, ?_, ⟨?_, ?_, ?_⟩, List.length_set⟩
  · rw [release_buffer, hb, Option.bind_eq_bind, Option.bind_some, if_neg (by simp [hheld])]
  · refine h.chain.push hi ?_ fun j hj => ?_
    · rw [buffer_pool_t.next_of, List.getElem?_set_self hlt]
      rfl
    · refine next_of_set ?_
      rintro rfl
      exact hi hj
  · refine is_free_set hb h (by simp) fun j hj => ?_
    simp [hj]
  · dsimp only
    rw [h.count, List.length_cons]

/-- A buffer on the free list stays where it is. -/
theorem release_buffer_free (h : pool.Sound free) {i : Nat} (hi : i ∈ free) : release_buffer pool i = some pool := by
  obtain ⟨b, hb⟩ := buffer_get (h.lt hi)
  rw [release_buffer, hb, Option.bind_eq_bind, Option.bind_some, if_pos ((h.is_free i b hb).mpr hi)]

/-- Reading into a buffer leaves the free list. -/
theorem fill_buffer_sound (h : pool.Sound free) {i : Nat} (hlt : i < pool.buffers.length) (bytes : List UInt8) :
    ∃ pool', fill_buffer pool i bytes = some pool' ∧ pool'.Sound free ∧
      pool'.buffers.length = pool.buffers.length := by
  obtain ⟨b, hb⟩ := buffer_get hlt
  refine ⟨{ pool with buffers := pool.buffers.set i { b with data := filled b.data bytes } }, ?_, ⟨?_, ?_, h.count⟩,
    List.length_set⟩
  · simp [fill_buffer, hb]
  · refine h.chain.congr fun j hj => ?_
    by_cases hji : j = i
    · subst j
      simp [buffer_pool_t.next_of, List.getElem?_set_self hlt, hb]
    · exact next_of_set hji
  · exact is_free_set hb h (h.is_free i b hb) fun j _ => Iff.rfl

end Pool

end csystems.file_cache
