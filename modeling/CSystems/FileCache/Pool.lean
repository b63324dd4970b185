import CSystems.FileCache.BufferPool
import CSystems.Lib.Run

open clib.run

namespace csystems.file_cache

inductive pool_call
  | acquire_buffer
  | release_buffer (buffer : Nat)

namespace pool_call

/-- A call and the pointer that it returns, if any. -/
def call (pool : buffer_pool_t) : pool_call → Option (buffer_pool_t × Option Nat)
  | acquire_buffer => file_cache.acquire_buffer pool
  | release_buffer buffer => (file_cache.release_buffer pool buffer).map fun pool => (pool, none)

/-- The buffers released are buffers of the pool. -/
def InPool (pool_size : Nat) : pool_call → Prop
  | acquire_buffer => True
  | release_buffer buffer => buffer < pool_size

instance (pool_size : Nat) : (c : pool_call) → Decidable (c.InPool pool_size)
  | acquire_buffer => inferInstanceAs (Decidable True)
  | release_buffer buffer => inferInstanceAs (Decidable (buffer < pool_size))

end pool_call

/-- The buffers held after a call and its result: those handed out and not released. -/
def hold (held : List Nat) : pool_call × Option Nat → List Nat
  | (.acquire_buffer, some buffer) => buffer :: held
  | (.acquire_buffer, none) => held
  | (.release_buffer buffer, _) => held.filter (· ≠ buffer)

/-- The pool against the buffers held: the others make up its free list. -/
structure Accounts (pool_size : Nat) (held : List Nat) (pool : buffer_pool_t) (free : List Nat) : Prop where
  sound : pool.Sound free
  length : pool.buffers.length = pool_size
  partition : ∀ i, i < pool_size → (i ∈ free ↔ i ∉ held)

section Calls

variable {pool_size : Nat} {held free : List Nat} {pool : buffer_pool_t}

theorem create_buffer_pool_accounts (memory : Nat → Vector UInt8 BUFFER_SIZE) (hpos : 0 < pool_size) :
    Accounts pool_size [] (create_buffer_pool memory pool_size) (List.range pool_size) := by
  refine ⟨create_buffer_pool_sound memory hpos, ?_, fun i hi => ?_⟩
  · simp [create_buffer_pool]
  · simp [hi]

theorem Accounts.lt (h : Accounts pool_size held pool free) {i : Nat} (hi : i ∈ free) : i < pool_size :=
  h.length ▸ h.sound.lt hi

/-- With a buffer on the free list, that is the one handed out. -/
theorem Accounts.acquire_cons {i : Nat} (h : Accounts pool_size held pool (i :: free)) :
    ∃ pool', acquire_buffer pool = some (pool', some i) ∧ Accounts pool_size (i :: held) pool' free := by
  obtain ⟨pool', hacquire, hsound, hlength⟩ := acquire_buffer_cons h.sound
  refine ⟨pool', hacquire, hsound, hlength.trans h.length, fun j hj => ?_⟩
  have hnot : i ∉ free := (List.nodup_cons.mp h.sound.chain.nodup).1
  by_cases hji : j = i
  · subst j
    simp [hnot]
  · have hpartition := h.partition j hj
    simpa [hji] using hpartition

theorem Accounts.release {i : Nat} (h : Accounts pool_size held pool free) (hi : i < pool_size) :
    ∃ pool' free', release_buffer pool i = some pool' ∧ Accounts pool_size (held.filter (· ≠ i)) pool' free' := by
  by_cases hfree : i ∈ free
  · refine ⟨pool, free, release_buffer_free h.sound hfree, h.sound, h.length, fun j hj => ?_⟩
    rw [h.partition j hj, List.mem_filter]
    -- a buffer on the free list is not among those held
    have hheld := (h.partition i hi).mp hfree
    constructor
    · exact fun hj hmem => hj hmem.1
    · rintro hj hmem
      refine hj ⟨hmem, ?_⟩
      simpa using fun heq : j = i => hheld (heq ▸ hmem)
  · obtain ⟨pool', hrelease, hsound, hlength⟩ := release_buffer_held h.sound (h.length ▸ hi) hfree
    refine ⟨pool', i :: free, hrelease, hsound, hlength.trans h.length, fun j hj => ?_⟩
    by_cases hji : j = i
    · subst j
      simp
    · have hpartition := h.partition j hj
      simpa [hji] using hpartition

/-- `acquire_buffer` fails exactly when every buffer is held, and hands out one that
nobody holds. -/
theorem Accounts.acquire (h : Accounts pool_size held pool free) :
    ∃ pool' answer, acquire_buffer pool = some (pool', answer) ∧ (answer = none ↔ ∀ i < pool_size, i ∈ held) ∧
      (∀ i, answer = some i → i < pool_size ∧ i ∉ held) ∧
        ∃ free', Accounts pool_size (hold held (.acquire_buffer, answer)) pool' free' := by
  cases free with
  | nil =>
    refine ⟨pool, none, acquire_buffer_nil h.sound, iff_of_true rfl fun i hi => ?_, by simp, [], h⟩
    have hpartition := h.partition i hi
    simpa using hpartition
  | cons i free =>
    obtain ⟨pool', hacquire, haccounts⟩ := h.acquire_cons
    have hlt := h.lt List.mem_cons_self
    have hheld := (h.partition i hlt).mp List.mem_cons_self
    refine ⟨pool', some i, hacquire, iff_of_false (by simp) fun hall => hheld (hall i hlt), ?_, free, haccounts⟩
    rintro j hj
    obtain rfl := Option.some.inj hj
    exact ⟨hlt, hheld⟩

theorem call_accounts (h : ∃ free, Accounts pool_size held pool free) {c : pool_call} (hc : c.InPool pool_size) :
    ∃ pool' answer, c.call pool = some (pool', answer) ∧
      ∃ free, Accounts pool_size (hold held (c, answer)) pool' free := by
  obtain ⟨free, h⟩ := h
  cases c with
  | acquire_buffer =>
    obtain ⟨pool', answer, hacquire, -, -, haccounts⟩ := h.acquire
    exact ⟨pool', answer, hacquire, haccounts⟩
  | release_buffer i =>
    obtain ⟨pool', free', hrelease, haccounts⟩ := h.release hc
    refine ⟨pool', none, ?_, free', haccounts⟩
    rw [pool_call.call, hrelease, Option.map_some]

end Calls

/-- After any calls the free list holds each buffer that nobody holds once, and the next
`acquire_buffer` hands one of these out if there is one. -/
theorem buffer_pool_sound (memory : Nat → Vector UInt8 BUFFER_SIZE) (pool_size : Nat) (hpos : 0 < pool_size)
    (calls : List pool_call) (hcalls : ∀ c ∈ calls, c.InPool pool_size) :
    ∃ pool answers free, exec pool_call.call (create_buffer_pool memory pool_size) calls = some (pool, answers) ∧
      pool.Sound free ∧ pool.buffers.length = pool_size ∧
        (∀ i < pool_size, i ∈ free ↔ i ∉ (calls.zip answers).foldl hold []) ∧
          ∃ pool' answer, acquire_buffer pool = some (pool', answer) ∧
            (answer = none ↔ ∀ i < pool_size, i ∈ (calls.zip answers).foldl hold []) ∧
              ∀ i, answer = some i → i < pool_size ∧ i ∉ (calls.zip answers).foldl hold [] := by
  obtain ⟨pool, answers, hexec, free, haccounts⟩ :=
    exec_record (pool_call.InPool pool_size) (fun held pool => ∃ free, Accounts pool_size held pool free) hold
      (fun _ _ _ hc h => call_accounts h hc) [] ⟨_, create_buffer_pool_accounts memory hpos⟩ hcalls
  obtain ⟨pool', answer, hacquire, hnone, hsome, -⟩ := haccounts.acquire
  exact ⟨pool, answers, free, hexec, haccounts.sound, haccounts.length, haccounts.partition, pool', answer, hacquire,
    hnone, hsome⟩

theorem buffer_pool_sound_two :
    ∃ pool answers free,
      exec pool_call.call (create_buffer_pool (fun _ => Vector.replicate BUFFER_SIZE 0) 2)
          [.acquire_buffer, .acquire_buffer, .acquire_buffer, .release_buffer 0, .release_buffer 0] =
        some (pool, answers) ∧ pool.Sound free := by
  obtain ⟨pool, answers, free, hexec, hsound, -⟩ :=
    buffer_pool_sound (fun _ => Vector.replicate BUFFER_SIZE 0) 2 (by decide)
      [.acquire_buffer, .acquire_buffer, .acquire_buffer, .release_buffer 0, .release_buffer 0] (by decide)
  exact ⟨pool, answers, free, hexec, hsound⟩

end csystems.file_cache
