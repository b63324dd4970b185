import CSystems.Chat.Program

open clib.run clib.string

namespace csystems.chat

variable {s s' : state} {typed_a typed_b : List text_t}

/-- Where the programs are in a dialogue that A does not end. -/
inductive Phase : Option (List msg) → main_t → main_t → List text_t → List text_t → Prop where
  | a_typing {typed_a typed_b : List text_t} (h : ¬ EndsWithA typed_a typed_b) :
    Phase (some []) .typing .receiving typed_a typed_b
  | a_sending {text : text_t} {typed_a typed_b : List text_t} (h : ¬ EndsWithA (text :: typed_a) typed_b) :
    Phase (some []) (.sending text) .receiving typed_a typed_b
  | to_b {text : text_t} {typed_a typed_b : List text_t} (h : ¬ EndsWithA (text :: typed_a) typed_b) :
    Phase (some [⟨1, text⟩]) .receiving .receiving typed_a typed_b
  | b_typing {text : text_t} {typed_a typed_b : List text_t} (h : ¬ EndsWithA (text :: typed_a) typed_b) :
    Phase (some []) .receiving .typing typed_a typed_b
  | b_sending {text : text_t} {typed_a typed_b : List text_t}
    (h : is_exit text = false → ¬ EndsWithA typed_a typed_b) :
    Phase (some []) .receiving (.sending text) typed_a typed_b
  | to_a {text : text_t} {typed_a typed_b : List text_t} (htext : is_exit text = false)
    (h : ¬ EndsWithA typed_a typed_b) : Phase (some [⟨2, text⟩]) .receiving .receiving typed_a typed_b
  | exit_to_a {text : text_t} {typed_a typed_b : List text_t} (htext : is_exit text = true) :
    Phase (some [⟨2, text⟩]) .receiving .finished typed_a typed_b
  | removing {typed_a typed_b : List text_t} : Phase (some []) .removing .finished typed_a typed_b
  | removed {typed_a typed_b : List text_t} : Phase none .finished .finished typed_a typed_b

/-- The programs are in a phase of the dialogue, and every message sent was received or is
in the queue. -/
structure Inv (s : state) : Prop where
  phase : Phase s.queue s.main_a s.main_b s.typed_a s.typed_b
  destroyed : s.destroyed = []
  from_a : s.sent_a = s.received_b ++ s.queued 1
  from_b : s.sent_b = s.received_a ++ s.queued 2

theorem start_inv (h : ¬ EndsWithA typed_a typed_b) : Inv (start typed_a typed_b) :=
  ⟨.a_typing h, rfl, rfl, rfl⟩

theorem not_exit {text : text_t} (h : ¬ EndsWithA (text :: typed_a) typed_b) : is_exit text = false := by
  by_contra hexit
  exact h (Or.inl (by simpa using hexit))

theorem Inv.step_a (h : Inv s) (hstep : step_a s = some s') : Inv s' := by
  obtain ⟨queue, main_a, main_b, typed_a, typed_b, sent_a, received_a, sent_b, received_b, destroyed⟩ := s
  obtain ⟨hphase, hdestroyed, hfrom_a, hfrom_b⟩ := h
  dsimp only at hphase hdestroyed
  simp only [state.queued] at hfrom_a hfrom_b
  cases hphase with
  | a_typing hends =>
    cases typed_a with
    | nil => cases hstep
    | cons text typed_a =>
      obtain rfl := Option.some.inj hstep
      exact ⟨.a_sending hends, hdestroyed, hfrom_a, hfrom_b⟩
  | @a_sending text _ _ hends =>
    have hexit := not_exit hends
    simp only [chat.step_a, hexit] at hstep
    obtain rfl := Option.some.inj hstep
    exact ⟨.to_b hends, hdestroyed, by simpa [state.queued] using hfrom_a, by simpa [state.queued] using hfrom_b⟩
  | to_b => simp [chat.step_a, take_message] at hstep
  | b_typing => simp [chat.step_a, take_message] at hstep
  | b_sending => simp [chat.step_a, take_message] at hstep
  | @to_a text _ _ htext hends =>
    simp [chat.step_a, take_message, htext] at hstep
    subst hstep
    exact ⟨.a_typing hends, hdestroyed, by simpa [state.queued] using hfrom_a, by simpa [state.queued] using hfrom_b⟩
  | @exit_to_a text _ _ htext =>
    simp [chat.step_a, take_message, htext] at hstep
    subst hstep
    exact ⟨.removing, hdestroyed, by simpa [state.queued] using hfrom_a, by simpa [state.queued] using hfrom_b⟩
  | removing =>
    obtain rfl := Option.some.inj hstep
    exact ⟨.removed, by simpa using hdestroyed, hfrom_a, hfrom_b⟩
  | removed => cases hstep

theorem Inv.step_b (h : Inv s) (hstep : step_b s = some s') : Inv s' := by
  obtain ⟨queue, main_a, main_b, typed_a, typed_b, sent_a, received_a, sent_b, received_b, destroyed⟩ := s
  obtain ⟨hphase, hdestroyed, hfrom_a, hfrom_b⟩ := h
  dsimp only at hphase hdestroyed
  simp only [state.queued] at hfrom_a hfrom_b
  cases hphase with
  | a_typing => simp [chat.step_b, take_message] at hstep
  | a_sending => simp [chat.step_b, take_message] at hstep
  | @to_b text _ _ hends =>
    simp [chat.step_b, take_message, not_exit hends] at hstep
    subst hstep
    exact ⟨.b_typing hends, hdestroyed, by simpa [state.queued] using hfrom_a, by simpa [state.queued] using hfrom_b⟩
  | @b_typing text _ _ hends =>
    cases typed_b with
    | nil => cases hstep
    | cons reply typed_b =>
      obtain rfl := Option.some.inj hstep
      refine ⟨.b_sending fun hreply hrest => ?_, hdestroyed, hfrom_a, hfrom_b⟩
      exact hends (Or.inr ⟨hreply, hrest⟩)
  | @b_sending text _ _ hends =>
    cases hexit : is_exit text with
    | true =>
      simp [chat.step_b, hexit] at hstep
      subst hstep
      exact ⟨.exit_to_a hexit, hdestroyed, by simpa [state.queued] using hfrom_a,
        by simpa [state.queued] using hfrom_b⟩
    | false =>
      simp [chat.step_b, hexit] at hstep
      subst hstep
      exact ⟨.to_a hexit (hends hexit), hdestroyed, by simpa [state.queued] using hfrom_a,
        by simpa [state.queued] using hfrom_b⟩
  | to_a => simp [chat.step_b, take_message] at hstep
  | exit_to_a => cases hstep
  | removing => cases hstep
  | removed => cases hstep

theorem reachable_inv (hends : ¬ EndsWithA typed_a typed_b) (h : Reachable step (start typed_a typed_b) s) :
    Inv s := by
  refine h.invariant (start_inv hends) fun s s' e hinv hstep => ?_
  cases e with
  | a => exact hinv.step_a hstep
  | b => exact hinv.step_b hstep

theorem Inv.good (h : Inv s) : Good s := by
  obtain ⟨queue, main_a, main_b, typed_a, typed_b, sent_a, received_a, sent_b, received_b, destroyed⟩ := s
  obtain ⟨hphase, hdestroyed, hfrom_a, hfrom_b⟩ := h
  dsimp only at hphase
  refine ⟨hdestroyed, hfrom_a, hfrom_b, ?_, ?_, ?_, ?_⟩ <;> cases hphase <;> simp [state.queued]

/-- Both programs at the start of a round, with some texts left to type. -/
structure Round (s : state) (typed_a typed_b : List text_t) : Prop where
  queue : s.queue = some []
  main_a : s.main_a = .typing
  main_b : s.main_b = .receiving
  left_a : s.typed_a = typed_a
  left_b : s.typed_b = typed_b

theorem start_round (typed_a typed_b : List text_t) : Round (start typed_a typed_b) typed_a typed_b :=
  ⟨rfl, rfl, rfl, rfl, rfl⟩

/-- A round in which neither types `"exit"`. -/
theorem round_trip {text reply : text_t} (h : Round s (text :: typed_a) (reply :: typed_b))
    (htext : is_exit text = false) (hreply : is_exit reply = false) :
    ∃ s', steps step s [.a, .a, .b, .b, .b, .a] = some s' ∧ Round s' typed_a typed_b := by
  obtain ⟨hqueue, hmain_a, hmain_b, hleft_a, hleft_b⟩ := h
  simp [steps, step, step_a, step_b, take_message, hqueue, hmain_a, hmain_b, hleft_a, hleft_b, htext, hreply]
  exact ⟨rfl, rfl, rfl, rfl, rfl⟩

/-- A sends its `"exit"` and removes the queue, before B runs. -/
theorem round_exit {text : text_t} (h : Round s (text :: typed_a) typed_b) (htext : is_exit text = true) :
    ∃ s', steps step s [.a, .a, .a] = some s' ∧ s'.destroyed ≠ [] := by
  obtain ⟨hqueue, hmain_a, hmain_b, hleft_a, hleft_b⟩ := h
  simp [steps, step, step_a, hqueue, hmain_a, hleft_a, htext]

/-- Where A ends the dialogue, its last message can be destroyed. -/
theorem destroyed_reachable {first : state} (hreach : Reachable step first s) (h : Round s typed_a typed_b)
    (hends : EndsWithA typed_a typed_b) : ∃ s', Reachable step first s' ∧ s'.destroyed ≠ [] := by
  induction typed_a generalizing s typed_b with
  | nil => cases hends
  | cons text typed_a ih =>
    cases htext : is_exit text with
    | true =>
      obtain ⟨s', hsteps, hdestroyed⟩ := round_exit h htext
      exact ⟨s', hreach.steps hsteps, hdestroyed⟩
    | false =>
      cases typed_b with
      | nil => simp [EndsWithA, htext] at hends
      | cons reply typed_b =>
        obtain hexit | ⟨hreply, hrest⟩ := hends
        · rw [htext] at hexit
          cases hexit
        · obtain ⟨s', hsteps, hround⟩ := round_trip h htext hreply
          exact ih (hreach.steps hsteps) hround hrest

/-- In every run of a dialogue all messages are delivered and no call fails, exactly if A
does not end the dialogue. -/
theorem dialogue_delivered_iff (typed_a typed_b : List text_t) :
    (∀ s, Reachable step (start typed_a typed_b) s → Good s) ↔ ¬ EndsWithA typed_a typed_b := by
  constructor
  · intro hall hends
    obtain ⟨s, hreach, hdestroyed⟩ := destroyed_reachable .start (start_round typed_a typed_b) hends
    exact hdestroyed (hall s hreach).destroyed
  · intro hends s hreach
    exact (reachable_inv hends hreach).good

def exit_text : text_t where
  chars := EXIT
  length_lt := by decide
  no_nul := by decide

/-- A types `"exit"` at once. -/
theorem exit_destroyed : ¬ ∀ s, Reachable step (start [exit_text] []) s → Good s := by
  intro hall
  have hends : EndsWithA [exit_text] [] := Or.inl (by decide)
  obtain ⟨s, hreach, hdestroyed⟩ := destroyed_reachable .start (start_round [exit_text] []) hends
  exact hdestroyed (hall s hreach).destroyed

end csystems.chat
