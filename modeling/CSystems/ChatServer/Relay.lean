import Mathlib.Data.List.Induction
import Mathlib.Data.List.Nodup
import CSystems.ChatServer.Server

namespace csystems.chat_server

/-- A message goes to every other client once, and not back to its sender. -/
structure Relayed (r : relay_t) : Prop where
  sender : r.sender ∈ r.clients
  msg : ∀ send ∈ r.sends, send.msg = r.msg
  once : ∀ fd ∈ r.clients, fd ≠ r.sender → (r.sends.map send_t.fd).count fd = 1
  not_back : r.sender ∉ r.sends.map send_t.fd

/-- The server goes on, `master_set` is the listening socket and the connected clients,
`max_fd` bounds them, and every message was relayed. -/
structure Good (s : state_t) : Prop where
  alive : s.main ≠ .killed
  master : ∀ fd, FD_ISSET fd s.master_set = some true ↔ fd = s.server_fd ∨ fd ∈ s.clients
  bounded : ∀ fd, FD_ISSET fd s.master_set = some true → fd ≤ s.max_fd
  relayed : ∀ r ∈ s.relays, Relayed r

/-- The next round of the scan calls `accept` or `recv` for the descriptor. -/
def Handles (s : state_t) (fd : Nat) : Prop :=
  s.main = .scanning fd ∧ fd ≤ s.max_fd ∧ FD_ISSET fd s.read_set = some true

/-- `accept` does not answer with a descriptor that is in use. -/
def Fresh (s : state_t) (out : outcome_t) : Prop :=
  Handles s s.server_fd → ∀ fd, out.accept = some fd → fd ≠ s.server_fd ∧ fd ∉ s.clients

/-- There is room in the set for the descriptor of a new client, and no client sends
anything. -/
structure Silent (s : state_t) (out : outcome_t) : Prop where
  accept : Handles s s.server_fd → ∀ fd, out.accept = some fd → fd < FD_SETSIZE
  recv : ∀ fd, Handles s fd → fd ≠ s.server_fd → ∀ data nonempty length_le,
    out.recv ≠ .bytes data nonempty length_le

/-- A condition is met at every step of the run. -/
def AlongRun (P : state_t → outcome_t → Prop) (server_fd : Nat) (outs : List outcome_t) : Prop :=
  ∀ first out rest, outs = first ++ out :: rest → ∀ s, run server_fd first = some s → P s out

section Sets

variable {set set' : fd_set} {fd : Nat}

theorem FD_ISSET_of_lt (hlt : fd < FD_SETSIZE) (set : fd_set) : ∃ b, FD_ISSET fd set = some b :=
  ⟨_, Vector.getElem?_eq_getElem hlt⟩

theorem lt_of_FD_ISSET {b : Bool} (h : FD_ISSET fd set = some b) : fd < FD_SETSIZE := by
  by_contra hle
  rw [FD_ISSET, Vector.getElem?_eq_none (Nat.le_of_not_lt hle)] at h
  cases h

theorem lt_of_FD_SET (h : FD_SET fd set = some set') : fd < FD_SETSIZE := by
  by_contra hle
  rw [FD_SET, dif_neg hle] at h
  cases h

theorem FD_SET_of_lt (hlt : fd < FD_SETSIZE) (set : fd_set) : ∃ set', FD_SET fd set = some set' ∧
    ∀ other, FD_ISSET other set' = some true ↔ other = fd ∨ FD_ISSET other set = some true := by
  refine ⟨_, dif_pos hlt, fun other => ?_⟩
  rw [FD_ISSET, FD_ISSET, Vector.getElem?_set]
  by_cases heq : fd = other
  · rw [if_pos heq]
    exact iff_of_true rfl (Or.inl heq.symm)
  · rw [if_neg heq, or_iff_right (Ne.symm heq)]

theorem FD_CLR_of_lt (hlt : fd < FD_SETSIZE) (set : fd_set) : ∃ set', FD_CLR fd set = some set' ∧
    ∀ other, FD_ISSET other set' = some true ↔ other ≠ fd ∧ FD_ISSET other set = some true := by
  refine ⟨_, dif_pos hlt, fun other => ?_⟩
  rw [FD_ISSET, FD_ISSET, Vector.getElem?_set]
  by_cases heq : fd = other
  · rw [if_pos heq]
    exact iff_of_false (by simp) fun h => h.1 heq.symm
  · rw [if_neg heq, and_iff_right (Ne.symm heq)]

/-- A broadcast does not get beyond a socket that raises `SIGPIPE`. -/
theorem broadcast_loop_killed {sender_fd : Nat} {clients : fd_set} {msg : List UInt8} {sigpipe : Nat → Bool}
    {fds : List Nat} {sends : List send_t} {ends : Bool} (hmem : fd ∈ fds) (hset : FD_ISSET fd clients = some true)
    (hne : fd ≠ sender_fd) (hraises : sigpipe fd = true)
    (h : broadcast_loop sender_fd clients msg sigpipe fds = some (sends, ends)) : ends = false := by
  induction fds generalizing sends with
  | nil => cases hmem
  | cons first fds ih =>
    obtain ⟨set, hfirst, h⟩ := Option.bind_eq_some_iff.mp h
    obtain rfl | hmem := List.mem_cons.mp hmem
    · obtain rfl : set = true := Option.some.inj (hfirst.symm.trans hset)
      simp only [hne, ne_eq, not_false_eq_true, decide_true, Bool.and_self, if_true, hraises] at h
      exact (Prod.mk.inj (Option.some.inj h)).2.symm
    · split at h
      · split at h
        · exact (Prod.mk.inj (Option.some.inj h)).2.symm
        · obtain ⟨⟨later, ends'⟩, hlater, h⟩ := Option.bind_eq_some_iff.mp h
          obtain ⟨-, rfl⟩ := Prod.mk.inj (Option.some.inj h)
          exact ih hmem hlater
      · exact ih hmem h

end Sets

/-- What holds between any two rounds. -/
structure Held (s : state_t) : Prop where
  good : Good s
  max_lt : s.max_fd < FD_SETSIZE
  nodup : s.clients.Nodup
  server : s.server_fd ∉ s.clients

/-- The descriptors that are still to be scanned are in use. -/
def Scanned (s : state_t) (first : Nat) : Prop :=
  ∀ fd, first ≤ fd → FD_ISSET fd s.read_set = some true → FD_ISSET fd s.master_set = some true

section Scan

variable {s : state_t} {fd : Nat}

theorem Held.set_main (h : Held s) {main : main_t} (hmain : main ≠ .killed) : Held { s with main := main } :=
  ⟨⟨hmain, h.good.master, h.good.bounded, h.good.relayed⟩, h.max_lt, h.nodup, h.server⟩

/-- A new client. -/
theorem Held.accept_client (h : Held s) (hscanned : Scanned s (fd + 1)) {accept : Option Nat}
    (hfresh : ∀ client_fd, accept = some client_fd → client_fd ≠ s.server_fd ∧ client_fd ∉ s.clients)
    (hfits : ∀ client_fd, accept = some client_fd → client_fd < FD_SETSIZE) :
    ∃ s', accept_client s accept = some s' ∧ Held s' ∧ Scanned s' (fd + 1) := by
  cases accept with
  | none => exact ⟨s, rfl, h, hscanned⟩
  | some client_fd =>
    obtain ⟨hserver, hnew⟩ := hfresh client_fd rfl
    obtain ⟨set', hset, hisset⟩ := FD_SET_of_lt (hfits client_fd rfl) s.master_set
    have hmax : s.max_fd ≤ (if client_fd > s.max_fd then client_fd else s.max_fd) ∧
        client_fd ≤ (if client_fd > s.max_fd then client_fd else s.max_fd) := by
      split <;> omega
    have haccept : chat_server.accept_client s (some client_fd) = some { s with
        master_set := set'
        max_fd := if client_fd > s.max_fd then client_fd else s.max_fd
        clients := client_fd :: s.clients } := by
      rw [chat_server.accept_client, hset]
      rfl
    refine ⟨_, haccept, ⟨⟨h.good.alive, ?_, ?_, h.good.relayed⟩, ?_, ?_, ?_⟩, ?_⟩
    · intro other
      rw [hisset, h.good.master, List.mem_cons]
      exact or_left_comm
    · intro other hother
      rcases (hisset other).mp hother with rfl | hold
      · exact hmax.2
      · exact Nat.le_trans (h.good.bounded other hold) hmax.1
    · dsimp only
      split
      · exact hfits client_fd rfl
      · exact h.max_lt
    · exact List.nodup_cons.mpr ⟨hnew, h.nodup⟩
    · exact fun hmem => (List.mem_cons.mp hmem).elim (fun heq => hserver heq.symm) h.server
    · intro other hle hread
      exact (hisset other).mpr (Or.inr (hscanned other hle hread))

/-- The end of a connection. -/
theorem Held.close_client (h : Held s) (hscanned : Scanned s (fd + 1)) (hclient : fd ∈ s.clients) :
    ∃ s', close_client s fd = some s' ∧ Held s' ∧ Scanned s' (fd + 1) := by
  have hset := (h.good.master fd).mpr (Or.inr hclient)
  obtain ⟨set', hclr, hcleared⟩ := FD_CLR_of_lt (lt_of_FD_ISSET hset) s.master_set
  have hclose : chat_server.close_client s fd =
      some { s with master_set := set', clients := s.clients.erase fd } := by
    rw [chat_server.close_client, hclr]
    rfl
  refine ⟨_, hclose, ⟨⟨h.good.alive, ?_, ?_, h.good.relayed⟩, h.max_lt, h.nodup.erase fd, ?_⟩, ?_⟩
  · intro other
    rw [hcleared, h.good.master, h.nodup.mem_erase_iff]
    constructor
    · rintro ⟨hne, heq | hmem⟩
      · exact Or.inl heq
      · exact Or.inr ⟨hne, hmem⟩
    · rintro (rfl | ⟨hne, hmem⟩)
      · exact ⟨fun heq => h.server (heq ▸ hclient), Or.inl rfl⟩
      · exact ⟨hne, Or.inr hmem⟩
  · exact fun other hother => h.good.bounded other ((hcleared other).mp hother).2
  · exact fun hmem => h.server (List.mem_of_mem_erase hmem)
  · intro other hle hread
    exact (hcleared other).mpr ⟨by omega, hscanned other (by omega) hread⟩

/-- The part of the scan for a client that has not sent anything. -/
theorem Held.receive (h : Held s) (hscanned : Scanned s (fd + 1)) (hclient : fd ∈ s.clients) {out : outcome_t}
    (hsilent : ∀ data nonempty length_le, out.recv ≠ .bytes data nonempty length_le) :
    ∃ s', receive s fd out = some s' ∧ Held s' ∧ Scanned s' (fd + 1) := by
  rw [chat_server.receive]
  cases hrecv : out.recv with
  | failed => exact h.close_client hscanned hclient
  | closed => exact h.close_client hscanned hclient
  | bytes data nonempty length_le => exact absurd hrecv (hsilent data nonempty length_le)

/-- A message does not leave the server alive: its relay gets to the listening socket. -/
theorem Good.receive (h : Good s) (hclient : fd ≠ s.server_fd) {out : outcome_t} {data : List UInt8}
    {nonempty : data ≠ []} {length_le : data.length ≤ BUFFER_SIZE} (hrecv : out.recv = .bytes data nonempty length_le)
    {s' : state_t} (hreceive : receive s fd out = some s') : s'.main = .killed := by
  rw [chat_server.receive, hrecv] at hreceive
  obtain ⟨buffer, -, hreceive⟩ := Option.bind_eq_some_iff.mp hreceive
  obtain ⟨⟨sends, ends⟩, hbroadcast, hreceive⟩ := Option.bind_eq_some_iff.mp hreceive
  have hset := (h.master s.server_fd).mpr (Or.inl rfl)
  have hle := h.bounded s.server_fd hset
  have hraises : sigpipe s out s.server_fd = true := by simp [sigpipe]
  obtain rfl : ends = false := broadcast_loop_killed (List.mem_range.mpr (Nat.lt_succ_of_le hle)) hset
    hclient.symm hraises hbroadcast
  exact Option.some.inj hreceive ▸ rfl

end Scan

/-- What holds in front of `select` and of every round of the scan. -/
structure Inv (s : state_t) : Prop where
  held : Held s
  scanned : ∀ first, s.main = .scanning first → Scanned s first

section Step

variable {s : state_t} {out : outcome_t}

theorem Inv.scan (h : Inv s) {fd : Nat} (hmain : s.main = .scanning fd) (hle : fd ≤ s.max_fd) (hfresh : Fresh s out)
    (hsilent : Silent s out) : ∃ s', scan s fd out = some s' ∧ Held s' ∧ Scanned s' (fd + 1) := by
  have hlater : Scanned s (fd + 1) := fun other hother => h.scanned fd hmain other (by omega)
  obtain ⟨b, hisset⟩ := FD_ISSET_of_lt (Nat.lt_of_le_of_lt hle h.held.max_lt) s.read_set
  rw [chat_server.scan, hisset, Option.bind_eq_bind, Option.bind_some]
  cases b with
  | false => exact ⟨s, rfl, h.held, hlater⟩
  | true =>
    rw [if_pos rfl]
    have hhandles : Handles s fd := ⟨hmain, hle, hisset⟩
    split
    · next hserver =>
      subst hserver
      exact h.held.accept_client hlater (hfresh hhandles) (hsilent.accept hhandles)
    · next hserver =>
      have hopen := (h.held.good.master fd).mp (h.scanned fd hmain fd (Nat.le_refl fd) hisset)
      exact h.held.receive hlater (hopen.resolve_left hserver) (hsilent.recv fd hhandles hserver)

theorem Inv.step (h : Inv s) (hfresh : Fresh s out) (hsilent : Silent s out) : ∃ s', step s out = some s' ∧ Inv s' := by
  cases hmain : s.main with
  | selecting =>
    cases hselect : out.select with
    | none =>
      refine ⟨{ s with read_set := s.master_set }, by rw [chat_server.step, hmain, hselect],
        ⟨⟨h.held.good.alive, h.held.good.master, h.held.good.bounded, h.held.good.relayed⟩, h.held.max_lt,
          h.held.nodup, h.held.server⟩, ?_⟩
      exact fun first hfirst fd hle hread => hread
    | some ready =>
      have hstep : chat_server.step s out = some { s with
          read_set := Vector.ofFn fun fd => s.master_set[fd] && ready fd
          main := .scanning 0 } := by
        rw [chat_server.step, hmain, hselect]
      refine ⟨_, hstep,
        ⟨⟨(fun heq => by cases heq), h.held.good.master, h.held.good.bounded, h.held.good.relayed⟩, h.held.max_lt,
          h.held.nodup, h.held.server⟩, ?_⟩
      intro first _ fd _ hread
      have hlt := lt_of_FD_ISSET hread
      rw [FD_ISSET, Vector.getElem?_eq_getElem hlt] at hread ⊢
      simp only [Vector.getElem_ofFn, Option.some.injEq, Bool.and_eq_true] at hread
      exact congrArg some hread.1
  | scanning fd =>
    by_cases hle : fd ≤ s.max_fd
    · obtain ⟨s', hscan, hheld, hscanned⟩ := h.scan hmain hle hfresh hsilent
      have hstep : chat_server.step s out = some { s' with main := .scanning (fd + 1) } := by
        rw [chat_server.step, hmain]
        dsimp only
        rw [if_pos hle, hscan, Option.bind_eq_bind, Option.bind_some, if_neg hheld.good.alive]
      refine ⟨_, hstep, hheld.set_main (fun heq => by cases heq), ?_⟩
      rintro first hfirst
      cases hfirst
      exact hscanned
    · have hstep : chat_server.step s out = some { s with main := .selecting } := by
        rw [chat_server.step, hmain]
        exact if_neg hle
      refine ⟨_, hstep, h.held.set_main (fun heq => by cases heq), ?_⟩
      intro first hfirst
      cases hfirst
  | killed => exact absurd hmain h.held.good.alive

private theorem scan_of_handles {s' : state_t} {fd : Nat} (hhandles : Handles s fd) (hstep : step s out = some s') :
    ∃ s₁, (if fd = s.server_fd then accept_client s out.accept else receive s fd out) = some s₁ ∧
      (s₁.main = .killed → s'.main = .killed) := by
  obtain ⟨hmain, hle, hisset⟩ := hhandles
  rw [step, hmain] at hstep
  dsimp only at hstep
  rw [if_pos hle, scan, hisset] at hstep
  obtain ⟨s₁, hscan, hstep⟩ := Option.bind_eq_some_iff.mp hstep
  refine ⟨s₁, hscan, fun hkilled => ?_⟩
  rw [if_pos hkilled] at hstep
  exact Option.some.inj hstep ▸ hkilled

/-- A step after which the server goes on had the room it needed, and received nothing. -/
theorem silent_of_step {s' : state_t} (h : Good s) (hstep : step s out = some s') (halive : s'.main ≠ .killed) :
    Silent s out := by
  refine ⟨fun hhandles fd haccept => ?_, fun fd hhandles hclient data nonempty length_le hrecv => ?_⟩
  · obtain ⟨s₁, hscan, -⟩ := scan_of_handles hhandles hstep
    rw [if_pos rfl, haccept] at hscan
    obtain ⟨set', hset, -⟩ := Option.bind_eq_some_iff.mp hscan
    exact lt_of_FD_SET hset
  · obtain ⟨s₁, hscan, hkilled⟩ := scan_of_handles hhandles hstep
    rw [if_neg hclient] at hscan
    exact halive (hkilled (h.receive hclient hrecv hscan))

end Step

theorem start_inv {server_fd : Nat} (hlt : server_fd < FD_SETSIZE) : ∃ s, start server_fd = some s ∧ Inv s := by
  obtain ⟨set', hset, hisset⟩ := FD_SET_of_lt hlt FD_ZERO
  have hzero (fd : Nat) : FD_ISSET fd FD_ZERO ≠ some true := by
    intro h
    rw [FD_ISSET, FD_ZERO, Vector.getElem?_replicate] at h
    split at h <;> cases h
  have hstart : start server_fd = some
      { server_fd := server_fd, master_set := set', read_set := FD_ZERO, max_fd := server_fd
        buffer := Vector.replicate BUFFER_SIZE 0, main := .selecting, clients := [], relays := [] } := by
    rw [start, hset]
    rfl
  have hmaster (fd : Nat) : FD_ISSET fd set' = some true ↔ fd = server_fd := by
    rw [hisset, or_iff_left (hzero fd)]
  refine ⟨_, hstart, ⟨⟨nofun, fun fd => ?_, fun fd hfd => ?_, nofun⟩, hlt, List.nodup_nil, nofun⟩, nofun⟩
  · rw [hmaster, or_iff_left List.not_mem_nil]
  · exact Nat.le_of_eq ((hmaster fd).mp hfd)

section Run

variable {server_fd : Nat} {outs : List outcome_t}

theorem run_append {s : state_t} (hrun : run server_fd outs = some s) (out : outcome_t) :
    run server_fd (outs ++ [out]) = step s out := by
  obtain ⟨s₀, hstart, hfold⟩ := Option.bind_eq_some_iff.mp hrun
  rw [run, hstart, Option.bind_eq_bind, Option.bind_some, List.foldlM_append, hfold]
  simp

theorem AlongRun.front {P : state_t → outcome_t → Prop} {first : List outcome_t} (h : AlongRun P server_fd outs)
    (hfront : first <+: outs) : AlongRun P server_fd first := by
  obtain ⟨rest, rfl⟩ := hfront
  rintro before out after rfl
  exact h before out (after ++ rest) (by simp)

/-- Every run in which nothing is received goes through. -/
theorem run_inv (hlt : server_fd < FD_SETSIZE) (hfresh : AlongRun Fresh server_fd outs)
    (hsilent : AlongRun Silent server_fd outs) : ∃ s, run server_fd outs = some s ∧ Inv s := by
  induction outs using List.reverseRecOn with
  | nil =>
    obtain ⟨s, hstart, h⟩ := start_inv hlt
    exact ⟨s, by rw [run, hstart]; rfl, h⟩
  | append_singleton outs out ih =>
    have hfront : outs <+: outs ++ [out] := List.prefix_append _ _
    obtain ⟨s, hrun, h⟩ := ih (hfresh.front hfront) (hsilent.front hfront)
    rw [run_append hrun]
    exact h.step (hfresh outs out [] rfl s hrun) (hsilent outs out [] rfl s hrun)

end Run

/-- The server relays every message, goes on, and stores nothing outside of its buffer or
its sets, exactly when no client ever sends anything and every descriptor fits into a
set: the first message ends it, with the `send` to the listening socket. -/
theorem relays_iff (server_fd : Nat) (outs : List outcome_t) (hfresh : AlongRun Fresh server_fd outs) :
    (∀ first, first <+: outs → ∃ s, run server_fd first = some s ∧ Good s) ↔
      server_fd < FD_SETSIZE ∧ AlongRun Silent server_fd outs := by
  constructor
  · intro hgood
    refine ⟨?_, ?_⟩
    · obtain ⟨s, hrun, -⟩ := hgood [] List.nil_prefix
      obtain ⟨s₀, hstart, -⟩ := Option.bind_eq_some_iff.mp hrun
      obtain ⟨set', hset, -⟩ := Option.bind_eq_some_iff.mp hstart
      exact lt_of_FD_SET hset
    · rintro first out rest rfl s hrun
      obtain ⟨s₁, hrun₁, h⟩ := hgood first (List.prefix_append _ _)
      obtain rfl := Option.some.inj (hrun₁.symm.trans hrun)
      obtain ⟨s', hrun', h'⟩ := hgood (first ++ [out]) ⟨rest, by simp⟩
      exact silent_of_step h ((run_append hrun out).symm.trans hrun') h'.alive
  · rintro ⟨hlt, hsilent⟩ first hfront
    obtain ⟨s, hrun, h⟩ := run_inv hlt (hfresh.front hfront) (hsilent.front hfront)
    exact ⟨s, hrun, h.held.good⟩

section Examples

instance (s : state_t) (fd : Nat) : Decidable (Handles s fd) := inferInstanceAs (Decidable (_ ∧ _ ∧ _))

instance (s : state_t) (out : outcome_t) : Decidable (Fresh s out) :=
  inferInstanceAs (Decidable (Handles s s.server_fd → ∀ fd ∈ out.accept, fd ≠ s.server_fd ∧ fd ∉ s.clients))

instance (P : state_t → outcome_t → Prop) [∀ s out, Decidable (P s out)] (server_fd : Nat) (outs : List outcome_t) :
    Decidable (AlongRun P server_fd outs) :=
  decidable_of_iff (∀ k : Fin outs.length, ∀ s ∈ run server_fd (outs.take k), P s outs[k])
    ⟨fun h first out rest hsplit s hrun => by
      subst hsplit
      simpa using h ⟨first.length, by simp⟩ s (by simpa using hrun),
    fun h k s hrun => h (outs.take k) outs[k] (outs.drop (k + 1)) (by simp) s hrun⟩

def idle : outcome_t := ⟨none, none, .failed, fun _ => false⟩
def reported (fd : Nat) : outcome_t := { idle with select := some fun other => other == fd }
def accepted (fd : Nat) : outcome_t := { idle with accept := some fd }
def message (msg : List UInt8) (nonempty : msg ≠ []) (length_le : msg.length ≤ BUFFER_SIZE) : outcome_t :=
  { idle with recv := .bytes msg nonempty length_le }

/-- Two clients connect, one after the other. -/
def two_connect : List outcome_t :=
  reported 3 :: List.replicate 3 idle ++ accepted 4 :: List.replicate 2 idle ++
    reported 3 :: List.replicate 3 idle ++ accepted 5 :: List.replicate 3 idle

/-- Then the first of them is about to be read from. -/
def first_reported : List outcome_t := two_connect ++ reported 4 :: List.replicate 4 idle

/-- And then it sends "hi". -/
def first_message : List outcome_t := first_reported ++ [message [104, 105] (by simp) (by decide)]

theorem fresh_first_message : AlongRun Fresh 3 first_message := by decide +kernel

theorem relays_iff_two_clients :
    (∀ first, first <+: first_reported → ∃ s, run 3 first = some s ∧ Good s) ∧
      ¬ ∀ first, first <+: first_message → ∃ s, run 3 first = some s ∧ Good s := by
  have hfresh : AlongRun Fresh 3 first_reported := fresh_first_message.front (List.prefix_append _ _)
  refine ⟨(relays_iff 3 _ hfresh).mpr ⟨by decide, ?_⟩, fun hgood => ?_⟩
  · rintro first out rest hsplit s -
    have hout : out ∈ first_reported := by simp [hsplit]
    have hquiet : ∀ out ∈ first_reported, (∀ fd ∈ out.accept, fd < FD_SETSIZE) ∧ out.recv = .failed := by decide
    obtain ⟨haccept, hrecv⟩ := hquiet out hout
    exact ⟨fun _ => haccept, fun fd _ _ data nonempty length_le heq => by rw [hrecv] at heq; cases heq⟩
  · obtain ⟨-, hsilent⟩ := (relays_iff 3 _ fresh_first_message).mp hgood
    have hhandles : (run 3 first_reported).map (fun s => decide (Handles s 4 ∧ 4 ≠ s.server_fd)) = some true := by
      decide +kernel
    obtain ⟨s, hrun, hhandles⟩ := Option.map_eq_some_iff.mp hhandles
    obtain ⟨hhandles, hclient⟩ := of_decide_eq_true hhandles
    exact (hsilent first_reported _ [] rfl s hrun).recv 4 hhandles hclient _ _ _ rfl

/-- A message as long as the buffer. -/
def full_message : outcome_t :=
  message (List.replicate BUFFER_SIZE 0) (List.cons_ne_nil _ _) (Nat.le_of_eq List.length_replicate)

/-- The relay of the first message ends the server before it reaches the other client, and
a message of 1024 bytes is answered by a store to `buffer[1024]` even before. -/
theorem first_message_kills :
    (run 3 first_message).map (fun s => (s.main, s.relays.map fun r => (r.sender, r.clients, r.sends.map send_t.fd))) =
      some (.killed, [(4, [5, 4], [3])]) ∧
    (run 3 (first_reported ++ [full_message])).isSome = false ∧
    ¬ ∀ outs, AlongRun Fresh 3 outs → ∃ s, run 3 outs = some s ∧ Good s := by
  have hkilled : (run 3 first_message).map (fun s =>
      (s.main, s.relays.map fun r => (r.sender, r.clients, r.sends.map send_t.fd))) =
      some (.killed, [(4, [5, 4], [3])]) := by
    decide +kernel
  refine ⟨hkilled, by decide +kernel, fun hall => ?_⟩
  obtain ⟨s, hrun, h⟩ := hall _ fresh_first_message
  rw [hrun] at hkilled
  exact h.alive (Prod.mk.inj (Option.some.inj hkilled)).1

end Examples

end csystems.chat_server
