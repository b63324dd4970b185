import CSystems.ChatServer.Relay
import CSystems.Lib.Run

open clib.run
open csystems.chat_server (fd_set FD_SETSIZE FD_ZERO FD_ISSET FD_SET FD_CLR FD_ISSET_of_lt FD_SET_of_lt FD_CLR_of_lt
  lt_of_FD_SET lt_of_FD_ISSET)

namespace csystems.echo_server

def BUFFER_SIZE : Nat := 1024

/-- A call of `send`: the bytes it was given, and how many of them it took. -/
structure send_t where
  bytes : List UInt8
  taken : Nat
  deriving DecidableEq

/-- A connection, as its client sees it. -/
structure connection_t where
  /-- What the client has sent. -/
  sent : List UInt8
  /-- What of it the server has not received. -/
  input : List UInt8
  sends : List send_t
  /-- The client has closed its end. -/
  gone : Bool
  deriving DecidableEq

/-- What the server has sent back. -/
def connection_t.echoed (c : connection_t) : List UInt8 := c.sends.flatMap fun call => call.bytes.take call.taken

/-- Some call of `send` took less than it was given. -/
def connection_t.Cut (c : connection_t) : Prop := ∃ call ∈ c.sends, call.taken < call.bytes.length

/-- Where the loop of `main` is; `SIGPIPE` ends the process. -/
inductive main_t where
  | selecting
  | scanning (fd : Nat)
  | killed
  deriving DecidableEq

/-- The variables of `main`, the connections behind its descriptors, and the descriptors
it has handled since the last `select`. -/
structure state_t where
  server_fd : Nat
  master_set : fd_set
  read_set : fd_set
  max_fd : Nat
  main : main_t
  files : Nat → Option Nat
  accepted : Nat
  connection : Nat → connection_t
  handled : List Nat

/-- The server before its first `select`. -/
def start (server_fd : Nat) : Option state_t := do
  let master_set ← FD_SET server_fd FD_ZERO
  some { server_fd := server_fd
         master_set := master_set
         read_set := FD_ZERO
         max_fd := server_fd
         main := .selecting
         files := fun _ => none
         accepted := 0
         connection := fun _ => ⟨[], [], [], false⟩
         handled := [] }

/-- How `recv` ends. -/
inductive recv_t where
  | failed
  | closed
  | bytes (count : Nat)
  deriving DecidableEq

/-- What the calls of a round find: the descriptor of the client that is accepted, if
there is one; how `recv` ends; how many bytes `send` takes, and whether it finds that the
client has closed its end. -/
structure outcome_t where
  accept : Option Nat
  recv : recv_t
  send : Nat
  reset : Bool
  deriving DecidableEq

/-- A client sends or closes its end, or the server executes a `select` that succeeds or a
round of its scan. The clients are numbered in the order in which they are accepted; they
may send before that. -/
inductive event_t where
  | client (k : Nat) (data : List UInt8)
  | leave (k : Nat)
  | select (ready : Nat → Bool)
  | scan (out : outcome_t)

/-- A new descriptor is one that is not in use. -/
def state_t.Unused (s : state_t) (client_fd : Nat) : Prop := client_fd ≠ s.server_fd ∧ s.files client_fd = none

instance (s : state_t) (client_fd : Nat) : Decidable (s.Unused client_fd) := by
  unfold state_t.Unused
  infer_instance

/-- What `recv` on a connection can do. -/
def connection_t.Offers (c : connection_t) : recv_t → Prop
  | .failed => True
  | .closed => c.input = [] ∧ c.gone = true
  | .bytes count => 0 < count ∧ count ≤ BUFFER_SIZE ∧ count ≤ c.input.length

instance (c : connection_t) (recv : recv_t) : Decidable (c.Offers recv) := by
  cases recv <;> unfold connection_t.Offers <;> infer_instance

/-- The part of the scan for the listening socket. -/
def accept_client (s : state_t) : Option Nat → Option state_t
  | none => some s
  | some client_fd =>
    if s.Unused client_fd then do
      let master_set ← FD_SET client_fd s.master_set
      some { s with
        master_set := master_set
        max_fd := if client_fd > s.max_fd then client_fd else s.max_fd
        files := Function.update s.files client_fd (some s.accepted)
        accepted := s.accepted + 1 }
    else none

/-- The end of a connection. -/
def close_client (s : state_t) (fd : Nat) : Option state_t := do
  let master_set ← FD_CLR fd s.master_set
  some { s with master_set := master_set, files := Function.update s.files fd none }

/-- The connection after `recv` and `send`. -/
def connection_t.echo (c : connection_t) (count taken : Nat) : connection_t :=
  { c with
    input := c.input.drop count
    sends := c.sends ++ [⟨c.input.take count, min count taken⟩] }

/-- `send` to a client that is gone raises `SIGPIPE` once the client's system has answered. -/
def connection_t.sigpipe (c : connection_t) (out : outcome_t) : Bool := c.gone && out.reset

/-- The part of the scan for a client. -/
def echo_client (s : state_t) (fd : Nat) (out : outcome_t) : Option state_t :=
  match s.files fd with
  | none => close_client s fd
  | some k =>
    if (s.connection k).Offers out.recv then
      match out.recv with
      | .failed | .closed => close_client s fd
      | .bytes count => some { s with
          main := if (s.connection k).sigpipe out then .killed else s.main
          connection := Function.update s.connection k
            ((s.connection k).echo count (if (s.connection k).sigpipe out then 0 else out.send)) }
    else none

/-- The body of the scan. -/
def scan (s : state_t) (fd : Nat) (out : outcome_t) : Option state_t := do
  if ← FD_ISSET fd s.read_set then
    let s := { s with handled := s.handled ++ [fd] }
    if fd = s.server_fd then accept_client s out.accept else echo_client s fd out
  else some s

/-- The loop goes on, unless the process has ended. -/
def next (s : state_t) (main : main_t) : state_t := if s.main = .killed then s else { s with main := main }

def step (s : state_t) : event_t → Option state_t
  | .client k data =>
    if (s.connection k).gone then none
    else some { s with
      connection := Function.update s.connection k { s.connection k with
        sent := (s.connection k).sent ++ data
        input := (s.connection k).input ++ data } }
  | .leave k =>
    if (s.connection k).gone then none
    else some { s with connection := Function.update s.connection k { s.connection k with gone := true } }
  | .select ready =>
    if s.main = .selecting then some { s with
      read_set := s.master_set.mapIdx fun fd isset => isset && ready fd
      main := .scanning 0
      handled := [] }
    else none
  | .scan out =>
    match s.main with
    | .scanning fd =>
      if fd ≤ s.max_fd then (scan s fd out).map fun s => next s (.scanning (fd + 1))
      else some { s with main := .selecting }
    | _ => none

/-- The server hands all it receives to `send`, once and in order. So what comes back is
what the client sent, in order, and it is all of it, up to what is still to be received,
exactly if no call of `send` took too little. -/
structure connection_t.Echoes (c : connection_t) : Prop where
  given : c.sends.flatMap send_t.bytes ++ c.input = c.sent
  order : (c.echoed ++ c.input).Sublist c.sent
  whole : ¬ c.Cut → c.echoed ++ c.input = c.sent
  less : c.Cut → c.echoed.length + c.input.length < c.sent.length

section Connection

theorem echoed_sublist (sends : List send_t) :
    (sends.flatMap fun call => call.bytes.take call.taken).Sublist (sends.flatMap send_t.bytes) := by
  induction sends with
  | nil => exact List.Sublist.refl _
  | cons call sends ih =>
    rw [List.flatMap_cons, List.flatMap_cons]
    exact (List.take_sublist ..).append ih

theorem echoed_eq {sends : List send_t} (hwhole : ∀ call ∈ sends, call.bytes.length ≤ call.taken) :
    (sends.flatMap fun call => call.bytes.take call.taken) = sends.flatMap send_t.bytes :=
  List.flatMap_congr fun call hcall => List.take_of_length_le (hwhole call hcall)

theorem length_echoed_lt {sends : List send_t} {call : send_t} (hcall : call ∈ sends)
    (hless : call.taken < call.bytes.length) :
    (sends.flatMap fun call => call.bytes.take call.taken).length < (sends.flatMap send_t.bytes).length := by
  obtain ⟨before, after, rfl⟩ := List.append_of_mem hcall
  have hbefore := (echoed_sublist before).length_le
  have hafter := (echoed_sublist after).length_le
  simp only [List.flatMap_append, List.flatMap_cons, List.length_append, List.length_take] at hbefore hafter ⊢
  omega

variable {c : connection_t}

/-- All that is to be kept is that what was received was handed on. -/
theorem connection_t.Echoes.of_given (h : c.sends.flatMap send_t.bytes ++ c.input = c.sent) : c.Echoes where
  given := h
  order := h ▸ (echoed_sublist c.sends).append (List.Sublist.refl c.input)
  whole hnot := by
    rw [← h, connection_t.echoed, echoed_eq fun call hcall => Nat.le_of_not_lt fun hless => hnot ⟨call, hcall, hless⟩]
  less hcut := by
    obtain ⟨call, hcall, hless⟩ := hcut
    have hlt := length_echoed_lt hcall hless
    rw [← h, List.length_append]
    exact Nat.add_lt_add_right hlt _

theorem connection_t.Echoes.client (h : c.Echoes) (data : List UInt8) :
    ({ c with sent := c.sent ++ data, input := c.input ++ data } : connection_t).Echoes :=
  .of_given (by rw [← List.append_assoc, h.given])

theorem connection_t.Echoes.echo (h : c.Echoes) (count taken : Nat) : (c.echo count taken).Echoes := by
  refine .of_given ?_
  rw [connection_t.echo, List.flatMap_append, List.flatMap_singleton, List.append_assoc, List.take_append_drop]
  exact h.given

end Connection

/-- `master_set` is the listening socket and the connections that are open, and each
connection has one descriptor. -/
structure Held (s : state_t) : Prop where
  master : ∀ fd, FD_ISSET fd s.master_set = some true ↔ fd = s.server_fd ∨ s.files fd ≠ none
  bounded : ∀ fd, FD_ISSET fd s.master_set = some true → fd ≤ s.max_fd
  max_lt : s.max_fd < FD_SETSIZE
  server : s.files s.server_fd = none
  owner : ∀ fd k, s.files fd = some k → k < s.accepted
  apart : ∀ fd fd' k, s.files fd = some k → s.files fd' = some k → fd = fd'
  echoes : ∀ k, (s.connection k).Echoes
  killed : s.main = .killed → ∃ k, (s.connection k).gone = true ∧ (s.connection k).Cut

/-- The descriptors that are still to be scanned are in use. -/
def Scanned (s : state_t) (first : Nat) : Prop :=
  ∀ fd, first ≤ fd → FD_ISSET fd s.read_set = some true → FD_ISSET fd s.master_set = some true

/-- The descriptors below this one that `select` has reported. -/
def reported (s : state_t) (first : Nat) : List Nat :=
  (List.range first).filter fun fd => decide (FD_ISSET fd s.read_set = some true)

section Scan

variable {s : state_t} {fd : Nat}

theorem Held.accept_client (h : Held s) (hscanned : Scanned s (fd + 1)) {accept : Option Nat}
    (hunused : ∀ client_fd, accept = some client_fd → s.Unused client_fd)
    (hroom : ∀ client_fd, accept = some client_fd → client_fd < FD_SETSIZE) :
    ∃ s', accept_client s accept = some s' ∧ Held s' ∧ Scanned s' (fd + 1) ∧ s'.read_set = s.read_set ∧
      s'.main = s.main ∧ s'.handled = s.handled := by
  cases accept with
  | none => exact ⟨s, rfl, h, hscanned, rfl, rfl, rfl⟩
  | some client_fd =>
    obtain ⟨hserver, hnew⟩ := hunused client_fd rfl
    have hlt := hroom client_fd rfl
    obtain ⟨set', hset, hisset⟩ := FD_SET_of_lt hlt s.master_set
    have hmax : s.max_fd ≤ (if client_fd > s.max_fd then client_fd else s.max_fd) ∧
        client_fd ≤ (if client_fd > s.max_fd then client_fd else s.max_fd) := by
      split <;> omega
    have haccept : echo_server.accept_client s (some client_fd) = some { s with
        master_set := set'
        max_fd := if client_fd > s.max_fd then client_fd else s.max_fd
        files := Function.update s.files client_fd (some s.accepted)
        accepted := s.accepted + 1 } := by
      rw [echo_server.accept_client, if_pos ⟨hserver, hnew⟩, hset]
      rfl
    refine ⟨_, haccept, ⟨?_, ?_, ?_, ?_, ?_, ?_, h.echoes, h.killed⟩, ?_, rfl, rfl, rfl⟩
    · intro other
      rw [hisset, h.master]
      by_cases heq : other = client_fd
      · simp [heq]
      · simp [heq]
    · intro other hother
      obtain rfl | hold := (hisset other).mp hother
      · exact hmax.2
      · exact Nat.le_trans (h.bounded other hold) hmax.1
    · dsimp only
      split
      · exact hlt
      · exact h.max_lt
    · dsimp only
      rw [Function.update_of_ne (Ne.symm hserver), h.server]
    · intro other k hk
      by_cases heq : other = client_fd
      · subst heq
        dsimp only at hk ⊢
        rw [Function.update_self] at hk
        obtain rfl := Option.some.inj hk
        exact Nat.lt_succ_self _
      · dsimp only at hk ⊢
        rw [Function.update_of_ne heq] at hk
        exact Nat.lt_succ_of_lt (h.owner other k hk)
    · intro first second k hfirst hsecond
      dsimp only at hfirst hsecond
      rw [Function.update_apply] at hfirst hsecond
      split at hfirst <;> split at hsecond
      · next h₁ h₂ => rw [h₁, h₂]
      · obtain rfl := Option.some.inj hfirst
        exact absurd (h.owner second _ hsecond) (Nat.lt_irrefl _)
      · obtain rfl := Option.some.inj hsecond
        exact absurd (h.owner first _ hfirst) (Nat.lt_irrefl _)
      · exact h.apart first second k hfirst hsecond
    · intro other hle hread
      exact (hisset other).mpr (Or.inr (hscanned other hle hread))

theorem Held.close_client (h : Held s) (hscanned : Scanned s (fd + 1)) (hopen : s.files fd ≠ none) :
    ∃ s', close_client s fd = some s' ∧ Held s' ∧ Scanned s' (fd + 1) ∧ s'.read_set = s.read_set ∧ s'.main = s.main ∧
      s'.handled = s.handled := by
  have hset := (h.master fd).mpr (Or.inr hopen)
  obtain ⟨set', hclr, hcleared⟩ := FD_CLR_of_lt (lt_of_FD_ISSET hset) s.master_set
  have hclose : echo_server.close_client s fd =
      some { s with master_set := set', files := Function.update s.files fd none } := by
    rw [echo_server.close_client, hclr]
    rfl
  have hold {other k : Nat} (hk : Function.update s.files fd none other = some k) : s.files other = some k := by
    rw [Function.update_apply] at hk
    split at hk
    · cases hk
    · exact hk
  refine ⟨_, hclose, ⟨?_, ?_, h.max_lt, ?_, ?_, ?_, h.echoes, h.killed⟩, ?_, rfl, rfl, rfl⟩
  · intro other
    rw [hcleared, h.master]
    dsimp only
    by_cases heq : other = fd
    · subst heq
      rw [Function.update_self]
      refine iff_of_false (fun hne => hne.1 rfl) ?_
      rintro (rfl | hnone)
      · exact hopen h.server
      · exact hnone rfl
    · rw [Function.update_of_ne heq, and_iff_right heq]
  · exact fun other hother => h.bounded other ((hcleared other).mp hother).2
  · dsimp only
    rw [Function.update_apply]
    split
    · rfl
    · exact h.server
  · exact fun other k hk => h.owner other k (hold hk)
  · exact fun first second k hfirst hsecond => h.apart first second k (hold hfirst) (hold hsecond)
  · exact fun other hle hread => (hcleared other).mpr ⟨by omega, hscanned other (by omega) hread⟩

/-- What happens to one connection. -/
theorem Held.set_connection (h : Held s) {k : Nat} {c : connection_t} (hc : c.Echoes) (main : main_t)
    (hgone : main = .killed → c.gone = true ∧ c.Cut ∨
      s.main = .killed ∧ ((s.connection k).gone = true ∧ (s.connection k).Cut → c.gone = true ∧ c.Cut)) :
    Held { s with main := main, connection := Function.update s.connection k c } where
  master := h.master
  bounded := h.bounded
  max_lt := h.max_lt
  server := h.server
  owner := h.owner
  apart := h.apart
  echoes := forall_update h.echoes hc
  killed hmain := by
    dsimp only
    obtain hnow | ⟨hkilled, hkeep⟩ := hgone hmain
    · exact ⟨k, by rwa [Function.update_self]⟩
    · obtain ⟨other, hother⟩ := h.killed hkilled
      refine ⟨other, ?_⟩
      by_cases heq : other = k
      · subst heq
        rw [Function.update_self]
        exact hkeep hother
      · rwa [Function.update_of_ne heq]

theorem Held.set_main (h : Held s) {main : main_t} (hmain : main ≠ .killed) : Held { s with main := main } where
  master := h.master
  bounded := h.bounded
  max_lt := h.max_lt
  server := h.server
  owner := h.owner
  apart := h.apart
  echoes := h.echoes
  killed heq := absurd heq hmain

/-- What a connection does that is open and was reported. -/
theorem Held.echo_client (h : Held s) (hscanned : Scanned s (fd + 1)) {out : outcome_t} {k : Nat}
    (hk : s.files fd = some k) (hoffers : (s.connection k).Offers out.recv) (hmain : s.main ≠ .killed) :
    ∃ s', echo_client s fd out = some s' ∧ Held s' ∧ Scanned s' (fd + 1) ∧ s'.read_set = s.read_set ∧
      (s'.main = s.main ∨ s'.main = .killed) ∧ s'.handled = s.handled := by
  have hopen : s.files fd ≠ none := by
    rw [hk]
    exact Option.some_ne_none k
  rw [echo_server.echo_client, hk]
  dsimp only
  rw [if_pos hoffers]
  obtain ⟨s', hclose, hheld, hscanned', hread, hsame, hhandled⟩ := h.close_client hscanned hopen
  cases hrecv : out.recv with
  | failed => exact ⟨s', hclose, hheld, hscanned', hread, Or.inl hsame, hhandled⟩
  | closed => exact ⟨s', hclose, hheld, hscanned', hread, Or.inl hsame, hhandled⟩
  | bytes count =>
    rw [hrecv] at hoffers
    refine ⟨_, rfl, h.set_connection ((h.echoes k).echo count _) _ fun hkilled => Or.inl ?_, hscanned, rfl,
      ?_, rfl⟩
    · cases hsigpipe : (s.connection k).sigpipe out with
      | false =>
        rw [hsigpipe] at hkilled
        exact absurd hkilled hmain
      | true =>
        obtain ⟨hpos, -, hle⟩ := hoffers
        refine ⟨(Bool.and_eq_true_iff.mp hsigpipe).1, ⟨(s.connection k).input.take count, 0⟩,
          by simp [connection_t.echo], ?_⟩
        change 0 < ((s.connection k).input.take count).length
        rw [List.length_take]
        omega
    · dsimp only
      split
      · exact Or.inr rfl
      · exact Or.inl rfl

end Scan

/-- The outcome is one that the calls of the next round of the scan can have. -/
def Possible (s : state_t) (fd : Nat) (out : outcome_t) : Prop :=
  FD_ISSET fd s.read_set = some true →
    if fd = s.server_fd then ∀ client_fd, out.accept = some client_fd → s.Unused client_fd
    else ∀ k, s.files fd = some k → (s.connection k).Offers out.recv

/-- There is room in the set for the descriptor that `accept` returns. -/
def Fits (s : state_t) (fd : Nat) (out : outcome_t) : Prop :=
  FD_ISSET fd s.read_set = some true → fd = s.server_fd → ∀ client_fd, out.accept = some client_fd →
    client_fd < FD_SETSIZE

/-- What holds between any two steps: the descriptors handled since `select` are those
that it reported, as far as the scan has come. -/
structure Inv (s : state_t) : Prop where
  held : Held s
  scanning : ∀ first, s.main = .scanning first → Scanned s first ∧ s.handled = reported s first
  selecting : s.main = .selecting →
    ∃ first, s.handled = reported s first ∧ ∀ fd, FD_ISSET fd s.read_set = some true → fd < first

section Step

variable {s s' : state_t} {fd : Nat} {out : outcome_t}

theorem reported_succ (s : state_t) (fd : Nat) :
    reported s (fd + 1) = reported s fd ++ if FD_ISSET fd s.read_set = some true then [fd] else [] := by
  rw [reported, List.range_succ, List.filter_append, reported, List.filter_singleton]
  simp

theorem unused_of_accept {client_fd : Nat} (haccept : accept_client s (some client_fd) = some s') :
    s.Unused client_fd ∧ client_fd < FD_SETSIZE := by
  rw [accept_client] at haccept
  split at haccept
  · next hunused =>
    obtain ⟨set', hset, -⟩ := Option.bind_eq_some_iff.mp haccept
    exact ⟨hunused, lt_of_FD_SET hset⟩
  · cases haccept

theorem offers_of_echo {k : Nat} (hecho : echo_client s fd out = some s') (hk : s.files fd = some k) :
    (s.connection k).Offers out.recv := by
  by_contra hnot
  rw [echo_client, hk] at hecho
  dsimp only at hecho
  rw [if_neg hnot] at hecho
  cases hecho

theorem possible_of_scan (hscan : scan s fd out = some s') : Possible s fd out ∧ Fits s fd out := by
  rw [Possible, Fits]
  by_cases hread : FD_ISSET fd s.read_set = some true
  · rw [scan, hread, Option.bind_eq_bind, Option.bind_some, if_pos rfl] at hscan
    dsimp only at hscan
    split at hscan
    · next hserver =>
      rw [if_pos hserver]
      have hunused (client_fd : Nat) (haccept : out.accept = some client_fd) :
          s.Unused client_fd ∧ client_fd < FD_SETSIZE := by
        rw [haccept] at hscan
        exact (unused_of_accept hscan :)
      exact ⟨fun _ client_fd h => (hunused client_fd h).1, fun _ _ client_fd h => (hunused client_fd h).2⟩
    · next hserver =>
      rw [if_neg hserver]
      refine ⟨fun _ k hk => ?_, fun _ heq => absurd heq hserver⟩
      exact (offers_of_echo hscan hk :)
  · exact ⟨fun h => absurd h hread, fun h => absurd h hread⟩

theorem Inv.scan (h : Inv s) (hmain : s.main = .scanning fd) (hle : fd ≤ s.max_fd) (hpossible : Possible s fd out)
    (hfits : Fits s fd out) :
    ∃ s', scan s fd out = some s' ∧ Held s' ∧ Scanned s' (fd + 1) ∧ s'.handled = reported s' (fd + 1) ∧
      (s'.main = s.main ∨ s'.main = .killed) := by
  obtain ⟨hscanned, hhandled⟩ := h.scanning fd hmain
  have hlater : Scanned s (fd + 1) := fun other hother => hscanned other (by omega)
  have hsucc := reported_succ s fd
  obtain ⟨b, hisset⟩ := FD_ISSET_of_lt (Nat.lt_of_le_of_lt hle h.held.max_lt) s.read_set
  rw [echo_server.scan, hisset, Option.bind_eq_bind, Option.bind_some]
  cases b with
  | false =>
    rw [hisset, if_neg (by simp), List.append_nil, ← hhandled] at hsucc
    exact ⟨s, rfl, h.held, hlater, hsucc.symm, Or.inl rfl⟩
  | true =>
    rw [hisset, if_pos rfl, ← hhandled] at hsucc
    have hnow := hpossible hisset
    have hheld : Held { s with handled := s.handled ++ [fd] } :=
      ⟨h.held.master, h.held.bounded, h.held.max_lt, h.held.server, h.held.owner, h.held.apart, h.held.echoes,
        h.held.killed⟩
    rw [if_pos rfl]
    by_cases hserver : fd = s.server_fd
    · rw [if_pos hserver] at hnow
      obtain ⟨s', haccept, hheld', hscanned', hread, hsame, heq⟩ := hheld.accept_client hlater hnow (hfits hisset hserver)
      refine ⟨s', (if_pos hserver).trans haccept, hheld', hscanned', ?_, Or.inl hsame⟩
      rw [heq, reported, hread]
      exact hsucc.symm
    · rw [if_neg hserver] at hnow
      have hopen := ((h.held.master fd).mp (hscanned fd (Nat.le_refl fd) hisset)).resolve_left hserver
      obtain ⟨k, hk⟩ := Option.ne_none_iff_exists'.mp hopen
      have halive : s.main ≠ .killed := by
        rw [hmain]
        simp
      obtain ⟨s', hecho, hheld', hscanned', hread, hsame, heq⟩ := hheld.echo_client hlater hk (hnow k hk) halive
      refine ⟨s', (if_neg hserver).trans hecho, hheld', hscanned', ?_, hsame⟩
      rw [heq, reported, hread]
      exact hsucc.symm

theorem next_connection (s : state_t) (main : main_t) : (next s main).connection = s.connection := by
  rw [next]
  split <;> rfl

/-- What `recv` has read goes to `send` in the same round. -/
theorem sends_of_scan {k count : Nat} (hmain : s.main = .scanning fd) (hle : fd ≤ s.max_fd)
    (hread : FD_ISSET fd s.read_set = some true) (hclient : fd ≠ s.server_fd) (hk : s.files fd = some k)
    (hrecv : out.recv = .bytes count) (hstep : step s (.scan out) = some s') :
    (s'.connection k).input = (s.connection k).input.drop count ∧
      ∃ taken, (s'.connection k).sends = (s.connection k).sends ++ [⟨(s.connection k).input.take count, taken⟩] := by
  rw [step, hmain] at hstep
  dsimp only at hstep
  rw [if_pos hle] at hstep
  obtain ⟨s₁, hscan, rfl⟩ := Option.map_eq_some_iff.mp hstep
  rw [scan, hread, Option.bind_eq_bind, Option.bind_some, if_pos rfl] at hscan
  dsimp only at hscan
  rw [if_neg hclient] at hscan
  have hoffers : (s.connection k).Offers out.recv := (offers_of_echo hscan hk :)
  rw [echo_client, hk] at hscan
  dsimp only at hscan
  rw [if_pos hoffers, hrecv] at hscan
  obtain rfl := Option.some.inj hscan
  rw [next_connection]
  dsimp only
  rw [Function.update_self]
  exact ⟨rfl, _, rfl⟩

/-- A step of a client. -/
theorem Inv.set_connection (h : Inv s) {k : Nat} {c : connection_t} (hc : c.Echoes)
    (hkeep : (s.connection k).gone = true ∧ (s.connection k).Cut → c.gone = true ∧ c.Cut) :
    Inv { s with connection := Function.update s.connection k c } where
  held := h.held.set_connection hc s.main fun hmain => Or.inr ⟨hmain, hkeep⟩
  scanning := h.scanning
  selecting := h.selecting

/-- The end of a round. -/
theorem Inv.next (hheld : Held s) (hscanned : Scanned s fd) (hhandled : s.handled = reported s fd) :
    Inv (next s (.scanning fd)) := by
  unfold echo_server.next
  split
  · next hkilled =>
    refine ⟨hheld, fun first hfirst => ?_, fun hselecting => ?_⟩
    · rw [hkilled] at hfirst
      cases hfirst
    · rw [hkilled] at hselecting
      cases hselecting
  · refine ⟨hheld.set_main (by simp), fun first hfirst => ?_, fun hselecting => by cases hselecting⟩
    cases hfirst
    exact ⟨hscanned, hhandled⟩

theorem Inv.step (h : Inv s) {e : event_t} (hstep : step s e = some s') : Inv s' := by
  cases e with
  | client k data =>
    simp only [echo_server.step] at hstep
    split at hstep
    · cases hstep
    · obtain rfl := Option.some.inj hstep
      exact h.set_connection ((h.held.echoes k).client data) id
  | leave k =>
    simp only [echo_server.step] at hstep
    split at hstep
    · cases hstep
    · obtain rfl := Option.some.inj hstep
      have hechoes := h.held.echoes k
      exact h.set_connection (.of_given hechoes.given) fun hcut => ⟨rfl, hcut.2⟩
  | select ready =>
    simp only [echo_server.step] at hstep
    split at hstep
    · obtain rfl := Option.some.inj hstep
      refine ⟨⟨h.held.master, h.held.bounded, h.held.max_lt, h.held.server, h.held.owner, h.held.apart, h.held.echoes,
        by simp⟩, fun first hfirst => ?_, by simp⟩
      cases hfirst
      refine ⟨fun fd _ hread => ?_, rfl⟩
      have hlt := lt_of_FD_ISSET hread
      rw [FD_ISSET, Vector.getElem?_eq_getElem hlt] at hread ⊢
      simp only [Vector.getElem_mapIdx, Option.some.injEq, Bool.and_eq_true] at hread
      exact congrArg some hread.1
    · cases hstep
  | scan out =>
    simp only [echo_server.step] at hstep
    split at hstep
    case h_1 fd hmain =>
      split at hstep
      case isTrue hle =>
        obtain ⟨s₁, hscan, rfl⟩ := Option.map_eq_some_iff.mp hstep
        obtain ⟨s₂, hscan', hheld, hscanned, hhandled, -⟩ := h.scan hmain hle (possible_of_scan hscan).1
          (possible_of_scan hscan).2
        obtain rfl := Option.some.inj (hscan.symm.trans hscan')
        exact .next hheld hscanned hhandled
      case isFalse hgt =>
        obtain rfl := Option.some.inj hstep
        obtain ⟨hscanned, hhandled⟩ := h.scanning fd hmain
        refine ⟨h.held.set_main (by simp), by simp, fun _ => ⟨fd, hhandled, fun other hread => ?_⟩⟩
        by_contra hnot
        have hle := h.held.bounded other (hscanned other (Nat.le_of_not_lt hnot) hread)
        omega
    case h_2 => cases hstep

end Step

theorem start_inv {server_fd : Nat} (hlt : server_fd < FD_SETSIZE) : ∃ s, start server_fd = some s ∧ Inv s := by
  obtain ⟨set', hset, hisset⟩ := FD_SET_of_lt hlt FD_ZERO
  have hzero (fd : Nat) : FD_ISSET fd FD_ZERO ≠ some true := by
    intro h
    rw [FD_ISSET, FD_ZERO, Vector.getElem?_replicate] at h
    split at h <;> cases h
  have hmaster (fd : Nat) : FD_ISSET fd set' = some true ↔ fd = server_fd := by
    rw [hisset, or_iff_left (hzero fd)]
  refine ⟨_, by rw [start, hset]; rfl,
    ⟨⟨fun fd => ?_, fun fd hfd => ?_, hlt, rfl, by simp, by simp, fun k => ?_, by simp⟩,
    by simp, fun _ => ⟨0, rfl, fun fd hread => absurd hread (hzero fd)⟩⟩⟩
  · rw [hmaster]
    simp
  · exact Nat.le_of_eq ((hmaster fd).mp hfd)
  · exact .of_given rfl

/-- Whatever the clients do and the calls return, while the descriptors fit into a set:
each client gets its own bytes back in their order, all of them unless a `send` takes less
than it is given; a pass of the scan handles each descriptor that `select` reported once,
and only open ones, and what it receives there it hands to `send` at once; and the server
goes on, unless a client closes its end before it has got everything back. -/
theorem clients_get_own_bytes {server_fd : Nat} (hlt : server_fd < FD_SETSIZE) :
    ∃ s₀, start server_fd = some s₀ ∧ ∀ s, Reachable step s₀ s →
      (∀ k, (s.connection k).Echoes) ∧
      (s.main = .killed → ∃ k, (s.connection k).gone = true ∧ (s.connection k).Cut) ∧
      (s.main = .selecting → s.handled.Nodup ∧ ∀ fd, fd ∈ s.handled ↔ FD_ISSET fd s.read_set = some true) ∧
      ∀ fd, s.main = .scanning fd →
        (∀ out, Possible s fd out → Fits s fd out → ∃ s', step s (.scan out) = some s') ∧
        (FD_ISSET fd s.read_set = some true → fd = s.server_fd ∨ ∃ k, s.files fd = some k ∧
          ∀ out count s', out.recv = .bytes count → step s (.scan out) = some s' →
            (s'.connection k).input = (s.connection k).input.drop count ∧
            ∃ taken, (s'.connection k).sends =
              (s.connection k).sends ++ [⟨(s.connection k).input.take count, taken⟩]) := by
  obtain ⟨s₀, hstart, hinv₀⟩ := start_inv hlt
  refine ⟨s₀, hstart, fun s hreachable => ?_⟩
  have h : Inv s := hreachable.invariant hinv₀ fun _ _ _ hs hstep => hs.step hstep
  refine ⟨h.held.echoes, h.held.killed, fun hmain => ?_, fun fd hmain =>
    ⟨fun out hpossible hfits => ?_, fun hread => ?_⟩⟩
  · obtain ⟨first, hhandled, hlast⟩ := h.selecting hmain
    rw [hhandled]
    refine ⟨List.nodup_range.filter _, fun fd => ?_⟩
    rw [reported, List.mem_filter, List.mem_range, decide_eq_true_eq]
    exact ⟨And.right, fun hread => ⟨hlast fd hread, hread⟩⟩
  · rw [step, hmain]
    dsimp only
    by_cases hle : fd ≤ s.max_fd
    · obtain ⟨s', hscan, -⟩ := h.scan hmain hle hpossible hfits
      exact ⟨_, by rw [if_pos hle, hscan]; rfl⟩
    · exact ⟨_, if_neg hle⟩
  · obtain ⟨hscanned, -⟩ := h.scanning fd hmain
    have hset := hscanned fd (Nat.le_refl fd) hread
    refine or_iff_not_imp_left.mpr fun hclient => ?_
    obtain ⟨k, hk⟩ := Option.ne_none_iff_exists'.mp (((h.held.master fd).mp hset).resolve_left hclient)
    exact ⟨k, hk, fun out count s' hrecv hstep =>
      sends_of_scan hmain (h.held.bounded fd hset) hread hclient hk hrecv hstep⟩

/-- A round of the scan that finds nothing. -/
def quiet : event_t := .scan ⟨none, .failed, 0, false⟩

/-- A client connects and sends "hi", which the server reads and sends back, and "ho", of
which `send` only takes the first byte. -/
def greeting : List event_t :=
  .select (· == 3) :: List.replicate 3 quiet ++ .scan ⟨some 4, .failed, 0, false⟩ :: List.replicate 2 quiet ++
    [.client 0 [104, 105, 104, 111], .select (· == 4)] ++ List.replicate 4 quiet ++
    [.scan ⟨none, .bytes 2, 2, false⟩, quiet, .select (· == 4)] ++ List.replicate 4 quiet ++
    [.scan ⟨none, .bytes 2, 1, false⟩]

theorem clients_get_own_bytes_greeting : ∃ s, (start 3).bind (fun s₀ => steps step s₀ greeting) = some s ∧
    (s.connection 0).echoed = [104, 105, 104] ∧ (s.connection 0).sent = [104, 105, 104, 111] ∧
    (s.connection 0).Echoes ∧ s.main = .scanning 5 := by
  obtain ⟨s₀, hstart, hall⟩ := clients_get_own_bytes (show 3 < FD_SETSIZE by decide)
  have hrun : ((start 3).bind fun s₀ => steps step s₀ greeting).map (fun s =>
      ((s.connection 0).echoed, (s.connection 0).sent, s.main)) =
        some ([104, 105, 104], [104, 105, 104, 111], .scanning 5) := by
    decide +kernel
  obtain ⟨s, hsteps, hs⟩ := Option.map_eq_some_iff.mp hrun
  obtain ⟨hechoed, hsent, hmain⟩ : _ ∧ _ ∧ _ := ⟨congrArg Prod.fst hs, congrArg (·.2.1) hs, congrArg (·.2.2) hs⟩
  refine ⟨s, hsteps, hechoed, hsent, ?_, hmain⟩
  rw [hstart, Option.bind_some] at hsteps
  exact (hall s (Reachable.start.steps hsteps)).1 0

end csystems.echo_server
