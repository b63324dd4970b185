import Mathlib.Data.List.Basic

namespace csystems.chat_server

def BUFFER_SIZE : Nat := 1024

/-- The number of descriptors that an `fd_set` has room for. -/
def FD_SETSIZE : Nat := 1024

abbrev fd_set := Vector Bool FD_SETSIZE

def FD_ZERO : fd_set := Vector.replicate FD_SETSIZE false

/-- The macros go wrong on a descriptor for which the set has no room. -/
def FD_ISSET (fd : Nat) (set : fd_set) : Option Bool := set[fd]?

def FD_SET (fd : Nat) (set : fd_set) : Option fd_set :=
  if h : fd < FD_SETSIZE then some (set.set fd true) else none

def FD_CLR (fd : Nat) (set : fd_set) : Option fd_set :=
  if h : fd < FD_SETSIZE then some (set.set fd false) else none

abbrev buffer_t := Vector UInt8 BUFFER_SIZE

/-- `buffer[index] = value`, which goes wrong outside of the buffer. -/
def store (buffer : buffer_t) (index : Nat) (value : UInt8) : Option buffer_t :=
  if h : index < BUFFER_SIZE then some (buffer.set index value) else none

/-- How `recv` ends. -/
inductive recv_t where
  | failed
  | closed
  | bytes (data : List UInt8) (nonempty : data ≠ []) (length_le : data.length ≤ BUFFER_SIZE)
  deriving DecidableEq

/-- The buffer after `recv`. -/
def received (buffer : buffer_t) (data : List UInt8) : buffer_t := Vector.ofFn fun i => data.getD i buffer[i]

/-- What a call finds outside: the descriptors that `select` reports, or that it fails;
the descriptor of the client that is accepted, if there is one; what `recv` reads; and
the connections that the other side has reset. -/
structure outcome_t where
  select : Option (Nat → Bool)
  accept : Option Nat
  recv : recv_t
  reset : Nat → Bool

/-- A call of `send`. -/
structure send_t where
  fd : Nat
  msg : List UInt8
  deriving DecidableEq

/-- A message that was received, the clients that were connected then, and the sends
that followed. -/
structure relay_t where
  sender : Nat
  msg : List UInt8
  clients : List Nat
  sends : List send_t

/-- The loop of `broadcast` over the descriptors that are left: the calls of `send`, and
whether the loop ends. `SIGPIPE`, which the program does not handle, kills it in the call
of `send` that raises it. -/
def broadcast_loop (sender_fd : Nat) (clients : fd_set) (msg : List UInt8) (sigpipe : Nat → Bool) :
    List Nat → Option (List send_t × Bool)
  | [] => some ([], true)
  | fd :: fds => do
    let set ← FD_ISSET fd clients
    if set && decide (fd ≠ sender_fd) then
      if sigpipe fd then some ([⟨fd, msg⟩], false)
      else
        let (sends, ends) ← broadcast_loop sender_fd clients msg sigpipe fds
        some (⟨fd, msg⟩ :: sends, ends)
    else broadcast_loop sender_fd clients msg sigpipe fds

def broadcast (sender_fd : Nat) (clients : fd_set) (max_fd : Nat) (msg : List UInt8) (sigpipe : Nat → Bool) :
    Option (List send_t × Bool) :=
  broadcast_loop sender_fd clients msg sigpipe (List.range (max_fd + 1))

/-- Where the loop of `main` is: in front of `select`, or in the scan. -/
inductive main_t where
  | selecting
  | scanning (fd : Nat)
  /-- `SIGPIPE` has ended the program. -/
  | killed
  deriving DecidableEq

/-- The variables of `main`, with the clients that are connected and what was relayed. -/
structure state_t where
  server_fd : Nat
  master_set : fd_set
  read_set : fd_set
  max_fd : Nat
  buffer : buffer_t
  main : main_t
  clients : List Nat
  relays : List relay_t

/-- The server before its first `select`. -/
def start (server_fd : Nat) : Option state_t := do
  let master_set ← FD_SET server_fd FD_ZERO
  some { server_fd := server_fd
         master_set := master_set
         read_set := FD_ZERO
         max_fd := server_fd
         buffer := Vector.replicate BUFFER_SIZE 0
         main := .selecting
         clients := []
         relays := [] }

/-- The part of the scan for the listening socket. -/
def accept_client (s : state_t) : Option Nat → Option state_t
  | none => some s
  | some client_fd => do
    let master_set ← FD_SET client_fd s.master_set
    some { s with
      master_set := master_set
      max_fd := if client_fd > s.max_fd then client_fd else s.max_fd
      clients := client_fd :: s.clients }

/-- The end of a connection. -/
def close_client (s : state_t) (fd : Nat) : Option state_t := do
  let master_set ← FD_CLR fd s.master_set
  some { s with master_set := master_set, clients := s.clients.erase fd }

/-- `send` fails with `EPIPE` and raises `SIGPIPE` on a socket that is not connected, as the
listening one is, and on a connection that the other side has reset. -/
def sigpipe (s : state_t) (out : outcome_t) (fd : Nat) : Bool := decide (fd = s.server_fd) || out.reset fd

/-- The part of the scan for a client. -/
def receive (s : state_t) (fd : Nat) (out : outcome_t) : Option state_t :=
  match out.recv with
  | .failed => close_client s fd
  | .closed => close_client s fd
  | .bytes data _ _ => do
    let buffer ← store (received s.buffer data) data.length 0
    let (sends, ends) ← broadcast fd s.master_set s.max_fd (buffer.toList.take data.length) (sigpipe s out)
    some { s with
      buffer := buffer
      main := if ends then s.main else .killed
      relays := s.relays ++ [⟨fd, data, s.clients, sends⟩] }

/-- The body of the scan. -/
def scan (s : state_t) (fd : Nat) (out : outcome_t) : Option state_t := do
  if ← FD_ISSET fd s.read_set then
    if fd = s.server_fd then accept_client s out.accept else receive s fd out
  else some s

/-- One call of `select`, or one round of the scan. -/
def step (s : state_t) (out : outcome_t) : Option state_t :=
  match s.main with
  | .selecting =>
    match out.select with
    | none => some { s with read_set := s.master_set }
    | some ready => some { s with
        read_set := Vector.ofFn fun fd => s.master_set[fd] && ready fd
        main := .scanning 0 }
  | .scanning fd =>
    if fd ≤ s.max_fd then do
      let s ← scan s fd out
      some (if s.main = .killed then s else { s with main := .scanning (fd + 1) })
    else some { s with main := .selecting }
  | .killed => some s

/-- The server after a run. -/
def run (server_fd : Nat) (outs : List outcome_t) : Option state_t := do
  let s ← start server_fd
  outs.foldlM step s

end csystems.chat_server
