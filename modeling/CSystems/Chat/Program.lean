import CSystems.Lib.CString
import CSystems.Lib.Run

open clib.ctype clib.run clib.string

namespace csystems.chat

def MAX_TEXT : Nat := 256

/-- A text as `fgets` leaves it in a message, without its newline. -/
abbrev text_t := CStr MAX_TEXT

def EXIT : List UInt8 := ascii ['e', 'x', 'i', 't']

def is_exit (text : text_t) : Bool := strcmp text.chars EXIT = 0

structure msg where
  mtype : Int
  text : text_t
  deriving DecidableEq

/-- The two programs. -/
inductive process where
  | a
  | b
  deriving DecidableEq, Repr

/-- The next step of a program. -/
inductive main_t where
  /-- `fgets`, which waits until the user types another text. -/
  | typing
  /-- `msgsnd` of the text. -/
  | sending (text : text_t)
  /-- `msgrcv`. -/
  | receiving
  /-- `msgctl`, which removes the queue. -/
  | removing
  | finished
  /-- A call on the queue has failed, and the program has exited. -/
  | failed
  deriving DecidableEq

/-- The queue, `none` once it is removed, the programs and the texts that are still to be
typed. The lists at the end are a history; a message is destroyed when the queue is removed
with it. -/
structure state where
  queue : Option (List msg)
  main_a : main_t
  main_b : main_t
  typed_a : List text_t
  typed_b : List text_t
  sent_a : List text_t
  received_a : List text_t
  sent_b : List text_t
  received_b : List text_t
  destroyed : List msg

/-- Both programs have opened the queue, and nothing was sent. -/
def start (typed_a typed_b : List text_t) : state where
  queue := some []
  main_a := .typing
  main_b := .receiving
  typed_a := typed_a
  typed_b := typed_b
  sent_a := []
  received_a := []
  sent_b := []
  received_b := []
  destroyed := []

/-- The first message of a type, and the queue without it. -/
def take_message (mtype : Int) (queue : List msg) : Option (msg × List msg) :=
  (queue.find? fun m => m.mtype = mtype).map fun m => (m, queue.eraseP fun m => m.mtype = mtype)

/-- A step of `chata.c`; `none` while it waits. -/
def step_a (s : state) : Option state :=
  match s.main_a with
  | .typing =>
    match s.typed_a with
    | [] => none
    | text :: typed => some { s with typed_a := typed, main_a := .sending text }
  | .sending text =>
    match s.queue with
    | none => some { s with main_a := .failed }
    | some queue => some { s with
        queue := some (queue ++ [{ mtype := 1, text := text }])
        sent_a := s.sent_a ++ [text]
        main_a := if is_exit text then .removing else .receiving }
  | .receiving =>
    match s.queue with
    | none => some { s with main_a := .failed }
    | some queue => (take_message 2 queue).map fun (m, queue) => { s with
        queue := some queue
        received_a := s.received_a ++ [m.text]
        main_a := if is_exit m.text then .removing else .typing }
  | .removing => some { s with queue := none, destroyed := s.destroyed ++ s.queue.getD [], main_a := .finished }
  | .finished | .failed => none

/-- A step of `chatb.c`; `none` while it waits. -/
def step_b (s : state) : Option state :=
  match s.main_b with
  | .typing =>
    match s.typed_b with
    | [] => none
    | text :: typed => some { s with typed_b := typed, main_b := .sending text }
  | .sending text =>
    match s.queue with
    | none => some { s with main_b := .failed }
    | some queue => some { s with
        queue := some (queue ++ [{ mtype := 2, text := text }])
        sent_b := s.sent_b ++ [text]
        main_b := if is_exit text then .finished else .receiving }
  | .receiving =>
    match s.queue with
    | none => some { s with main_b := .failed }
    | some queue => (take_message 1 queue).map fun (m, queue) => { s with
        queue := some queue
        received_b := s.received_b ++ [m.text]
        main_b := if is_exit m.text then .finished else .typing }
  | .removing | .finished | .failed => none

def step (s : state) : process → Option state
  | .a => step_a s
  | .b => step_b s

/-- The texts of one type that are in the queue. -/
def state.queued (s : state) (mtype : Int) : List text_t :=
  ((s.queue.getD []).filter fun m => m.mtype = mtype).map msg.text

/-- No message is lost: each one was received, or is in the queue with its addressee about
to receive it, and no call has failed. -/
structure Good (s : state) : Prop where
  destroyed : s.destroyed = []
  from_a : s.sent_a = s.received_b ++ s.queued 1
  from_b : s.sent_b = s.received_a ++ s.queued 2
  to_b : s.queued 1 ≠ [] → s.main_b = .receiving
  to_a : s.queued 2 ≠ [] → s.main_a = .receiving
  main_a : s.main_a ≠ .failed
  main_b : s.main_b ≠ .failed

/-- The dialogue ends with an `"exit"` that A types. -/
def EndsWithA : List text_t → List text_t → Prop
  | [], _ => False
  | text :: typed_a, typed_b =>
    is_exit text = true ∨ match typed_b with
      | [] => False
      | reply :: typed_b => is_exit reply = false ∧ EndsWithA typed_a typed_b

end csystems.chat
