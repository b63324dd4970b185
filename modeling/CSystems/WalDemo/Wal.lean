import Mathlib.Algebra.Order.Ring.Int
import CSystems.Lib.Format
import CSystems.Lib.Text

open clib.ctype clib.string clib.format clib.text

namespace csystems.wal_demo

def NEWLINE : UInt8 := 10
def SPACE : UInt8 := 32

def TRANSACTION : List UInt8 := ascii ['T', 'R', 'A', 'N', 'S', 'A', 'C', 'T', 'I', 'O', 'N']
def BEGIN : List UInt8 := ascii ['B', 'E', 'G', 'I', 'N']
def SET : List UInt8 := ascii ['S', 'E', 'T']
def COMMIT : List UInt8 := ascii ['C', 'O', 'M', 'M', 'I', 'T']

/-- The size of the line buffers of `log_to_wal` and `cmd_recover`. -/
def LINE_SIZE : Nat := 256

/-- The size of the buffers `key` and `val` of `cmd_recover`. -/
def WORD_SIZE : Nat := 128

/-- What `snprintf` leaves in a line buffer, up to the terminator. -/
def line_buffer (text : List UInt8) : List UInt8 := text.take (LINE_SIZE - 1)

def begin_line (transaction_id : Int32) : List UInt8 :=
  line_buffer (TRANSACTION ++ SPACE :: ascii (decimal transaction_id.toInt) ++ SPACE :: BEGIN ++ [NEWLINE])

def set_line (key value : List UInt8) : List UInt8 :=
  line_buffer (SET ++ SPACE :: key ++ SPACE :: value ++ [NEWLINE])

def commit_line (transaction_id : Int32) : List UInt8 :=
  line_buffer (TRANSACTION ++ SPACE :: ascii (decimal transaction_id.toInt) ++ SPACE :: COMMIT ++ [NEWLINE])

/-- The bytes `log_to_wal` appends to the log, in three writes. -/
def log_to_wal (transaction_id : Int32) (key value : List UInt8) : List UInt8 :=
  begin_line transaction_id ++ set_line key value ++ commit_line transaction_id

/-- The first words of a text, as successive `%s` conversions read them. -/
def scan_words : Nat → List UInt8 → List (List UInt8)
  | 0, _ => []
  | count + 1, text =>
    let text := text.dropWhile isspace
    let word := text.takeWhile fun c => !isspace c
    if word = [] then [] else word :: scan_words count (text.drop word.length)

/-- Some word is too long for its buffer. -/
def overruns (words : List (List UInt8)) : Bool := words.any fun word => WORD_SIZE ≤ word.length

/-- The local variables of `cmd_recover`; `none` is an uninitialised buffer. -/
structure scan_t where
  key : Option (List UInt8)
  val : Option (List UInt8)
  inside_tx : Bool
  committed : Bool
  deriving DecidableEq, Repr

/-- A call of `apply_to_db`, made for the line of this number. -/
structure apply_t where
  line : Nat
  key : List UInt8
  value : List UInt8
  deriving DecidableEq, Repr

/-- `sscanf(line, "SET %s %s", key, val)` on a line that starts with `SET`; `none`
is a write past the end of a buffer. -/
def sscanf_set (s : scan_t) (line : List UInt8) : Option scan_t :=
  let words := scan_words 2 (line.drop SET.length)
  if overruns words then none
  else
    match words with
    | [] => some s
    | [key] => some { s with key := some key }
    | key :: val :: _ => some { s with key := some key, val := some val }

/-- The body of the loop of `cmd_recover`; `none` is undefined behaviour, the use
of an uninitialised buffer included. -/
def scan_line (number : Nat) (s : scan_t) (line : List UInt8) : Option (scan_t × List apply_t) :=
  if strstr line BEGIN then some ({ s with inside_tx := true, committed := false }, [])
  else if SET.isPrefixOf line && s.inside_tx then (sscanf_set s line).map fun s => (s, [])
  else if strstr line COMMIT && s.inside_tx then
    match s.key, s.val with
    | some key, some val => some ({ s with inside_tx := false, committed := true }, [⟨number, key, val⟩])
    | _, _ => none
  else some (s, [])

/-- The loop of `cmd_recover` over the lines it reads: the calls of `apply_to_db`
and the variables it ends with. -/
def scan_lines : Nat → scan_t → List (List UInt8) → Option (List apply_t × scan_t)
  | _, s, [] => some ([], s)
  | number, s, line :: lines => do
    let (s, calls) ← scan_line number s line
    let (rest, s) ← scan_lines (number + 1) s lines
    return (calls ++ rest, s)

def scan_init : scan_t := { key := none, val := none, inside_tx := false, committed := false }

/-- `cmd_recover` on the contents of the log: its calls of `apply_to_db`, and
whether it reports an incomplete transaction. -/
def cmd_recover (wal : List UInt8) : Option (List apply_t × Bool) := do
  let lines := (read_lines NEWLINE (LINE_SIZE - 1) (wal.length + 1) wal).map c_str
  let (calls, s) ← scan_lines 0 scan_init lines
  return (calls, s.inside_tx && !s.committed)

/-- One run of `log_to_wal`; a crash leaves the first `cut` bytes of its output. -/
structure session_t where
  transaction_id : Int32
  key : List UInt8
  value : List UInt8
  cut : Nat
  deriving DecidableEq, Repr

/-- What the session writes if nothing stops it. -/
def session_t.record (s : session_t) : List UInt8 := log_to_wal s.transaction_id s.key s.value

/-- What the session wrote. -/
def session_t.output (s : session_t) : List UInt8 := s.record.take s.cut

/-- The log after the sessions. -/
def wal (sessions : List session_t) : List UInt8 := (sessions.map session_t.output).flatten

end csystems.wal_demo
