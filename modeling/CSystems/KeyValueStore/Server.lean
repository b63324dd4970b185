import CSystems.KeyValueStore.Store
import CSystems.Lib.CString
import CSystems.Lib.File

open clib.ctype clib.stream clib.string

namespace csystems.key_value_store.server

def BUF_SIZE : Nat := 512
def MAX_ITEMS : Nat := 128

def NEWLINE : UInt8 := 10
def RETURN : UInt8 := 13

def SET : List UInt8 := ascii ['S', 'E', 'T', ' ']
def GET : List UInt8 := ascii ['G', 'E', 'T', ' ']
def EXIT : List UInt8 := ascii ['E', 'X', 'I', 'T']

def READY : List UInt8 :=
  ascii ['M', 'i', 'n', 'i', ' ', 'K', 'V', ' ', 'S', 't', 'o', 'r', 'e', ' ', 'r', 'e', 'a', 'd', 'y'] ++ [NEWLINE]

def OK : List UInt8 := ascii ['O', 'K'] ++ [NEWLINE]
def VALUE : List UInt8 := ascii ['V', 'A', 'L', 'U', 'E', ' ']
def NOTFOUND : List UInt8 := ascii ['N', 'O', 'T', 'F', 'O', 'U', 'N', 'D'] ++ [NEWLINE]
def BYE : List UInt8 := ascii ['B', 'Y', 'E'] ++ [NEWLINE]

def USAGE : List UInt8 := ascii ['E', 'R', 'R', ' ', 'u', 's', 'a', 'g', 'e', ':', ' ']
def SET_USAGE : List UInt8 :=
  USAGE ++ SET ++ ascii ['<', 'k', 'e', 'y', '>', ' ', '<', 'v', 'a', 'l', 'u', 'e', '>'] ++ [NEWLINE]
def GET_USAGE : List UInt8 := USAGE ++ GET ++ ascii ['<', 'k', 'e', 'y', '>'] ++ [NEWLINE]
def UNKNOWN : List UInt8 :=
  ascii ['E', 'R', 'R', ' ', 'u', 'n', 'k', 'n', 'o', 'w', 'n', ' ', 'c', 'o', 'm', 'm', 'a', 'n', 'd'] ++ [NEWLINE]

def lib : variant where
  max_items := MAX_ITEMS
  terminates := false

def set_value (store : List KVPair) (k v : List UInt8) : List KVPair := store_value lib store k v

def get_value (store : List KVPair) (k : List UInt8) : Option (List UInt8) := find_value k store

/-- What a read is taken for. -/
inductive command_t where
  | set (key val : List UInt8)
  | set_usage
  | get (key : List UInt8)
  | get_usage
  | exit
  | unknown
  deriving DecidableEq, Repr

/-- The string in the buffer after a read, cut at the first end of a line. -/
def cut_line (r : List UInt8) : List UInt8 := (c_str r).takeWhile fun c => c ≠ RETURN && c ≠ NEWLINE

/-- The conversion `%63s` of `sscanf`: the next word, and the text after it. -/
def scan_key (text : List UInt8) : Option (List UInt8 × List UInt8) :=
  let text := text.dropWhile isspace
  let key := (text.takeWhile fun c => !isspace c).take (KEY_LEN - 1)
  if key = [] then none else some (key, text.drop key.length)

/-- The rest of the format, a blank and `%255[^\n]`. -/
def scan_val (text : List UInt8) : Option (List UInt8) :=
  let val := ((text.dropWhile isspace).takeWhile fun c => c ≠ NEWLINE).take (VAL_LEN - 1)
  if val = [] then none else some val

/-- The tests of `client_handler` on a read. -/
def parse (r : List UInt8) : command_t :=
  let buf := cut_line r
  if strncmp 4 buf SET = 0 then
    match scan_key (buf.drop 4) with
    | none => .set_usage
    | some (key, rest) =>
      match scan_val rest with
      | none => .set_usage
      | some val => .set key val
  else if strncmp 4 buf GET = 0 then
    match scan_key (buf.drop 4) with
    | none => .get_usage
    | some (key, _) => .get key
  else if strcmp buf EXIT = 0 then .exit
  else .unknown

end csystems.key_value_store.server

namespace csystems.key_value_store.servers

open server

/-- The branches of a `client_handler`: three servers have the same one, each with its own
library. The store after a command, and the bytes written to the client. -/
def execute (c : variant) (store : List KVPair) : command_t → List KVPair × List UInt8
  | .set key val => (store_value c store key val, OK)
  | .set_usage => (store, SET_USAGE)
  | .get key =>
    match find_value key store with
    | some v => (store, VALUE ++ v ++ [NEWLINE])
    | none => (store, NOTFOUND)
  | .get_usage => (store, GET_USAGE)
  | .exit => (store, BYE)
  | .unknown => (store, UNKNOWN)

end csystems.key_value_store.servers

namespace csystems.key_value_store.server

def execute (store : List KVPair) (command : command_t) : List KVPair × List UInt8 :=
  servers.execute lib store command

/-- The command calls `set_value` or `get_value`. -/
def command_t.is_request : command_t → Bool
  | .set _ _ | .get _ => true
  | _ => false

/-- What a session leaves: the store, the bytes written to the client, and the SET and
GET commands that were executed. -/
structure session_t where
  store : List KVPair
  written : List UInt8
  executed : List command_t

/-- The loop of `client_handler` over its reads. -/
def handle_reads (store : List KVPair) : List (List UInt8) → session_t
  | [] => { store := store, written := [], executed := [] }
  | r :: reads =>
    let command := parse r
    let (store, reply) := execute store command
    if command = .exit then { store := store, written := reply, executed := [] }
    else
      let session := handle_reads store reads
      { store := session.store
        written := reply ++ session.written
        executed := if command.is_request then command :: session.executed else session.executed }

def client_handler (store : List KVPair) (reads : List (List UInt8)) : session_t :=
  let session := handle_reads store reads
  { session with written := READY ++ session.written }

/-- Reads that execute nothing leave the store alone. -/
theorem handle_reads_of_none {reads : List (List UInt8)} (h : ∀ r ∈ reads, (parse r).is_request = false)
    (store : List KVPair) : (handle_reads store reads).executed = [] ∧ (handle_reads store reads).store = store := by
  induction reads with
  | nil => exact ⟨rfl, rfl⟩
  | cons r reads ih =>
    have hrest := ih fun r hr => h r (by simp [hr])
    have hfirst := h r (by simp)
    rw [handle_reads]
    cases hparse : parse r with
    | set key val => simp [hparse, command_t.is_request] at hfirst
    | get key => simp [hparse, command_t.is_request] at hfirst
    | exit => exact ⟨rfl, rfl⟩
    | set_usage => exact hrest
    | get_usage => exact hrest
    | unknown => exact hrest

end csystems.key_value_store.server
