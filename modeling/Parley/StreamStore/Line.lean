import Parley.StreamStore.Server

namespace Parley.StreamStore

inductive Command
  | ping
  | has (key field : String)
  | get (key field : String)
  | getAll (key : String) (fields : List String)
  | set (key field value : String)
  | transaction (writes : List Write)
  | range (key : String)
  | makeGroup (key group : String)
  | readGroup (key group consumer : String) (count blockMillis : Nat)
  | ack (key group : String) (ids : List String)
  | pending (key group : String) (count : Nat)
  deriving DecidableEq

namespace Command

def fieldPairs : List String → Option (List (String × String))
  | [] => some []
  | name :: value :: rest => (fieldPairs rest).map ((name, value) :: ·)
  | [_] => none

def setWords (key field value : String) : List String := ["HSET", key, field, value]

def writeWords : Write → List String
  | .add key fields => ["XADD", key, "*"] ++ fields.flatMap fun f => [f.1, f.2]
  | .set key field value => setWords key field value

def write? : List String → Option Write
  | "XADD" :: key :: "*" :: fields => (fieldPairs fields).map (.add key)
  | ["HSET", key, field, value] => some (.set key field value)
  | _ => none

def blockWords (millis : Nat) : List String :=
  if millis = 0 then [] else ["BLOCK", Decimal.natText millis]

def requests : Command → List (List String)
  | ping => [["PING"]]
  | has key field => [["HEXISTS", key, field]]
  | get key field => [["HGET", key, field]]
  | getAll key fields => [["HMGET", key] ++ fields]
  | set key field value => [setWords key field value]
  | transaction writes => [["MULTI"]] ++ writes.map writeWords ++ [["EXEC"]]
  | range key => [["XRANGE", key, "-", "+"]]
  | makeGroup key group => [["XGROUP", "CREATE", key, group, "0", "MKSTREAM"]]
  | readGroup key group consumer count millis =>
    [["XREADGROUP", "GROUP", group, consumer] ++ blockWords millis ++
      ["COUNT", Decimal.natText count, "STREAMS", key, ">"]]
  | ack key group ids => [["XACK", key, group] ++ ids]
  | pending key group count => [["XPENDING", key, group, "-", "+", Decimal.natText count]]

end Command

/-- Why a command has no result: the connection was lost, or the server answered with an
error. -/
inductive Failure
  | dropped
  | reply (text : String)
  deriving DecidableEq

namespace Failure

def code : Failure → Option String
  | dropped => none
  | reply text => some (String.ofList (text.toList.takeWhile (· ≠ ' ')))

def replyText (code rest : List Char) : List Char :=
  if code = "ERR".toList then
    "An error was signalled by the server - ResponseError: ".toList ++ rest
  else code ++ ": ".toList ++ rest

def text : Failure → String
  | dropped => "connection dropped"
  | reply text =>
    let (code, rest) := text.toList.span (· ≠ ' ')
    String.ofList (replyText code rest.tail)

end Failure

/-- What becomes of a command: it is answered, it is carried out but the answer is lost, or
it is not carried out. -/
inductive Fate
  | answered
  | answerLost
  | refused (failure : Failure)
  deriving DecidableEq

/-- Says what becomes of each command in turn, from a state of its own. -/
abbrev Weather (φ : Type) := Command → φ → Fate × φ

/-- A server at the end of a line, and what was sent to it so far and what became of it. -/
structure Line (φ : Type) where
  server : Server
  faults : φ
  sent : List (Command × Fate)

def clear : Weather φ := fun _ s => (.answered, s)

namespace Line

variable {φ α : Type}

def call (w : Weather φ) (command : Command) (act : Server → Except String α × Server)
    (l : Line φ) : Except Failure α × Line φ :=
  let (fate, faults) := w command l.faults
  let l := { l with faults, sent := l.sent ++ [(command, fate)] }
  match fate with
  | .refused failure => (.error failure, l)
  | .answerLost => (.error .dropped, { l with server := (act l.server).2 })
  | .answered =>
    let (r, server) := act l.server
    (r.mapError .reply, { l with server })

def ask (w : Weather φ) (command : Command) (read : Server → Except String α) (l : Line φ) :
    Except Failure α × Line φ :=
  l.call w command fun s => (read s, s)

end Line

end Parley.StreamStore
