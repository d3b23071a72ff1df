import Parley.Message.Codec
import Parley.StreamStore.Config
import Parley.StreamStore.Line

namespace Parley.StreamStore

/-- A client of the server: how it names its keys, and what becomes of its commands. -/
structure Client (φ : Type) where
  config : Config
  weather : Weather φ

def payloadField : String := "payload"

def Entry.message? (e : Entry) : Option Message :=
  (e.fields.lookup payloadField).bind decodeText

def keepNew (seen : List String) : List Message → List Message
  | [] => []
  | m :: rest => if m.id ∈ seen then keepNew seen rest else m :: keepNew (m.id :: seen) rest

def firstOfEach (list : List Message) : List Message := keepNew [] list

structure Reading where
  entry : String
  message : Message

/-- The streams of a message: its receiver's, its sender's and that of its thread. -/
def Config.streamKeys (c : Config) (m : Message) : List String :=
  c.tenantKey m.toTenant ::
    ((if m.fromTenant = m.toTenant then [] else [c.tenantKey m.fromTenant]) ++
      [c.threadKey m.threadId])

/-- The writes that store a message: an entry in each of its streams, and its place under its
id. -/
def Config.writes (c : Config) (m : Message) : List Write :=
  (c.streamKeys m).map (fun key => .add key [(payloadField, encodeText m)]) ++
    [.set c.messagesKey m.id (encodeText m)]

def failed (command : String) : Failure → Error
  | .dropped => .connection (command ++ ": " ++ Failure.dropped.text)
  | f => .stream (command ++ ": " ++ f.text)

/-- The error of a failed transaction, whose answer is then no list of answers. -/
def transactionFailed : Failure → Error
  | .dropped => failed "XADD" .dropped
  | .reply _ => .stream "XADD: Invalid response when parsing multi response- ResponseError"

namespace Client

variable {φ α : Type}

def raise (error : Failure → Error) (r : Except Failure α × Line φ) : Except Error α × Line φ :=
  (r.1.mapError error, r.2)

def knows (cl : Client φ) (id : String) (l : Line φ) : Except Error Bool × Line φ :=
  let key := cl.config.messagesKey
  raise (failed "HEXISTS") (l.ask cl.weather (.has key id) fun s => s.has key id)

def write (cl : Client φ) (m : Message) (l : Line φ) : Except Error Unit × Line φ :=
  let writes := cl.config.writes m
  raise transactionFailed
    (l.call cl.weather (.transaction writes) fun s => (.ok (), (s.transaction writes).2))

/-- Stores a message; false if the server has one of its id. -/
def append (cl : Client φ) (m : Message) (l : Line φ) : Except Error Bool × Line φ :=
  match cl.knows m.id l with
  | (.error e, l) => (.error e, l)
  | (.ok true, l) => (.ok false, l)
  | (.ok false, l) =>
    match cl.write m l with
    | (.error e, l) => (.error e, l)
    | (.ok (), l) => (.ok true, l)

def range (cl : Client φ) (key : String) (l : Line φ) : Except Error (List Message) × Line φ :=
  let (r, l) := l.ask cl.weather (.range key) fun s => s.range key
  ((r.mapError (failed "XRANGE")).map fun entries => firstOfEach (entries.filterMap Entry.message?),
    l)

def readPayload : Option String → Except Error (Option Message)
  | none => .ok none
  | some text =>
    match decodeText text with
    | some m => .ok (some m)
    | none => .error (.serialization text)

def find (cl : Client φ) (id : String) (l : Line φ) : Except Error (Option Message) × Line φ :=
  let key := cl.config.messagesKey
  let (r, l) := l.ask cl.weather (.get key id) fun s => s.get key id
  ((r.mapError (failed "HGET")).bind readPayload, l)

/-- The decisions that can be read, each with the id of its message. -/
def decisions (ids : List String) (texts : List (Option String)) : List (String × Approval) :=
  (ids.zip texts).filterMap fun (id, text) => (text.bind decodeText).map (id, ·)

def approvals (cl : Client φ) (ids : List String) (l : Line φ) :
    Except Error (List (String × Approval)) × Line φ :=
  if ids = [] then (.ok [], l)
  else
    let key := cl.config.approvalsKey
    let (r, l) := l.ask cl.weather (.getAll key ids) fun s => s.getAll key ids
    ((r.mapError (failed "HMGET")).map (decisions ids), l)

def decide (cl : Client φ) (id : String) (a : Approval) (l : Line φ) :
    Except Error Bool × Line φ :=
  match cl.knows id l with
  | (.error e, l) => (.error e, l)
  | (.ok false, l) => (.ok false, l)
  | (.ok true, l) =>
    let key := cl.config.approvalsKey
    let (r, l) := l.call cl.weather (.set key id (encodeText a)) (Server.set key id (encodeText a))
    ((r.mapError (failed "HSET")).map fun _ => true, l)

def groupFailed (key group : String) (f : Failure) : Error :=
  .consumer ("Failed to create group '" ++ group ++ "' on '" ++ key ++ "': " ++ f.text)

def ensureGroup (cl : Client φ) (tenant : String) (l : Line φ) : Except Error Unit × Line φ :=
  let key := cl.config.tenantKey tenant
  let group := cl.config.group tenant
  match l.call cl.weather (.makeGroup key group) (Server.makeGroup key group) with
  | (.ok (), l) => (.ok (), l)
  | (.error f, l) =>
    (if f.code = some "BUSYGROUP" then .ok () else .error (groupFailed key group f), l)

def readings (entries : List Entry) : List Reading :=
  entries.filterMap fun e => e.message?.map fun m => ⟨e.id, m⟩

def read (cl : Client φ) (tenant consumer : String) (l : Line φ) :
    Except Error (List Reading) × Line φ :=
  let c := cl.config
  let key := c.tenantKey tenant
  let group := c.group tenant
  let (r, l) := l.call cl.weather (.readGroup key group consumer c.readCount c.blockMillis)
    (Server.readGroup key group consumer c.readCount)
  ((r.mapError (failed "XREADGROUP")).map readings, l)

def ack (cl : Client φ) (tenant : String) (ids : List String) (l : Line φ) :
    Except Error Nat × Line φ :=
  if ids = [] then (.ok 0, l)
  else
    let key := cl.config.tenantKey tenant
    let group := cl.config.group tenant
    raise (fun f => .ack ("XACK on '" ++ key ++ "': " ++ f.text))
      (l.call cl.weather (.ack key group ids) (Server.ack key group ids))

def pending (cl : Client φ) (tenant : String) (count : Nat) (l : Line φ) :
    Except Error (List Handout) × Line φ :=
  let key := cl.config.tenantKey tenant
  let group := cl.config.group tenant
  raise (fun f => .consumer ("XPENDING on '" ++ key ++ "': " ++ f.text))
    (l.ask cl.weather (.pending key group count) fun s => s.pending key group count)

def ping (cl : Client φ) (l : Line φ) : Except Error Unit × Line φ :=
  raise (failed "PING") (l.ask cl.weather .ping fun _ => .ok ())

end Client

end Parley.StreamStore
