import Parley.Audit.Trail
import Parley.Bus.Desk
import Parley.Settings
import Parley.Store.Backend

namespace Parley

open Time (Instant)

structure Reaction where
  millis : Nat
  fails : Bool
  deriving DecidableEq

/-- Receives the messages to a tenant, or only notices of them. What it does may differ from
call to call. -/
structure Subscriber where
  name : String
  noticesOnly : Bool
  reaction : Nat → Reaction

inductive Handling
  | taken
  | failed
  | timedOut
  deriving DecidableEq

structure Delivery where
  subscriber : String
  noticesOnly : Bool
  message : Message
  handling : Handling

/-- What an operation takes from outside: the time, and ids that nothing else has. -/
structure Fresh where
  time : Instant
  messageId : String
  entryId : String
  secondEntryId : String

/-- A bus over a backend whose state is `σ`, with a clock in milliseconds. -/
structure Bus (σ : Type) where
  settings : Settings
  store : σ
  trail : Option Audit.Trail
  subscribers : Table String (List Subscriber)
  desk : Desk
  clock : Nat
  history : List Delivery

namespace Bus

variable {σ : Type}

def new (settings : Settings) (store : σ) (trail : Option Audit.Trail) : Bus σ :=
  ⟨settings, store, trail, Table.empty, Desk.empty, 0, []⟩

def open? (settings : Settings) (store : σ) (trail : Option Audit.Trail) :
    Except Error (Bus σ) :=
  match settings.check with
  | .error f => .error f.toError
  | .ok () => .ok (new settings store trail)

def advance (millis : Nat) (bus : Bus σ) : Bus σ :=
  let now := bus.clock + millis
  { bus with clock := now, desk := bus.desk.settle now }

def settle (bus : Bus σ) : Bus σ := bus.advance 0

/-- A message without a thread starts its own. -/
def withThread (m : Message) : Message := { m with thread := some m.threadId }

def evaluator (s : Settings) : Quality.Evaluator := ⟨s.weights, Quality.standardGrace⟩

/-- An answer with its rating against the thread so far and itself. -/
def scored (s : Settings) (m : Message) (thread : List Message) : Message :=
  let r := (evaluator s).evaluate m (thread ++ [m]) none
  let m := { m with quality := some r.score }
  (m.withMetadata "quality_breakdown" (encode r.breakdown)).withMetadata
    "quality_issues" (.strings r.issues)

/-- A message with what is to follow it, if it goes to a human. -/
def escalated (s : Settings) (fresh : Fresh) (m : Message) : Message × Option Message :=
  match Escalation.decide s.threshold m with
  | none => (m, none)
  | some reason =>
    let m := { m with escalated := true, reason := some reason }
    (m, some (Escalation.follow s.excerptChars fresh.messageId fresh.time m reason))

def checked (m : Message) : Except Error Message :=
  match m.checkRoute with
  | .error f => .error f.toError
  | .ok () =>
    match m.checkShape with
    | .error f => .error f.toError
    | .ok () => .ok (withThread m)

def resource : String := "dialogue_message"

def creation (m : Message) : Audit.Deed where
  tenant := m.fromTenant
  actor := .agent m.fromAgent
  action := .create
  resourceType := resource
  resourceId := m.id
  details :=
    [("is_escalated", .bool m.escalated), ("message_type", encode m.kind)] ++
      (m.quality.map fun q => ("quality_score", Json.float q)).toList ++
      [("thread_id", .str m.threadId), ("to_tenant", .str m.toTenant)]
  confidence := m.confidence

def verdict (m : Message) (id approver : String) (approved : Bool) : Audit.Deed where
  tenant := m.fromTenant
  actor := .user approver
  action := if approved then .approve else .reject
  resourceType := resource
  resourceId := id
  details := [("approved", .bool approved)]
  confidence := none

def record (entryId : String) (time : Instant) (deed : Audit.Deed) (bus : Bus σ) : Bus σ :=
  { bus with trail := bus.trail.map fun t => (t.record entryId time deed).2 }

def post (b : Backend σ) (entryId : String) (time : Instant) (m : Message) (bus : Bus σ) :
    Except Error Unit × Bus σ :=
  match b.append m bus.store with
  | (.error e, store) => (.error e, { bus with store })
  | (.ok (), store) => (.ok (), { bus with store }.record entryId time (creation m))

def handling (limit : Nat) (r : Reaction) : Handling :=
  if limit < r.millis then .timedOut else if r.fails then .failed else .taken

def deliver (m : Message) (bus : Bus σ) (s : Subscriber) : Bus σ :=
  let r := s.reaction bus.history.length
  let limit := bus.settings.subscriberMillis
  let bus := bus.advance (min r.millis limit)
  { bus with history := bus.history ++ [⟨s.name, s.noticesOnly, m, handling limit r⟩] }

def subscribersOf (bus : Bus σ) (tenant : String) : List Subscriber :=
  (bus.subscribers.find? tenant).getD []

/-- Hands a message to the subscribers of the tenant it is for, one after the other. None of
them keeps it from the others. -/
def fanOut (m : Message) (bus : Bus σ) : Bus σ :=
  (bus.subscribersOf m.toTenant).foldl (deliver m) bus

def fanOutBoth (m : Message) (follower : Option Message) (bus : Bus σ) : Bus σ :=
  follower.elim (fanOut m bus) fun e => fanOut e (fanOut m bus)

def threadFor (b : Backend σ) (m : Message) (bus : Bus σ) :
    Except Error (List Message) × Bus σ :=
  if m.kind = .answer then
    let (r, store) := b.thread m.threadId bus.store
    (r, { bus with store })
  else (.ok [], bus)

def complete (s : Settings) (fresh : Fresh) (m : Message) (thread : List Message) :
    Message × Option Message :=
  escalated s fresh (if m.kind = .answer then scored s m thread else m)

def postFollower (b : Backend σ) (fresh : Fresh) (follower : Option Message) (bus : Bus σ) :
    Except Error Unit × Bus σ :=
  match follower with
  | none => (.ok (), bus)
  | some e => bus.post b fresh.secondEntryId fresh.time e

/-- Checks a message, completes it, stores it and what follows it, and hands out both. -/
def send (b : Backend σ) (fresh : Fresh) (m : Message) (bus : Bus σ) :
    Except Error Message × Bus σ :=
  match checked m with
  | .error e => (.error e, bus)
  | .ok m =>
    match bus.threadFor b m with
    | (.error e, bus) => (.error e, bus)
    | (.ok thread, bus) =>
      let (m, follower) := complete bus.settings fresh m thread
      match bus.post b fresh.entryId fresh.time m with
      | (.error e, bus) => (.error e, bus)
      | (.ok (), bus) =>
        match bus.postFollower b fresh follower with
        | (.error e, bus) => (.error e, bus)
        | (.ok (), bus) => (.ok m, bus.fanOutBoth m follower)

def subscribe (tenant : String) (s : Subscriber) (bus : Bus σ) : Bus σ :=
  { bus with subscribers := bus.subscribers.set tenant (bus.subscribersOf tenant ++ [s]) }

def unsubscribe (tenant : String) (bus : Bus σ) : Nat × Bus σ :=
  ((bus.subscribersOf tenant).length, { bus with subscribers := bus.subscribers.erase tenant })

def thread (b : Backend σ) (id : String) (bus : Bus σ) : Except Error (List Message) × Bus σ :=
  let (r, store) := b.thread id bus.store
  (r, { bus with store })

def messagesOf (b : Backend σ) (tenant : String) (bus : Bus σ) :
    Except Error (List Message) × Bus σ :=
  let (r, store) := b.tenant tenant bus.store
  (r, { bus with store })

def pendingOf (b : Backend σ) (tenant : String) (bus : Bus σ) :
    Except Error (List Message) × Bus σ :=
  let (r, bus) := bus.messagesOf b tenant
  (r.map fun list => list.filter fun m => m.fromTenant = tenant && m.awaitsDecision, bus)

def health (b : Backend σ) (bus : Bus σ) : Except Error Bool × Bus σ :=
  let (r, store) := b.health bus.store
  (r, { bus with store })

/-- Puts a human decision on a message and tells everyone who waits for it; false if there is
no such message. -/
def decide (b : Backend σ) (fresh : Fresh) (id approver : String) (approved : Bool) (bus : Bus σ) :
    Except Error Bool × Bus σ :=
  match b.find id bus.store with
  | (.error e, store) => (.error e, { bus with store })
  | (.ok none, store) => (.ok false, { bus with store })
  | (.ok (some m), store) =>
    match b.decide id ⟨approved, approver, fresh.time⟩ store with
    | (.error e, store) => (.error e, { bus with store })
    | (.ok false, store) => (.ok false, { bus with store })
    | (.ok true, store) =>
      let bus := { bus with store }.record fresh.entryId fresh.time (verdict m id approver approved)
      let (_, desk) := bus.desk.notify id (.ofVerdict approved)
      (.ok true, { bus with desk }.settle)

def wait (b : Backend σ) (id : String) (millis : Option Nat) (bus : Bus σ) : Nat × Bus σ :=
  let (ticket, desk) := bus.desk.register id
  let (found, store) := b.find id bus.store
  let deadline := bus.clock + millis.getD bus.settings.approvalMillis
  (ticket, { bus with store, desk := desk.lookedUp ticket deadline found }.settle)

def cancel (id : String) (bus : Bus σ) : Nat × Bus σ :=
  let (told, desk) := bus.desk.notify id .cancelled
  (told, { bus with desk }.settle)

def abandon (ticket : Nat) (bus : Bus σ) : Bus σ := { bus with desk := bus.desk.abandon ticket }

/-- Lets time pass until a wait has returned. -/
def await (ticket : Nat) (bus : Bus σ) : Option (Except Error Outcome) × Bus σ :=
  let bus :=
    match bus.desk.deadline? ticket with
    | some deadline => bus.advance (deadline - bus.clock)
    | none => bus
  (bus.desk.answer? ticket, bus)

def flushTrail (bus : Bus σ) : Option (List Audit.Entry) × Bus σ :=
  match bus.trail with
  | none => (none, bus)
  | some t =>
    let (entries, t) := t.flush
    (some entries, { bus with trail := some t })

end Bus

end Parley
