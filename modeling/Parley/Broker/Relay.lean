import Parley.Broker.Config
import Parley.Store.Backend

namespace Parley.Broker

inductive Contact
  | unreachable (reason : String)
  | noStream (reason : String)
  | ready
  deriving DecidableEq

def isStreamName (name : String) : Bool := name ≠ "" && name.toList.all fun c => c ≠ ' ' && c ≠ '.'

def noStream (c : Config) (reason : String) : Error :=
  .stream ("Failed to create/get stream '" ++ c.streamName ++ "': " ++ reason)

def Config.connect (c : Config) : Contact → Except Error Unit
  | .unreachable reason => .error (.connection (c.url ++ ": " ++ reason))
  | .noStream reason => .error (noStream c reason)
  | .ready => if isStreamName c.streamName then .ok () else .error (noStream c "invalid name")

/-- The way to the broker: what it answers to a message, and what it remembers. -/
structure Outlet (τ : Type) where
  publish : Message → τ → Except Error Nat × τ
  isConnected : τ → Bool

variable {σ τ α : Type}

def inner (f : σ → Except Error α × σ) (s : σ × τ) : Except Error α × σ × τ :=
  let (r, t) := f s.1
  (r, t, s.2)

/-- A backend that publishes each message which the backend inside has stored. Whether the
broker takes it makes no difference. -/
def relay (b : Backend σ) (o : Outlet τ) : Backend (σ × τ) where
  name := "nats"
  append m s :=
    match b.append m s.1 with
    | (.error e, t) => (.error e, t, s.2)
    | (.ok (), t) => (.ok (), t, (o.publish m s.2).2)
  thread id := inner (b.thread id)
  tenant id := inner (b.tenant id)
  find id := inner (b.find id)
  decide id a := inner (b.decide id a)
  health s := if o.isConnected s.2 then inner b.health s else (.ok false, s)

end Parley.Broker
