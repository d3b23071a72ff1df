import Parley.Message.Codec
import Parley.Store.Dedup
import Parley.Table

namespace Parley.Broker

/-- What a consumer receives: an entry, or an error in place of one. -/
inductive Item
  | failed (reason : String)
  | entry (number : Nat) (payload : String)
  deriving DecidableEq

structure Handler where
  name : String
  succeeds : Nat → Bool

inductive Act
  | handled (handler : String) (message : Message) (worked : Bool)
  | acked (number : Nat) (worked : Bool)

structure Consumption where
  seen : Deduplicator
  acts : List Act

/-- The handlers by tenant, and which acknowledgements reach the broker. -/
structure Surroundings where
  handlers : Table String (List Handler)
  ackWorks : Nat → Bool

namespace Consumption

def start : Consumption := ⟨Deduplicator.standard, []⟩

def note (c : Consumption) (a : Act) : Consumption := { c with acts := c.acts ++ [a] }

def handle (m : Message) (c : Consumption) (h : Handler) : Consumption :=
  c.note (.handled h.name m (h.succeeds c.acts.length))

def dispatch (w : Surroundings) (c : Consumption) (m : Message) : Consumption :=
  ((w.handlers.find? m.toTenant).getD []).foldl (handle m) c

/-- Dispatches a message unless its id has been seen. -/
def receive (w : Surroundings) (c : Consumption) (m : Message) : Consumption :=
  let (isNew, seen) := c.seen.firstSeen m.id
  let c := { c with seen }
  if isNew then c.dispatch w m else c

def process (w : Surroundings) (c : Consumption) (payload : String) : Consumption :=
  ((decodeText payload).map (c.receive w)).getD c

/-- Takes an item. Every entry is acknowledged in the end, whatever is in it. -/
def take (w : Surroundings) (c : Consumption) : Item → Consumption
  | .failed _ => c
  | .entry number payload =>
    let c := c.process w payload
    c.note (.acked number (w.ackWorks c.acts.length))

inductive Find
  | item (item : Item)
  | ended
  | nothing
  deriving DecidableEq

structure Look where
  find : Find
  stopped : Bool
  deriving DecidableEq

/-- Takes items until they end, or there is nothing to take and the consumer has been told to
stop. True says that it has returned. -/
def run (w : Surroundings) (c : Consumption) : List Look → Consumption × Bool
  | [] => (c, false)
  | l :: rest =>
    match l.find with
    | .item i => (c.take w i).run w rest
    | .ended => (c, true)
    | .nothing => if l.stopped then (c, true) else c.run w rest

end Consumption

end Parley.Broker
