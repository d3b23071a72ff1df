import Parley.Broker.Relay
import Parley.Table

namespace Parley.Broker

structure Publication where
  subject : String
  messageId : Option String
  payload : String
  deriving DecidableEq

/-- A durable consumer: the subject it was made for, and the entries it has acknowledged. -/
structure Consumer where
  subject : String
  acked : List Nat
  deriving DecidableEq

/-- The stream at the broker. Its entries are numbered from one. -/
structure Stream where
  entries : List Publication
  consumers : Table String Consumer

namespace Stream

def empty : Stream := ⟨[], Table.empty⟩

def numberOf? (s : Stream) (id : String) : Option Nat :=
  (s.entries.findIdx? fun p => p.messageId = some id).map (· + 1)

/-- Stores what is published unless its id is stored, and answers with its number. -/
def publish (p : Publication) (s : Stream) : Nat × Stream :=
  match p.messageId.bind s.numberOf? with
  | some n => (n, s)
  | none => (s.entries.length + 1, { s with entries := s.entries ++ [p] })

/-- Makes a consumer unless there is one of its name, which keeps the subject it has. -/
def makeConsumer (name subject : String) (s : Stream) : Stream :=
  match s.consumers.find? name with
  | some _ => s
  | none => { s with consumers := s.consumers.set name ⟨subject, []⟩ }

def deleteConsumer (name : String) (s : Stream) : Stream :=
  { s with consumers := s.consumers.erase name }

def numbered (s : Stream) : List (Nat × Publication) := s.entries.mapIdx fun i p => (i + 1, p)

def feed (s : Stream) (name : String) : List (Nat × Publication) :=
  match s.consumers.find? name with
  | none => []
  | some c => s.numbered.filter fun e => e.2.subject = c.subject && e.1 ∉ c.acked

def ack (name : String) (number : Nat) (s : Stream) : Stream :=
  match s.consumers.find? name with
  | none => s
  | some c => { s with consumers := s.consumers.set name { c with acked := number :: c.acked } }

end Stream

def Config.publication (c : Config) (m : Message) : Publication :=
  ⟨c.subject m.toTenant, some m.id, encodeText m⟩

inductive Passage
  | stored
  | refused (reason : String)
  | unconfirmed (reason : String) (kept : Bool)

def Config.outlet (c : Config) : Outlet Stream where
  publish m s :=
    let (n, s) := s.publish (c.publication m)
    (.ok n, s)
  isConnected _ := true

/-- The way to a stream on which messages and answers get lost. When nothing more is scheduled,
all arrive. -/
def Config.lossyOutlet (c : Config) : Outlet (List Passage × Stream) where
  publish m s :=
    let p := c.publication m
    let (n, stored) := s.2.publish p
    match s.1 with
    | [] => (.ok n, [], stored)
    | .stored :: rest => (.ok n, rest, stored)
    | .refused reason :: rest => (.error (.delivery p.subject reason), rest, s.2)
    | .unconfirmed reason kept :: rest =>
      (.error (.delivery p.subject ("ack failed: " ++ reason)), rest, if kept then stored else s.2)
  isConnected _ := true

end Parley.Broker
