import Parley.Message.Basic
import Parley.Table

namespace Parley

inductive Outcome
  | approved
  | rejected
  | timedOut
  | cancelled
  deriving DecidableEq

instance : Vocabulary Outcome where
  all := [.approved, .rejected, .timedOut, .cancelled]
  word
    | .approved => "approved"
    | .rejected => "rejected"
    | .timedOut => "timed_out"
    | .cancelled => "cancelled"

namespace Outcome

def isApproved (o : Outcome) : Bool := o = approved

def ofVerdict (approved : Bool) : Outcome := if approved then .approved else .rejected

def ofMessage? (m : Message) : Option Outcome := m.approved.map ofVerdict

end Outcome

inductive Phase
  | registered
  | blocked (deadline : Nat)
  | leaving (answer : Except Error Outcome)
  | returned (answer : Except Error Outcome)
  | dropped

/-- One wait for the decision on a message. While it listens it can be sent an outcome. -/
structure Wait where
  message : String
  phase : Phase
  sent : Option Outcome
  listening : Bool

/-- All waits by their tickets, and for each message the tickets that stand to be told. -/
structure Desk where
  senders : Table String (List Nat)
  waits : Table Nat Wait
  issued : Nat

namespace Desk

def empty : Desk := ⟨Table.empty, Table.empty, 0⟩

def ticketsOf (d : Desk) (message : String) : List Nat := (d.senders.find? message).getD []

def put (d : Desk) (ticket : Nat) (w : Wait) : Desk := { d with waits := d.waits.set ticket w }

def change (d : Desk) (ticket : Nat) (f : Wait → Wait) : Desk :=
  match d.waits.find? ticket with
  | none => d
  | some w => d.put ticket (f w)

def isListening (d : Desk) (ticket : Nat) : Bool := (d.waits.find? ticket).any Wait.listening

/-- Starts a wait. It stands to be told before the message is looked up, so that a decision
in between is not lost. -/
def register (d : Desk) (message : String) : Nat × Desk :=
  (d.issued,
    { senders := d.senders.set message (d.ticketsOf message ++ [d.issued])
      waits := d.waits.set d.issued ⟨message, .registered, none, true⟩
      issued := d.issued + 1 })

def notFound (message : String) : Error := .notFound ("Message not found: " ++ message)

def Wait.leave (answer : Except Error Outcome) (w : Wait) : Wait :=
  { w with phase := .leaving answer, listening := false }

/-- A wait that has looked its message up: it goes on only if there is no decision yet. One
that found no message still listens while it leaves. -/
def lookedUp (d : Desk) (ticket : Nat) (deadline : Nat) (found : Except Error (Option Message)) :
    Desk :=
  d.change ticket fun w =>
    match found with
    | .error e => { w with phase := .leaving (.error e) }
    | .ok none => { w with phase := .leaving (.error (notFound w.message)) }
    | .ok (some m) =>
      match Outcome.ofMessage? m with
      | some o => Wait.leave (.ok o) w
      | none => { w with phase := .blocked deadline }

def collect (d : Desk) (ticket : Nat) : Desk :=
  d.change ticket fun w =>
    match w.phase, w.sent with
    | .blocked _, some o => Wait.leave (.ok o) w
    | _, _ => w

def timeOut (d : Desk) (ticket : Nat) : Desk :=
  d.change ticket fun w =>
    match w.phase, w.sent with
    | .blocked _, none => Wait.leave (.ok .timedOut) w
    | _, _ => w

/-- Strikes the tickets of a message that no longer listen. -/
def strike (d : Desk) (message : String) : Desk :=
  match d.senders.find? message with
  | none => d
  | some tickets =>
    match tickets.filter d.isListening with
    | [] => { d with senders := d.senders.erase message }
    | kept => { d with senders := d.senders.set message kept }

def prune (d : Desk) (ticket : Nat) : Desk :=
  match d.waits.find? ticket with
  | some w =>
    match w.phase with
    | .leaving answer =>
      (d.strike w.message).change ticket fun w =>
        { w with phase := .returned answer, listening := false }
    | _ => d
  | none => d

def abandon (d : Desk) (ticket : Nat) : Desk :=
  d.change ticket fun w =>
    match w.phase with
    | .returned _ => w
    | _ => { w with phase := .dropped, listening := false }

def tell (outcome : Outcome) (d : Desk) (ticket : Nat) : Desk :=
  if d.isListening ticket then d.change ticket fun w => { w with sent := some outcome } else d

def notify (d : Desk) (message : String) (outcome : Outcome) : Nat × Desk :=
  let tickets := d.ticketsOf message
  ((tickets.filter d.isListening).length,
    tickets.foldl (tell outcome) { d with senders := d.senders.erase message })

def settleOne (now : Nat) (d : Desk) (ticket : Nat) : Desk :=
  let d := d.collect ticket
  let due : Bool :=
    match (d.waits.find? ticket).map Wait.phase with
    | some (.blocked deadline) => deadline ≤ now
    | _ => false
  (if due then d.timeOut ticket else d).prune ticket

def settle (now : Nat) (d : Desk) : Desk := d.waits.keys.foldl (settleOne now) d

def answer? (d : Desk) (ticket : Nat) : Option (Except Error Outcome) :=
  match (d.waits.find? ticket).map Wait.phase with
  | some (.returned answer) => some answer
  | _ => none

def deadline? (d : Desk) (ticket : Nat) : Option Nat :=
  match (d.waits.find? ticket).map Wait.phase with
  | some (.blocked deadline) => some deadline
  | _ => none

end Desk

end Parley
