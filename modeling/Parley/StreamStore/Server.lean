import Parley.Decimal.Layout
import Parley.Table

namespace Parley.StreamStore

/-- An entry of a stream; entries are numbered in the order in which the server takes them. -/
structure Entry where
  number : Nat
  fields : List (String × String)
  deriving DecidableEq

def entryId (number : Nat) : String := Decimal.natText number ++ "-0"

def Entry.id (e : Entry) : String := entryId e.number

structure Handout where
  number : Nat
  consumer : String
  deriving DecidableEq

def Handout.id (h : Handout) : String := entryId h.number

/-- A group of consumers that share a stream: each entry goes to one of them. -/
structure Group where
  reached : Nat
  pending : List Handout

structure Stream where
  entries : List Entry
  groups : Table String Group

def Stream.empty : Stream := ⟨[], Table.empty⟩

inductive Content
  | stream (stream : Stream)
  | hash (hash : Table String String)

/-- How a server reads the id of an entry: as a time and a number, or not at all. -/
abbrev IdReader := String → Option (Nat × Nat)

namespace IdReader

def word? (digits : List Char) : Option Nat :=
  let n := Nat.ofDigitChars 10 digits 0
  if digits ≠ [] ∧ digits.all Char.isDigit ∧ n < Nat.pow 2 64 then some n else none

/-- An id without a number behind its time has the number zero. -/
def standard : IdReader := fun text =>
  match text.toList.span (· ≠ '-') with
  | (time, []) => (word? time).map (·, 0)
  | (time, _ :: number) =>
    match word? time, word? number with
    | some time, some number => some (time, number)
    | _, _ => none

end IdReader

/-- What the server holds under its keys, how many entries it has numbered, and how it reads
ids. -/
structure Server where
  contents : Table String Content
  numbered : Nat
  reads : IdReader

inductive Write
  | add (key : String) (fields : List (String × String))
  | set (key field value : String)
  deriving DecidableEq

namespace Server

def reading (reads : IdReader) : Server := ⟨Table.empty, 0, reads⟩

def empty : Server := .reading .standard

def wrongType : String := "WRONGTYPE Operation against a key holding the wrong kind of value"

def groupExists : String := "BUSYGROUP Consumer Group name already exists"

def noGroup : String := "NOGROUP No such key or consumer group"

def invalidId : String := "ERR Invalid stream ID specified as stream command argument"

def put (s : Server) (key : String) (c : Content) : Server :=
  { s with contents := s.contents.set key c }

def hashAt (s : Server) (key : String) : Except String (Table String String) :=
  match s.contents.find? key with
  | none => .ok Table.empty
  | some (.hash h) => .ok h
  | some (.stream _) => .error wrongType

def streamAt (s : Server) (key : String) : Except String Stream :=
  match s.contents.find? key with
  | none => .ok Stream.empty
  | some (.stream t) => .ok t
  | some (.hash _) => .error wrongType

def has (s : Server) (key field : String) : Except String Bool :=
  (s.hashAt key).map fun h => (h.find? field).isSome

def get (s : Server) (key field : String) : Except String (Option String) :=
  (s.hashAt key).map (·.find? field)

def getAll (s : Server) (key : String) (fields : List String) :
    Except String (List (Option String)) :=
  (s.hashAt key).map fun h => fields.map h.find?

def set (key field value : String) (s : Server) : Except String Unit × Server :=
  match s.hashAt key with
  | .error e => (.error e, s)
  | .ok h => (.ok (), s.put key (.hash (h.set field value)))

def add (key : String) (fields : List (String × String)) (s : Server) :
    Except String Unit × Server :=
  match s.streamAt key with
  | .error e => (.error e, s)
  | .ok t =>
    let n := s.numbered + 1
    (.ok (), { s.put key (.stream { t with entries := t.entries ++ [⟨n, fields⟩] }) with
      numbered := n })

def write (s : Server) : Write → Except String Unit × Server
  | .add key fields => s.add key fields
  | .set key field value => s.set key field value

/-- Carries out writes with nothing in between. One that fails does not undo the others. -/
def transaction (s : Server) : List Write → List (Except String Unit) × Server
  | [] => ([], s)
  | w :: rest =>
    let (r, s) := s.write w
    let (rs, s) := s.transaction rest
    (r :: rs, s)

def range (s : Server) (key : String) : Except String (List Entry) :=
  (s.streamAt key).map Stream.entries

/-- Makes a group that starts at the first entry, and the stream if there is none. -/
def makeGroup (key group : String) (s : Server) : Except String Unit × Server :=
  match s.streamAt key with
  | .error e => (.error e, s)
  | .ok t =>
    match t.groups.find? group with
    | some _ => (.error groupExists, s)
    | none => (.ok (), s.put key (.stream { t with groups := t.groups.set group ⟨0, []⟩ }))

def groupAt (s : Server) (key group : String) : Except String (Stream × Group) :=
  match s.streamAt key with
  | .error e => .error e
  | .ok t =>
    match t.groups.find? group with
    | none => .error noGroup
    | some g => .ok (t, g)

def putGroup (s : Server) (key group : String) (t : Stream) (g : Group) : Server :=
  s.put key (.stream { t with groups := t.groups.set group g })

/-- At most `count` of the entries that a group has not reached yet; zero is no limit. -/
def Group.unread (g : Group) (t : Stream) (count : Nat) : List Entry :=
  let fresh := t.entries.filter fun e => g.reached < e.number
  if count = 0 then fresh else fresh.take count

def Group.handOut (g : Group) (consumer : String) (entries : List Entry) : Group where
  reached := ((entries.getLast?).map Entry.number).getD g.reached
  pending := g.pending ++ entries.map fun e => ⟨e.number, consumer⟩

def readGroup (key group consumer : String) (count : Nat) (s : Server) :
    Except String (List Entry) × Server :=
  match s.groupAt key group with
  | .error e => (.error e, s)
  | .ok (t, g) =>
    let entries := Group.unread g t count
    (.ok entries, s.putGroup key group t (Group.handOut g consumer entries))

/-- Takes entries off the list of a group, and says how many of them were on it. Nothing is taken
off if one of the ids cannot be read. -/
def ack (key group : String) (ids : List String) (s : Server) : Except String Nat × Server :=
  match s.streamAt key with
  | .error e => (.error e, s)
  | .ok t =>
    match t.groups.find? group with
    | none => (.ok 0, s)
    | some g =>
      let named := ids.map s.reads
      if none ∈ named then (.error invalidId, s)
      else
        let kept := g.pending.filter fun h => some (h.number, 0) ∉ named
        (.ok (g.pending.length - kept.length), s.putGroup key group t { g with pending := kept })

def pending (s : Server) (key group : String) (count : Nat) : Except String (List Handout) :=
  (s.groupAt key group).map fun (_, g) => g.pending.take count

end Server

end Parley.StreamStore
