import Parley.Store.Backend
import Parley.Table

namespace Parley

/-- Messages in the order of their arrival, with the place of each id and the places of each
thread. -/
structure MemoryLog where
  log : List Message
  index : Table String Nat
  threads : Table String (List Nat)

namespace MemoryLog

def empty : MemoryLog := ⟨[], Table.empty, Table.empty⟩

def size (l : MemoryLog) : Nat := l.log.length

/-- Adds a message whose id is new; any other changes nothing. -/
def append (l : MemoryLog) (m : Message) : MemoryLog :=
  match l.index.find? m.id with
  | some _ => l
  | none =>
    { log := l.log ++ [m]
      index := l.index.set m.id l.size
      threads := l.threads.set m.threadId ((l.threads.find? m.threadId).getD [] ++ [l.size]) }

def thread (l : MemoryLog) (id : String) : List Message :=
  ((l.threads.find? id).getD []).filterMap (l.log[·]?)

def ofTenant (l : MemoryLog) (tenant : String) : List Message := l.log.filter (·.concerns tenant)

def find? (l : MemoryLog) (id : String) : Option Message := (l.index.find? id).bind (l.log[·]?)

def decide (l : MemoryLog) (id : String) (a : Approval) : Bool × MemoryLog :=
  match l.index.find? id with
  | none => (false, l)
  | some i => (true, { l with log := l.log.modify i a.apply })

def backend : Backend MemoryLog where
  name := "memory"
  append m l := (.ok (), l.append m)
  thread id l := (.ok (l.thread id), l)
  tenant id l := (.ok (l.ofTenant id), l)
  find id l := (.ok (l.find? id), l)
  decide id a l := let (known, l) := l.decide id a; (.ok known, l)
  health l := (.ok true, l)

end MemoryLog

end Parley
