import Parley.Message.Basic
import Parley.Table

namespace Parley.StreamStore

/-- The last messages of the threads admitted last: at most `maxThreads` threads of at most
`maxMessages` messages. -/
structure Cache where
  threads : Table String (List Message)
  order : List String
  maxThreads : Nat
  maxMessages : Nat

namespace Cache

def new (maxThreads maxMessages : Nat) : Cache := ⟨Table.empty, [], maxThreads, maxMessages⟩

def get (c : Cache) (thread : String) : List Message := (c.threads.find? thread).getD []

def makeRoom (c : Cache) : Cache :=
  if c.order.length = c.maxThreads then
    match c.order with
    | oldest :: rest => { c with threads := c.threads.erase oldest, order := rest }
    | [] => c
  else c

/-- Admits a thread unless it is in the cache; that does not renew it. -/
def enter (c : Cache) (thread : String) : Cache :=
  match c.threads.find? thread with
  | some _ => c
  | none =>
    let c := c.makeRoom
    { c with order := c.order ++ [thread] }

def extend (limit : Nat) (list : List Message) (m : Message) : List Message :=
  (if list.length = limit then list.tail else list) ++ [m]

def push (c : Cache) (m : Message) : Cache :=
  if c.maxThreads = 0 ∨ c.maxMessages = 0 then c
  else
    let c := c.enter m.threadId
    { c with threads := c.threads.set m.threadId (extend c.maxMessages (c.get m.threadId) m) }

def decideIn (id : String) (a : Approval) (list : List Message) : List Message :=
  list.map fun m => if m.id = id then a.apply m else m

/-- Puts a decision on every copy of a message. -/
def decide (c : Cache) (id : String) (a : Approval) : Cache :=
  { c with threads := ⟨c.threads.entries.map fun t => (t.1, decideIn id a t.2)⟩ }

def size (c : Cache) : Nat := c.threads.entries.length

end Cache

end Parley.StreamStore
