import Parley.Store.Backend
import Parley.StreamStore.Cache
import Parley.StreamStore.Client

namespace Parley.StreamStore

/-- A client at work: its line, the threads it keeps for an outage, the tenants whose groups
it knows to exist, and the time it has spent between attempts. -/
structure Session (φ : Type) where
  line : Line φ
  cache : Cache
  groups : List String
  clock : Nat

def Config.cache (c : Config) : Cache := Cache.new c.cachedThreads c.cachedMessages

def Session.new (c : Config) (server : Server) (faults : φ) : Session φ :=
  ⟨⟨server, faults, []⟩, c.cache, [], 0⟩

namespace Client

variable {φ α : Type}

def onLine (f : Line φ → Except Error α × Line φ) (s : Session φ) : Except Error α × Session φ :=
  let (r, line) := f s.line
  (r, { s with line })

def persist (cl : Client φ) (target : String) (f : Line φ → Except Error α × Line φ)
    (s : Session φ) : Except Error α × Session φ :=
  Retry.run cl.config.retry target
    (fun _ s => let (r, s) := onLine f s; (Retry.Outcome.ofExcept r, s))
    (fun millis s => { s with clock := s.clock + millis }) s

def decided (list : List (String × Approval)) (m : Message) : Message :=
  ((list.lookup m.id).map (·.apply m)).getD m

def overlay (cl : Client φ) (ms : List Message) (l : Line φ) :
    Except Error (List Message) × Line φ :=
  let (r, l) := cl.approvals (ms.map Message.id) l
  (r.map fun list => ms.map (decided list), l)

def stream (cl : Client φ) (key : String) (l : Line φ) : Except Error (List Message) × Line φ :=
  match cl.range key l with
  | (.error e, l) => (.error e, l)
  | (.ok ms, l) => cl.overlay ms l

/-- Stores a message, and keeps it if it was new. -/
def store (cl : Client φ) (m : Message) (s : Session φ) : Except Error Unit × Session φ :=
  match cl.persist (cl.config.tenantKey m.toTenant) (cl.append m) s with
  | (.error e, s) => (.error e, s)
  | (.ok true, s) => (.ok (), { s with cache := s.cache.push m })
  | (.ok false, s) => (.ok (), s)

/-- A thread from the server, or what is kept of it if the server cannot be reached. -/
def thread (cl : Client φ) (id : String) (s : Session φ) :
    Except Error (List Message) × Session φ :=
  match onLine (cl.stream (cl.config.threadKey id)) s with
  | (.ok ms, s) => (.ok ms, s)
  | (.error e, s) => if e.isTransient then (.ok (s.cache.get id), s) else (.error e, s)

def ofTenant (cl : Client φ) (tenant : String) (s : Session φ) :
    Except Error (List Message) × Session φ :=
  onLine (cl.stream (cl.config.tenantKey tenant)) s

def lookUp (cl : Client φ) (id : String) (l : Line φ) : Except Error (Option Message) × Line φ :=
  match cl.find id l with
  | (.error e, l) => (.error e, l)
  | (.ok none, l) => (.ok none, l)
  | (.ok (some m), l) =>
    let (r, l) := cl.approvals [id] l
    (r.map fun list => some (((list.lookup id).map (·.apply m)).getD m), l)

def settle (cl : Client φ) (id : String) (a : Approval) (s : Session φ) :
    Except Error Bool × Session φ :=
  match cl.persist cl.config.approvalsKey (cl.decide id a) s with
  | (.error e, s) => (.error e, s)
  | (.ok true, s) => (.ok true, { s with cache := s.cache.decide id a })
  | (.ok false, s) => (.ok false, s)

def isReachable (cl : Client φ) (s : Session φ) : Except Error Bool × Session φ :=
  let (r, s) := onLine cl.ping s
  (.ok r.toBool, s)

def backend (cl : Client φ) : Backend (Session φ) where
  name := "redis"
  append := cl.store
  thread := cl.thread
  tenant := cl.ofTenant
  find id := onLine (cl.lookUp id)
  decide := cl.settle
  health := cl.isReachable

def joinGroup (cl : Client φ) (tenant : String) (s : Session φ) : Except Error Unit × Session φ :=
  if tenant ∈ s.groups then (.ok (), s)
  else
    match onLine (cl.ensureGroup tenant) s with
    | (.error e, s) => (.error e, s)
    | (.ok (), s) => (.ok (), { s with groups := tenant :: s.groups })

def inGroup (cl : Client φ) (tenant : String) (f : Line φ → Except Error α × Line φ)
    (s : Session φ) : Except Error α × Session φ :=
  match cl.joinGroup tenant s with
  | (.error e, s) => (.error e, s)
  | (.ok (), s) => onLine f s

/-- Reads further entries of the stream of a tenant, and makes its group first. -/
def consume (cl : Client φ) (tenant consumer : String) (s : Session φ) :
    Except Error (List Reading) × Session φ :=
  cl.inGroup tenant (cl.read tenant consumer) s

def unacknowledged (cl : Client φ) (tenant : String) (count : Nat) (s : Session φ) :
    Except Error (List Handout) × Session φ :=
  cl.inGroup tenant (cl.pending tenant count) s

def acknowledge (cl : Client φ) (tenant : String) (ids : List String) (s : Session φ) :
    Except Error Nat × Session φ :=
  onLine (cl.ack tenant ids) s

end Client

end Parley.StreamStore
