import Parley.Store.Backend

namespace Parley

/-- Which calls a backend refuses for now, and with what error. -/
structure Outage where
  appends : List Kind
  thread : Bool
  tenant : Bool
  find : Bool
  decide : Bool
  health : Bool
  /-- Decisions are accepted but not kept, and reported as being for no known message. -/
  decisionsLost : Bool
  /-- The error, given what a failed delivery was for. -/
  error : String → Error

namespace Outage

def none : Outage := ⟨[], false, false, false, false, false, false, fun _ => .provider ""⟩

variable {σ α : Type}

def guard (fails : Bool) (error : Error) (call : σ → Except Error α × σ) (s : Outage × σ) :
    Except Error α × Outage × σ :=
  if fails then (.error error, s)
  else
    let (r, t) := call s.2
    (r, s.1, t)

def backend (b : Backend σ) : Backend (Outage × σ) where
  name := b.name
  append m s := guard (s.1.appends.contains m.kind) (s.1.error m.toTenant) (b.append m) s
  thread id s := guard s.1.thread (s.1.error "thread") (b.thread id) s
  tenant id s := guard s.1.tenant (s.1.error "tenant") (b.tenant id) s
  find id s := guard s.1.find (s.1.error "find") (b.find id) s
  decide id a s :=
    if s.1.decide then (.error (s.1.error "approval"), s)
    else if s.1.decisionsLost then (.ok false, s)
    else guard false (s.1.error "approval") (b.decide id a) s
  health s := guard s.1.health (s.1.error "health") b.health s

end Outage

end Parley
