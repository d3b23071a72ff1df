import Parley.Audit.Trail
import Parley.Governance.Stats

namespace Parley.Governance

open Time (Instant)

/-- The log of gate decisions, what is counted from it, and the errors that agents made in a
row. With a trail every decision is kept there too. -/
structure Ledger where
  config : Config
  log : List LogEntry
  stats : Table String Stats
  errors : Table (String × String) Nat
  trail : Option Audit.Trail

def verdict (approved : Bool) : String := if approved then "auto_execute" else "require_approval"

def LogEntry.toAudit (e : LogEntry) : Audit.AgentDecision where
  tenant := e.tenant
  agent := e.agent
  decision := verdict e.approved
  reasoning := e.reason
  confidence := e.confidence
  resourceType := "execution_decision"
  resourceId := e.id
  input := e.input

namespace Ledger

def new (config : Config) (trail : Option Audit.Trail) : Ledger :=
  ⟨config, [], Table.empty, Table.empty, trail⟩

structure Case where
  id : String
  tenant : String
  agent : String
  decision : Policy.Decision
  input : Fields
  output : Fields

def Case.entry (c : Case) (time : Instant) : LogEntry where
  id := c.id
  tenant := c.tenant
  agent := c.agent
  mode := c.decision.mode
  tier := c.decision.tier
  confidence := c.decision.confidence
  approved := c.decision.approved
  reason := c.decision.reason
  recordedAt := time
  input := c.input
  output := c.output
  review := .pending
  notes := ""

def statsOf (l : Ledger) (tenant : String) : Stats := (l.stats.find? tenant).getD Stats.empty

def errorCount (l : Ledger) (tenant agent : String) : Nat := (l.errors.find? (tenant, agent)).getD 0

def enter (l : Ledger) (e : LogEntry) : Ledger :=
  { l with log := l.log ++ [e], stats := l.stats.set e.tenant ((l.statsOf e.tenant).add e) }

/-- Logs a decision. It goes to the trail first, so that a trail which refuses it, with
`refusal`, leaves nothing counted. -/
def record (l : Ledger) (refusal : Option Error) (auditId : String) (time : Instant) (c : Case) :
    Except Error LogEntry × Ledger :=
  let e := c.entry time
  match l.trail, refusal with
  | some _, some error => (.error error, l)
  | some t, none =>
    let (_, t) := t.record auditId time e.toAudit.deed
    (.ok e, { l.enter e with trail := some t })
  | none, _ => (.ok e, l.enter e)

/-- Counts an error of an agent; true says to suspend it. -/
def recordError (l : Ledger) (tenant agent : String) : Bool × Ledger :=
  let n := l.errorCount tenant agent + 1
  (l.config.maxErrors ≤ n, { l with errors := l.errors.set (tenant, agent) n })

def clearErrors (l : Ledger) (tenant agent : String) : Ledger :=
  { l with errors := l.errors.erase (tenant, agent) }

def amend (id : String) (change : LogEntry → LogEntry) : List LogEntry → List LogEntry
  | [] => []
  | e :: rest => if e.id = id then change e :: rest else e :: amend id change rest

def review (status : Review) (notes : String) (e : LogEntry) : LogEntry :=
  { e with review := status, notes }

def find? (l : Ledger) (id : String) : Option LogEntry := l.log.find? fun e => e.id = id

def markReviewed (l : Ledger) (id notes : String) : Bool × Ledger :=
  match l.find? id with
  | none => (false, l)
  | some _ => (true, { l with log := amend id (review .reviewed notes) l.log })

def flag (l : Ledger) (id notes : String) : Bool × Ledger :=
  match l.find? id with
  | none => (false, l)
  | some e =>
    let s := l.statsOf e.tenant
    (true, { l with log := amend id (review .flagged notes) l.log
                    stats := l.stats.set e.tenant { s with flagged := s.flagged + 1 } })

def ofTenant (l : Ledger) (tenant : String) : List LogEntry :=
  l.log.filter fun e => e.tenant = tenant

def pending (l : Ledger) (tenant : String) : List LogEntry :=
  (l.ofTenant tenant).filter fun e => e.review = .pending

/-- The last `limit` entries of a tenant, or of one of its agents, oldest first. -/
def recent (l : Ledger) (tenant : String) (agent : Option String) (limit : Nat) : List LogEntry :=
  let entries := (l.ofTenant tenant).filter fun e => agent.all (e.agent = ·)
  entries.drop (entries.length - limit)

def anomalies (l : Ledger) (tenant : String) : List Anomaly := (l.statsOf tenant).anomalies l.config

def flushTrail (l : Ledger) : Option (List Audit.Entry) × Ledger :=
  match l.trail with
  | none => (none, l)
  | some t =>
    let (entries, t) := t.flush
    (some entries, { l with trail := some t })

end Ledger

def insertByName (a : String × Policy.Tier) : List (String × Policy.Tier) →
    List (String × Policy.Tier)
  | [] => [a]
  | b :: rest => if a.1 < b.1 then a :: b :: rest else b :: insertByName a rest

def agentsByName : List (String × Policy.Tier) := Policy.agents.foldr insertByName []

end Parley.Governance
