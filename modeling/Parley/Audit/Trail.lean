import Parley.Audit.Entry

namespace Parley.Audit

open Time (Instant)

/-- The writer of an audit trail: the chain so far, and the entries not yet handed over. -/
structure Trail where
  chain : Chain
  buffer : List Entry

namespace Trail

def resume (hash : String) : Trail := ⟨⟨hash⟩, []⟩

def start : Trail := resume Chain.genesis

def lastHash (t : Trail) : String := t.chain.last

def pending (t : Trail) : Nat := t.buffer.length

def entryFor (t : Trail) (id : String) (time : Instant) (deed : Deed) : Entry :=
  Entry.after t.chain.last ⟨id, time, deed, "", ""⟩

def push (t : Trail) (e : Entry) : Trail := ⟨⟨e.hash⟩, t.buffer ++ [e]⟩

def record (t : Trail) (id : String) (time : Instant) (deed : Deed) : Entry × Trail :=
  let e := t.entryFor id time deed
  (e, t.push e)

/-- Hands over what was recorded since the last time. -/
def flush (t : Trail) : List Entry × Trail := (t.buffer, { t with buffer := [] })

end Trail

structure AgentDecision where
  tenant : String
  agent : String
  decision : String
  reasoning : String
  confidence : Float
  resourceType : String
  resourceId : String
  input : Fields

def AgentDecision.deed (d : AgentDecision) : Deed where
  tenant := d.tenant
  actor := .agent d.agent
  action := .agentDecision
  resourceType := d.resourceType
  resourceId := d.resourceId
  details := Fields.insert "input_summary" (.obj d.input)
    (Fields.insert "reasoning" (.str d.reasoning) [("decision", .str d.decision)])
  confidence := some d.confidence

end Parley.Audit
