import Parley.Digest.Chain
import Parley.Message.Codec

namespace Parley

open Time (Instant)

namespace Audit

inductive Action
  | create
  | update
  | delete
  | execute
  | approve
  | reject
  | agentDecision
  deriving DecidableEq

instance : Vocabulary Action where
  all := [.create, .update, .delete, .execute, .approve, .reject, .agentDecision]
  word
    | .create => "create"
    | .update => "update"
    | .delete => "delete"
    | .execute => "execute"
    | .approve => "approve"
    | .reject => "reject"
    | .agentDecision => "agent_decision"

inductive Actor
  | user (name : String)
  | agent (name : String)
  deriving DecidableEq

instance : Coded Actor where
  encode
    | .user name => .obj [("user", .str name)]
    | .agent name => .obj [("agent", .str name)]
  decode
    | .obj [(some key, .str (some name))] =>
      if key = "user" then some (.user name)
      else if key = "agent" then some (.agent name)
      else none
    | _ => none

structure Deed where
  tenant : String
  actor : Actor
  action : Action
  resourceType : String
  resourceId : String
  details : Fields
  confidence : Option Float

/-- A deed in the trail, with its own hash and that of the entry before it. -/
structure Entry where
  id : String
  recordedAt : Instant
  deed : Deed
  hash : String
  previousHash : String

namespace Entry

/-- All of an entry but the hashes. -/
def body (e : Entry) : List (String × Option Json) :=
  [("id", some (.str e.id)),
    ("timestamp", some (encode e.recordedAt)),
    ("tenantId", some (.str e.deed.tenant)),
    ("actor", some (encode e.deed.actor)),
    ("action", some (encode e.deed.action)),
    ("resourceType", some (.str e.deed.resourceType)),
    ("resourceId", some (.str e.deed.resourceId)),
    ("details", some (.obj e.deed.details)),
    ("confidence", e.deed.confidence.map .float)]

def hashable (e : Entry) : Json := .record e.body

instance : Coded Entry where
  encode e := .record
    (e.body ++ [("hash", some (.str e.hash)), ("previousHash", some (.str e.previousHash))])
  decode d := do
    let r ← Record.ofDoc? ["id", "timestamp", "tenantId", "actor", "action", "resourceType",
      "resourceId", "details", "confidence", "hash", "previousHash"] d
    return {
      id := ← r.need "id" Doc.str?
      recordedAt := ← r.need "timestamp" decode
      deed := {
        tenant := ← r.need "tenantId" Doc.str?
        actor := ← r.need "actor" decode
        action := ← r.need "action" decode
        resourceType := ← r.need "resourceType" Doc.str?
        resourceId := ← r.need "resourceId" Doc.str?
        details := ← r.get "details" (Doc.fields? 2) []
        confidence := ← r.find "confidence" Doc.float? }
      hash := ← r.need "hash" Doc.str?
      previousHash := ← r.need "previousHash" Doc.str? }

def after (previous : String) (e : Entry) : Entry :=
  { e with hash := Chain.hash previous e.hashable, previousHash := previous }

/-- Puts entries one after the other from a hash on. -/
def chain (start : String) : List Entry → List Entry
  | [] => []
  | e :: rest => e.after start :: chain (e.after start).hash rest

/-- Whether entries follow each other, and each has its own hash, from a hash on. -/
def verify (start : String) : List Entry → Bool
  | [] => true
  | e :: rest =>
    e.previousHash = start && Chain.hash start e.hashable = e.hash && verify e.hash rest

end Entry

end Audit

end Parley
