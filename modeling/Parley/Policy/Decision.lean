import Parley.Policy.Basic

namespace Parley.Policy

structure Request where
  agent : String
  confidence : Float
  amount : Option Float

/-- The checks of a request, in the order in which they are made. -/
inductive Check
  | invalidRequest
  | auditMode
  | agentNotAllowed
  | confidenceTooLow
  | amountTooHigh
  deriving DecidableEq

instance : Vocabulary Check where
  all := [.invalidRequest, .auditMode, .agentNotAllowed, .confidenceTooLow, .amountTooHigh]
  word
    | .invalidRequest => "invalid_request"
    | .auditMode => "audit_mode"
    | .agentNotAllowed => "agent_not_allowed"
    | .confidenceTooLow => "confidence_too_low"
    | .amountTooHigh => "amount_too_high"

inductive Objection
  | invalidConfidence (confidence : Float)
  | invalidAmount (amount : Float)
  | auditMode
  | agentNotAllowed (agent : String)
  | confidenceTooLow (confidence threshold : Float) (tier : Tier)
  | amountTooHigh (amount limit : Float)
  deriving DecidableEq

namespace Objection

def check : Objection → Check
  | invalidConfidence _ | invalidAmount _ => .invalidRequest
  | auditMode => .auditMode
  | agentNotAllowed _ => .agentNotAllowed
  | confidenceTooLow .. => .confidenceTooLow
  | amountTooHigh .. => .amountTooHigh

def text : Objection → String
  | invalidConfidence x => "invalid confidence " ++ Decimal.plainText x
  | invalidAmount x => "invalid amount " ++ Decimal.plainText x
  | auditMode => "human approval required"
  | agentNotAllowed agent => "agent '" ++ agent ++ "' not allowed to auto-execute"
  | confidenceTooLow x threshold tier =>
    "confidence " ++ Decimal.fixedText 2 x ++ " below threshold " ++
      Decimal.fixedText 2 threshold ++ " (tier: " ++ Vocabulary.word tier ++ ")"
  | amountTooHigh x limit =>
    "amount " ++ Decimal.fixedText 0 x ++ " exceeds limit " ++ Decimal.fixedText 0 limit

end Objection

def Request.badAmount (r : Request) : Option Float :=
  r.amount.filter fun x => !x.isFinite || x < 0.0

def Request.flaw (r : Request) : Option Objection :=
  if !inUnit r.confidence then some (.invalidConfidence r.confidence)
  else r.badAmount.map .invalidAmount

namespace Config

def excess (c : Config) (r : Request) : Option Objection :=
  (r.amount.filter (c.maxAmount < ·)).map (.amountTooHigh · c.maxAmount)

def assistObjection (c : Config) (r : Request) : Option Objection :=
  if r.agent ∉ c.allowed then some (.agentNotAllowed r.agent)
  else
    let threshold := c.effectiveThreshold r.agent
    if r.confidence < threshold then
      some (.confidenceTooLow r.confidence threshold (tierOf r.agent))
    else c.excess r

def objection (c : Config) (r : Request) : Option Objection :=
  match r.flaw with
  | some o => some o
  | none =>
    match c.mode with
    | .audit => some .auditMode
    | .autonomous => none
    | .assist => c.assistObjection r

def assent : Mode → String
  | .autonomous => "autonomous mode: auto-execute"
  | _ => "assist mode: all conditions met"

end Config

structure Decision where
  approved : Bool
  reason : String
  mode : Mode
  tier : Tier
  confidence : Float
  deniedBy : Option Check
  deriving DecidableEq

def Config.decide (c : Config) (r : Request) : Decision :=
  let objection := c.objection r
  { approved := objection.isNone
    reason := (objection.map Objection.text).getD (assent c.mode)
    mode := c.mode
    tier := tierOf r.agent
    confidence := r.confidence
    deniedBy := objection.map Objection.check }

instance : Coded Request where
  encode r := .record
    [("agent", some (.str r.agent)), ("confidence", some (.float r.confidence)),
      ("amount", r.amount.map .float)]
  decode doc := do
    let r ← Record.ofDoc? ["agent", "confidence", "amount"] doc
    return ⟨← r.need "agent" Doc.str?, ← r.need "confidence" Doc.float?,
      ← r.find "amount" Doc.float?⟩

instance : Coded Decision where
  encode d := .record
    [("approved", some (.bool d.approved)),
      ("reason", some (.str d.reason)),
      ("mode", some (encode d.mode)),
      ("riskTier", some (encode d.tier)),
      ("confidence", some (.float d.confidence)),
      ("deniedBy", d.deniedBy.map encode)]
  decode doc := do
    let r ← Record.ofDoc? ["approved", "reason", "mode", "riskTier", "confidence", "deniedBy"] doc
    return {
      approved := ← r.need "approved" Doc.bool?
      reason := ← r.need "reason" Doc.str?
      mode := ← r.need "mode" decode
      tier := ← r.need "riskTier" decode
      confidence := ← r.need "confidence" Doc.float?
      deniedBy := ← r.find "deniedBy" decode }

end Parley.Policy
