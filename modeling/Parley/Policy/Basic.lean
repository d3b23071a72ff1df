import Parley.Message.Codec
import Parley.Table

namespace Parley

namespace Policy

inductive Mode
  | audit
  | assist
  | autonomous
  deriving DecidableEq

instance : Vocabulary Mode where
  all := [.audit, .assist, .autonomous]
  word
    | .audit => "audit"
    | .assist => "assist"
    | .autonomous => "autonomous"

def Mode.parse (text : String) : Except Error Mode := Vocabulary.parse "execution mode" text

inductive Tier
  | low
  | medium
  | high
  | critical
  deriving DecidableEq

instance : Vocabulary Tier where
  all := [.low, .medium, .high, .critical]
  word
    | .low => "low"
    | .medium => "medium"
    | .high => "high"
    | .critical => "critical"

namespace Tier

def parse (text : String) : Except Error Tier := Vocabulary.parse "risk tier" text

def rank : Tier → Nat
  | low => 0
  | medium => 1
  | high => 2
  | critical => 3

/-- The confidence a tier asks for. No confidence reaches that of the critical tier. -/
def threshold : Tier → Float
  | low => 0.70
  | medium => 0.85
  | high => 0.92
  | critical => 1.01

end Tier

def agents : List (String × Tier) :=
  [("auditor_orchestrator", .high),
    ("auditor_planner", .high),
    ("auditor_data_collector", .low),
    ("auditor_controls_tester", .medium),
    ("auditor_anomaly_detective", .medium),
    ("auditor_report_writer", .high),
    ("auditor_follow_up", .medium),
    ("auditor_knowledge", .low),
    ("auditee_orchestrator", .medium),
    ("auditee_response", .medium),
    ("auditee_evidence_search", .low),
    ("auditee_prep", .low),
    ("auditee_risk_alert", .high),
    ("auditee_controls_monitor", .low)]

/-- The tier of an agent; one that is not known is of the high tier. -/
def tierOf (agent : String) : Tier := (agents.lookup agent).getD .high

structure Config where
  mode : Mode
  threshold : Float
  maxAmount : Float
  allowed : List String
  auditTrail : Bool
  tiered : Bool
  custom : Table String Float

namespace Config

def standard : Config :=
  ⟨.audit, 0.85, 10000000.0, agents.map Prod.fst, true, false, Table.empty⟩

instance : Inhabited Config := ⟨standard⟩

inductive Flaw
  | thresholdOutside (value : Float)
  | amountNegative (value : Float)
  deriving DecidableEq

def Flaw.toError : Flaw → Error
  | thresholdOutside x => .config ("Threshold " ++ Decimal.plainText x ++ " outside [0, 1]")
  | amountNegative x =>
    .config ("maxAutoApproveAmount " ++ Decimal.plainText x ++ " must be non-negative")

def checkThreshold (x : Float) : Except Flaw Unit :=
  if inUnit x then .ok () else .error (.thresholdOutside x)

def checkThresholds : List Float → Except Flaw Unit
  | [] => .ok ()
  | x :: rest =>
    match checkThreshold x with
    | .error f => .error f
    | .ok () => checkThresholds rest

def check (c : Config) : Except Flaw Unit :=
  match checkThreshold c.threshold with
  | .error f => .error f
  | .ok () =>
    if c.maxAmount.isNaN || c.maxAmount < 0.0 then .error (.amountNegative c.maxAmount)
    else checkThresholds c.custom.values

/-- The confidence that an agent needs. With tiers, one of its own stands before that of its
tier. -/
def effectiveThreshold (c : Config) (agent : String) : Float :=
  if c.tiered then (c.custom.find? agent).getD (tierOf agent).threshold else c.threshold

def decodeCustom (d : Doc) : Option (Table String Float) :=
  (d.entries? some Doc.float?).map Table.ofList

instance : Coded Config where
  encode c := .record
    [("mode", some (encode c.mode)),
      ("autoApproveThreshold", some (.float c.threshold)),
      ("maxAutoApproveAmount", some (.float c.maxAmount)),
      ("allowedAutoAgents", some (.strings c.allowed)),
      ("requireAuditTrail", some (.bool c.auditTrail)),
      ("useTieredThresholds", some (.bool c.tiered)),
      ("customAgentThresholds",
        if c.custom.entries.isEmpty then none
        else some (.obj (c.custom.entries.map fun e => (e.1, .float e.2))))]
  decode d := do
    let r ← Record.ofDoc? ["mode", "autoApproveThreshold", "maxAutoApproveAmount",
      "allowedAutoAgents", "requireAuditTrail", "useTieredThresholds", "customAgentThresholds"] d
    return {
      mode := ← r.get "mode" decode standard.mode
      threshold := ← r.get "autoApproveThreshold" Doc.float? standard.threshold
      maxAmount := ← r.get "maxAutoApproveAmount" Doc.float? standard.maxAmount
      allowed := ← r.get "allowedAutoAgents" (Doc.list? Doc.str?) standard.allowed
      auditTrail := ← r.get "requireAuditTrail" Doc.bool? standard.auditTrail
      tiered := ← r.get "useTieredThresholds" Doc.bool? standard.tiered
      custom := ← r.get "customAgentThresholds" decodeCustom standard.custom }

end Config

end Policy

end Parley
