import Parley.Policy.Decision

namespace Parley

open Time (Instant)

namespace Governance

inductive Review
  | pending
  | reviewed
  | flagged
  deriving DecidableEq

instance : Vocabulary Review where
  all := [.pending, .reviewed, .flagged]
  word
    | .pending => "pending"
    | .reviewed => "reviewed"
    | .flagged => "flagged"

structure LogEntry where
  id : String
  tenant : String
  agent : String
  mode : Policy.Mode
  tier : Policy.Tier
  confidence : Float
  approved : Bool
  reason : String
  recordedAt : Instant
  input : Fields
  output : Fields
  review : Review
  notes : String

structure Stats where
  total : Nat
  autoApproved : Nat
  humanApproved : Nat
  rejected : Nat
  flagged : Nat
  averageConfidence : Float
  samples : Nat
  byTier : Table Policy.Tier Nat
  byAgent : Table String Nat

namespace Stats

def empty : Stats := ⟨0, 0, 0, 0, 0, 0.0, 0, Table.empty, Table.empty⟩

def autoApprovalRate (s : Stats) : Float :=
  if s.total = 0 then 0.0 else Float.ofNat s.autoApproved / Float.ofNat s.total

def count [DecidableEq κ] (t : Table κ Nat) (key : κ) : Nat := (t.find? key).getD 0

def increment [DecidableEq κ] (t : Table κ Nat) (key : κ) : Table κ Nat :=
  t.set key (count t key + 1)

/-- The mean of `n` samples from the mean of all but the last. -/
def extendMean (mean : Float) (n : Nat) (sample : Float) : Float :=
  (mean * (Float.ofNat n - 1.0) + sample) / Float.ofNat n

def addVerdict (s : Stats) (e : LogEntry) : Stats :=
  if !e.approved then { s with rejected := s.rejected + 1 }
  else if e.mode = .audit then { s with humanApproved := s.humanApproved + 1 }
  else { s with autoApproved := s.autoApproved + 1 }

/-- Only a finite confidence is a sample. -/
def addSample (s : Stats) (confidence : Float) : Stats :=
  if confidence.isFinite then
    { s with samples := s.samples + 1
             averageConfidence := extendMean s.averageConfidence (s.samples + 1) confidence }
  else s

def add (s : Stats) (e : LogEntry) : Stats :=
  let s := (s.addVerdict e).addSample e.confidence
  { s with total := s.total + 1
           byTier := increment s.byTier e.tier
           byAgent := increment s.byAgent e.agent }

end Stats

inductive Anomaly
  | highAutoApprovalRate (rate : Float)
  | lowAverageConfidence (average : Float)
  | highTierConcentration (high total : Nat)
  deriving DecidableEq

namespace Anomaly

def text : Anomaly → String
  | highAutoApprovalRate rate =>
    "auto-approval rate unusually high: " ++ Decimal.fixedText 1 (rate * 100.0) ++ "%"
  | lowAverageConfidence average => "average confidence low: " ++ Decimal.fixedText 2 average
  | highTierConcentration high total =>
    "high-tier decision share elevated: " ++ Decimal.natText high ++ "/" ++ Decimal.natText total

def decodeParts (kind : String) (parts : Doc) : Option Anomaly :=
  if kind = "high_auto_approval_rate" then do
    let r ← Record.ofDoc? ["rate"] parts
    return .highAutoApprovalRate (← r.need "rate" Doc.float?)
  else if kind = "low_average_confidence" then do
    let r ← Record.ofDoc? ["average"] parts
    return .lowAverageConfidence (← r.need "average" Doc.float?)
  else if kind = "high_tier_concentration" then do
    let r ← Record.ofDoc? ["high", "total"] parts
    return .highTierConcentration (← r.need "high" (Doc.nat? 64)) (← r.need "total" (Doc.nat? 64))
  else none

/-- An anomaly is read whole before its kind is known, so that all of it must have a value. -/
def decodeTagged (d : Doc) : Option Anomaly := do
  let _ ← d.toJson? Doc.depthLimit
  match d with
  | .arr (kind :: parts) => decodeParts (← kind.str?) (.arr parts)
  | .obj members =>
    let r ← Record.ofDoc? ["kind"] d
    decodeParts (← r.need "kind" Doc.str?) (.obj (members.filter fun m => m.1 ≠ some "kind"))
  | _ => none

instance : Coded Anomaly where
  encode
    | highAutoApprovalRate rate =>
      .obj [("kind", .str "high_auto_approval_rate"), ("rate", .float rate)]
    | lowAverageConfidence average =>
      .obj [("kind", .str "low_average_confidence"), ("average", .float average)]
    | highTierConcentration high total =>
      .obj [("kind", .str "high_tier_concentration"), ("high", .nat high), ("total", .nat total)]
  decode := decodeTagged

end Anomaly

structure Config where
  maxErrors : Nat
  minDecisions : Nat
  maxAutoApprovalRate : Float
  minAverageConfidence : Float
  maxHighTierRatio : Float
  deriving DecidableEq

def Config.standard : Config := ⟨5, 10, 0.95, 0.70, 0.5⟩

def Stats.highShare (s : Stats) : Float :=
  Float.ofNat (Stats.count s.byTier .high) / Float.ofNat s.total

def Stats.anomalies (c : Config) (s : Stats) : List Anomaly :=
  if s.total < c.minDecisions ∨ s.total = 0 then []
  else
    (if c.maxAutoApprovalRate < s.autoApprovalRate then
      [.highAutoApprovalRate s.autoApprovalRate] else []) ++
    (if 0 < s.samples ∧ s.averageConfidence < c.minAverageConfidence then
      [.lowAverageConfidence s.averageConfidence] else []) ++
    (if c.maxHighTierRatio < s.highShare then
      [.highTierConcentration (Stats.count s.byTier .high) s.total] else [])

instance : Coded LogEntry where
  encode e := .obj
    [("decisionId", .str e.id), ("tenantId", .str e.tenant), ("agentName", .str e.agent),
      ("executionMode", encode e.mode), ("riskTier", encode e.tier),
      ("confidence", .float e.confidence), ("approved", .bool e.approved),
      ("reason", .str e.reason), ("timestamp", encode e.recordedAt), ("inputSummary", .obj e.input),
      ("outputSummary", .obj e.output), ("reviewStatus", encode e.review),
      ("reviewerNotes", .str e.notes)]
  decode d := do
    let r ← Record.ofDoc? ["decisionId", "tenantId", "agentName", "executionMode", "riskTier",
      "confidence", "approved", "reason", "timestamp", "inputSummary", "outputSummary",
      "reviewStatus", "reviewerNotes"] d
    return {
      id := ← r.need "decisionId" Doc.str?
      tenant := ← r.need "tenantId" Doc.str?
      agent := ← r.need "agentName" Doc.str?
      mode := ← r.need "executionMode" decode
      tier := ← r.need "riskTier" decode
      confidence := ← r.need "confidence" Doc.float?
      approved := ← r.need "approved" Doc.bool?
      reason := ← r.need "reason" Doc.str?
      recordedAt := ← r.need "timestamp" decode
      input := ← r.get "inputSummary" (Doc.fields? 2) []
      output := ← r.get "outputSummary" (Doc.fields? 2) []
      review := ← r.need "reviewStatus" decode
      notes := ← r.get "reviewerNotes" Doc.str? "" }

instance : Coded Stats where
  encode s := .obj
    [("totalDecisions", .nat s.total), ("autoApproved", .nat s.autoApproved),
      ("humanApproved", .nat s.humanApproved), ("autoRejected", .nat s.rejected),
      ("flaggedForReview", .nat s.flagged), ("averageConfidence", .float s.averageConfidence),
      ("confidenceSamples", .nat s.samples),
      ("decisionsByTier",
        .obj (s.byTier.entries.map fun e => (Vocabulary.word e.1, .nat e.2))),
      ("decisionsByAgent", .obj (s.byAgent.entries.map fun e => (e.1, .nat e.2)))]
  decode d := do
    let r ← Record.ofDoc? ["totalDecisions", "autoApproved", "humanApproved", "autoRejected",
      "flaggedForReview", "averageConfidence", "confidenceSamples", "decisionsByTier",
      "decisionsByAgent"] d
    return {
      total := ← r.need "totalDecisions" (Doc.nat? 64)
      autoApproved := ← r.need "autoApproved" (Doc.nat? 64)
      humanApproved := ← r.need "humanApproved" (Doc.nat? 64)
      rejected := ← r.need "autoRejected" (Doc.nat? 64)
      flagged := ← r.need "flaggedForReview" (Doc.nat? 64)
      averageConfidence := ← r.need "averageConfidence" Doc.float?
      samples := ← r.get "confidenceSamples" (Doc.nat? 64) 0
      byTier := Table.ofList
        (← r.need "decisionsByTier" (Doc.entries? Vocabulary.ofWord? (Doc.nat? 64)))
      byAgent := Table.ofList (← r.need "decisionsByAgent" (Doc.entries? some (Doc.nat? 64))) }

instance : Coded Config where
  encode c := .obj
    [("maxConsecutiveErrors", .nat c.maxErrors), ("minDecisionsForAnomaly", .nat c.minDecisions),
      ("maxAutoApprovalRate", .float c.maxAutoApprovalRate),
      ("minAverageConfidence", .float c.minAverageConfidence),
      ("maxHighTierRatio", .float c.maxHighTierRatio)]
  decode d := do
    let r ← Record.ofDoc? ["maxConsecutiveErrors", "minDecisionsForAnomaly", "maxAutoApprovalRate",
      "minAverageConfidence", "maxHighTierRatio"] d
    let s := Config.standard
    return ⟨← r.get "maxConsecutiveErrors" (Doc.nat? 32) s.maxErrors,
      ← r.get "minDecisionsForAnomaly" (Doc.nat? 64) s.minDecisions,
      ← r.get "maxAutoApprovalRate" Doc.float? s.maxAutoApprovalRate,
      ← r.get "minAverageConfidence" Doc.float? s.minAverageConfidence,
      ← r.get "maxHighTierRatio" Doc.float? s.maxHighTierRatio⟩

end Governance

end Parley
