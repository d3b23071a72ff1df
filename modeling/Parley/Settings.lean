import Parley.Escalation
import Parley.Quality

namespace Parley

structure Settings where
  threshold : Float
  weights : Quality.Weights
  subscriberMillis : Nat
  approvalSeconds : Nat
  excerptChars : Nat
  deriving DecidableEq

namespace Settings

/-- A human decision is awaited for seven days. -/
def standard : Settings :=
  ⟨Escalation.standardThreshold, Quality.Weights.standard, 5000, 7 * 24 * 60 * 60, excerptLength⟩

inductive Flaw
  | thresholdOutside (value : Float)
  | weights (flaw : Quality.WeightFlaw)
  | notPositive (name : String)
  deriving DecidableEq

def Flaw.toError : Flaw → Error
  | thresholdOutside x =>
    .config ("escalationThreshold " ++ Decimal.plainText x ++ " outside [0, 1]")
  | weights flaw => flaw.toError
  | notPositive name => .config (name ++ " must be positive")

def check (s : Settings) : Except Flaw Unit :=
  if !inUnit s.threshold then .error (.thresholdOutside s.threshold)
  else
    match s.weights.check with
    | .error flaw => .error (.weights flaw)
    | .ok () =>
      if s.subscriberMillis = 0 then .error (.notPositive "subscriberTimeoutMs")
      else if s.approvalSeconds = 0 then .error (.notPositive "approvalTimeoutSecs")
      else if s.excerptChars = 0 then .error (.notPositive "excerptChars")
      else .ok ()

def approvalMillis (s : Settings) : Nat := s.approvalSeconds * 1000

instance : Coded Settings where
  encode s := .obj
    [("escalationThreshold", .float s.threshold), ("qualityWeights", encode s.weights),
      ("subscriberTimeoutMs", .nat s.subscriberMillis),
      ("approvalTimeoutSecs", .nat s.approvalSeconds), ("excerptChars", .nat s.excerptChars)]
  decode d := do
    let r ← Record.ofDoc? ["escalationThreshold", "qualityWeights", "subscriberTimeoutMs",
      "approvalTimeoutSecs", "excerptChars"] d
    return ⟨← r.get "escalationThreshold" Doc.float? standard.threshold,
      ← r.get "qualityWeights" decode standard.weights,
      ← r.get "subscriberTimeoutMs" (Doc.nat? 64) standard.subscriberMillis,
      ← r.get "approvalTimeoutSecs" (Doc.nat? 64) standard.approvalSeconds,
      ← r.get "excerptChars" (Doc.nat? 64) standard.excerptChars⟩

end Settings

end Parley
