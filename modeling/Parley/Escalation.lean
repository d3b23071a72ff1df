import Parley.Message.Draft

namespace Parley

namespace Escalation

inductive Severity
  | critical
  | medium
  deriving DecidableEq

instance : Vocabulary Severity where
  all := [.critical, .medium]
  word
    | .critical => "critical"
    | .medium => "medium"

def standardThreshold : Float := 0.75

def criticalConfidence : Float := 0.5

def checkThreshold (threshold : Float) : Except Error Unit :=
  if inUnit threshold then .ok ()
  else
    .error (.config ("Escalation threshold " ++ Decimal.plainText threshold ++ " outside [0, 1]"))

/-- Why a message goes to a human, if it does: confidence below the threshold first, then the
sender's own reason. What is already escalated is left alone. -/
def decide (threshold : Float) (m : Message) : Option Reason :=
  if m.escalated then none
  else if m.confidence.any (· < threshold) then some .lowConfidence
  else m.reason

/-- The reason to report, whether or not the message escalates. -/
def reason (threshold : Float) (m : Message) : Reason :=
  (decide threshold m).getD .humanReviewRequired

def severity (m : Message) : Severity :=
  if m.confidence.any (· < criticalConfidence) then .critical else .medium

def agent : String := "escalation_engine"

def ellipsis (excerpt content : String) : String :=
  if excerpt.utf8ByteSize < content.utf8ByteSize then "..." else ""

def content (excerptChars : Nat) (m : Message) (reason : Reason) : String :=
  let excerpt := Text.excerpt excerptChars m.content
  "Escalation (" ++ Vocabulary.word reason ++ "): message " ++ m.id ++ " from " ++ m.fromAgent ++
    " requires human review. Excerpt: \"" ++ excerpt ++ ellipsis excerpt m.content ++ "\""

def follow (excerptChars : Nat) (id : String) (sentAt : Time.Instant) (m : Message)
    (reason : Reason) : Message :=
  let e := Message.new id sentAt m.fromTenant m.toTenant agent .escalation
    (content excerptChars m reason)
  { (Particulars.escalation reason .high).fill e with
    subject := some ("Escalation: " ++ Vocabulary.word reason)
    parent := some m.id
    thread := some m.threadId
    project := m.project
    metadata := [("severity", encode (severity m))] }

end Escalation

end Parley
