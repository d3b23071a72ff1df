import Parley.Error
import Parley.Text.Blank
import Parley.Time.Reading
import Parley.Time.Stamp
import Parley.Vocabulary

namespace Parley

open Time (Instant)

namespace Vocabulary

def parse [Vocabulary α] (noun text : String) : Except Error α :=
  match ofWord? text with
  | some a => .ok a
  | none => .error (.config ("Unknown " ++ noun ++ " '" ++ text ++ "'"))

end Vocabulary

inductive Kind
  | question
  | answer
  | clarification
  | evidenceRequest
  | evidenceSubmit
  | escalation
  | followUp
  | acknowledgment
  deriving DecidableEq

instance : Vocabulary Kind where
  all := [.question, .answer, .clarification, .evidenceRequest, .evidenceSubmit, .escalation,
    .followUp, .acknowledgment]
  word
    | .question => "question"
    | .answer => "answer"
    | .clarification => "clarification"
    | .evidenceRequest => "evidence_request"
    | .evidenceSubmit => "evidence_submit"
    | .escalation => "escalation"
    | .followUp => "follow_up"
    | .acknowledgment => "acknowledgment"

inductive Reason
  | lowConfidence
  | deadlineExceeded
  | highRiskDetected
  | humanReviewRequired
  | policyViolation
  deriving DecidableEq

instance : Vocabulary Reason where
  all := [.lowConfidence, .deadlineExceeded, .highRiskDetected, .humanReviewRequired,
    .policyViolation]
  word
    | .lowConfidence => "low_confidence"
    | .deadlineExceeded => "deadline_exceeded"
    | .highRiskDetected => "high_risk_detected"
    | .humanReviewRequired => "human_review_required"
    | .policyViolation => "policy_violation"

def Reason.parse (text : String) : Except Error Reason :=
  Vocabulary.parse "escalation reason" text

structure Attachment where
  fileName : String
  fileType : String
  fileHash : String
  sizeBytes : Nat
  deriving DecidableEq

/-- What one tenant says to another. The bus fills in thread, quality, escalation and the
human decision; all else is the sender's. -/
structure Message where
  id : String
  sentAt : Instant
  fromTenant : String
  toTenant : String
  fromAgent : String
  toAgent : Option String
  kind : Kind
  subject : Option String
  content : String
  structured : Fields
  project : Option String
  parent : Option String
  thread : Option String
  attachments : List Attachment
  confidence : Option Float
  quality : Option Float
  approved : Option Bool
  approvedBy : Option String
  approvedAt : Option Instant
  escalated : Bool
  reason : Option Reason
  processingMillis : Option Nat
  metadata : Fields

inductive MessageFlaw
  | missingId
  | missingAgent
  | confidenceOutside (value : Float)
  | qualityOutside (value : Float)
  | sameTenant (tenant : String)
  | emptyContent
  deriving DecidableEq

namespace MessageFlaw

def text : MessageFlaw → String
  | missingId => "missing id"
  | missingAgent => "missing from_agent"
  | confidenceOutside x => "confidence " ++ Decimal.plainText x ++ " outside [0, 1]"
  | qualityOutside x => "quality score " ++ Decimal.plainText x ++ " outside [0, 1]"
  | sameTenant t => "same tenant: cannot send from '" ++ t ++ "' to itself"
  | emptyContent => "empty content"

def toError (f : MessageFlaw) : Error := .invalidMessage f.text

end MessageFlaw

def inUnit (x : Float) : Bool := 0.0 ≤ x && x ≤ 1.0

namespace Message

def new (id : String) (sentAt : Instant) (fromTenant toTenant fromAgent : String) (kind : Kind)
    (content : String) : Message :=
  { id, sentAt, fromTenant, toTenant, fromAgent, kind, content
    toAgent := none, subject := none, structured := [], project := none, parent := none
    thread := none, attachments := [], confidence := none, quality := none
    approved := none, approvedBy := none, approvedAt := none
    escalated := false, reason := none, processingMillis := none, metadata := [] }

/-- The thread a message is in: the one it names, or the one it starts. -/
def threadId (m : Message) : String := m.thread.getD m.id

def isThreadRoot (m : Message) : Bool := m.threadId = m.id

def awaitsDecision (m : Message) : Bool := m.approved.isNone

def concerns (tenant : String) (m : Message) : Bool := m.toTenant = tenant || m.fromTenant = tenant

def inReplyTo (m parent : Message) : Message :=
  { m with parent := some parent.id, thread := some parent.threadId }

def withStructured (m : Message) (key : String) (value : Json) : Message :=
  { m with structured := m.structured.insert key value }

def withMetadata (m : Message) (key : String) (value : Json) : Message :=
  { m with metadata := m.metadata.insert key value }

def outside (flaw : Float → MessageFlaw) : Option Float → Except MessageFlaw Unit
  | some x => if inUnit x then .ok () else .error (flaw x)
  | none => .ok ()

def checkShape (m : Message) : Except MessageFlaw Unit :=
  if m.id = "" then .error .missingId
  else if m.fromAgent = "" then .error .missingAgent
  else
    match outside .confidenceOutside m.confidence with
    | .error f => .error f
    | .ok () => outside .qualityOutside m.quality

def checkRoute (m : Message) : Except MessageFlaw Unit :=
  if m.fromTenant = m.toTenant then .error (.sameTenant m.fromTenant)
  else if Text.isBlankText m.content then .error .emptyContent
  else .ok ()

end Message

structure Approval where
  approved : Bool
  approvedBy : String
  approvedAt : Instant
  deriving DecidableEq

def Approval.apply (a : Approval) (m : Message) : Message :=
  { m with approved := some a.approved, approvedBy := some a.approvedBy
           approvedAt := some a.approvedAt }

def excerptLength : Nat := 200

structure Notification where
  id : String
  fromAgent : String
  kind : Kind
  content : String
  sentAt : Instant
  deriving DecidableEq

def Message.notification (m : Message) : Notification :=
  ⟨m.id, m.fromAgent, m.kind, Text.excerpt excerptLength m.content, m.sentAt⟩

end Parley
