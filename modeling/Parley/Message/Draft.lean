import Parley.Message.Codec

namespace Parley

open Time (Instant)

inductive Priority
  | critical
  | high
  | medium
  | low
  deriving DecidableEq

instance : Vocabulary Priority where
  all := [.critical, .high, .medium, .low]
  word
    | .critical => "critical"
    | .high => "high"
    | .medium => "medium"
    | .low => "low"

inductive Verification
  | pending
  | verified
  | rejected
  deriving DecidableEq

instance : Vocabulary Verification where
  all := [.pending, .verified, .rejected]
  word
    | .pending => "pending"
    | .verified => "verified"
    | .rejected => "rejected"

inductive Particulars
  | question (deadline : Option Instant) (priority : Priority)
  | answer (documents : List String) (reused : Bool) (source : Option String)
  | evidenceRequest (description : String) (formats : List String) (deadline : Option Instant)
  | evidenceSubmit (evidence : List String) (status : Verification)
  | escalation (reason : Reason) (urgency : Priority)
  deriving DecidableEq

namespace Particulars

def kind : Particulars → Kind
  | question .. => .question
  | answer .. => .answer
  | evidenceRequest .. => .evidenceRequest
  | evidenceSubmit .. => .evidenceSubmit
  | escalation .. => .escalation

def plainQuestion : Particulars := question none .medium

def plainAnswer : Particulars := answer [] false none

def standardFormats : List String := ["pdf", "xlsx", "csv"]

def plainEvidenceRequest : Particulars := evidenceRequest "" standardFormats none

def plainEvidenceSubmit : Particulars := evidenceSubmit [] .pending

def plainEscalation : Particulars := escalation .humanReviewRequired .high

/-- A deadline that cannot be read counts as none. -/
def deadline? (text : Option String) : Option Instant := text.bind Time.readStrict

/-- Reads the particulars of a kind; parts that are missing are plain. An answer that names its
source is reused unless it says otherwise. -/
def ofDoc? (kind : Kind) (d : Doc) : Option Particulars := do
  let names := ["deadline", "priority", "referencedDocuments", "reusedFrom", "isReused",
    "description", "formats", "evidence", "verificationStatus", "reason", "urgency"]
  let r ← Record.ofDoc? names d
  let deadline := deadline? (← r.find "deadline" Doc.str?)
  match kind with
  | .question => return .question deadline (← r.get "priority" decode .medium)
  | .answer =>
    let source ← r.find "reusedFrom" Doc.str?
    return .answer ((← r.find "referencedDocuments" (Doc.list? Doc.str?)).getD [])
      ((← r.find "isReused" Doc.bool?).getD source.isSome) source
  | .evidenceRequest =>
    return .evidenceRequest ((← r.find "description" Doc.str?).getD "")
      ((← r.find "formats" (Doc.list? Doc.str?)).getD standardFormats) deadline
  | .evidenceSubmit =>
    return .evidenceSubmit ((← r.find "evidence" (Doc.list? Doc.str?)).getD [])
      (← r.get "verificationStatus" decode .pending)
  | .escalation =>
    return .escalation (← r.get "reason" decode .humanReviewRequired)
      (← r.get "urgency" decode .high)
  | _ => none

def deadlineField (deadline : Option Instant) : List (String × Json) :=
  (deadline.map fun d => ("deadline", .str d.offsetStamp)).toList

def entries : Particulars → List (String × Json)
  | question deadline priority => deadlineField deadline ++ [("priority", encode priority)]
  | answer documents reused source =>
    (if documents = [] then [] else [("referenced_documents", .strings documents)]) ++
      (if reused then [("is_reused", .bool true)] else []) ++
      (source.map fun s => ("source_response_id", .str s)).toList
  | evidenceRequest description formats deadline =>
    [("evidence_description", .str description), ("accepted_formats", .strings formats)] ++
      deadlineField deadline
  | evidenceSubmit evidence status =>
    [("evidence_ids", .strings evidence), ("verification_status", encode status)]
  | escalation _ urgency => [("urgency", encode urgency)]

/-- Fills in a message. One that escalates is escalated from the start, so that nothing
escalates it again. -/
def fill (p : Particulars) (m : Message) : Message :=
  let m := p.entries.foldl (fun m e => m.withStructured e.1 e.2) { m with kind := p.kind }
  match p with
  | escalation reason _ => { m with escalated := true, reason := some reason }
  | _ => m

end Particulars

end Parley
