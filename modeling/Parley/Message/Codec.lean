import Parley.Message.Basic

namespace Parley

open Time (Instant)

instance : Coded Instant where
  encode t := .str t.stamp
  decode d := d.str?.bind Time.readLoose

instance : Coded Attachment where
  encode a := .obj
    [("fileName", .str a.fileName), ("fileType", .str a.fileType), ("fileHash", .str a.fileHash),
      ("fileSizeBytes", .nat a.sizeBytes)]
  decode d := do
    let r ← Record.ofDoc? ["fileName", "fileType", "fileHash", "fileSizeBytes"] d
    return ⟨← r.need "fileName" Doc.str?, ← r.need "fileType" Doc.str?,
      ← r.need "fileHash" Doc.str?, ← r.get "fileSizeBytes" (Doc.nat? 64) 0⟩

namespace Message

def fieldNames : List String :=
  ["id", "timestamp", "fromTenant", "toTenant", "fromAgent", "toAgent", "messageType", "subject",
    "content", "structuredContent", "projectRef", "parentMessageId", "threadId", "attachments",
    "confidence", "qualityScore", "humanApproved", "approvedBy", "approvedAt", "isEscalated",
    "escalationReason", "processingTimeMs", "metadata"]

instance : Coded Message where
  encode m := .record
    [("id", some (.str m.id)),
      ("timestamp", some (encode m.sentAt)),
      ("fromTenant", some (.str m.fromTenant)),
      ("toTenant", some (.str m.toTenant)),
      ("fromAgent", some (.str m.fromAgent)),
      ("toAgent", m.toAgent.map .str),
      ("messageType", some (encode m.kind)),
      ("subject", m.subject.map .str),
      ("content", some (.str m.content)),
      ("structuredContent", some (.obj m.structured)),
      ("projectRef", m.project.map .str),
      ("parentMessageId", m.parent.map .str),
      ("threadId", m.thread.map .str),
      ("attachments", some (.arr (m.attachments.map encode))),
      ("confidence", m.confidence.map .float),
      ("qualityScore", m.quality.map .float),
      ("humanApproved", some ((m.approved.map .bool).getD .null)),
      ("approvedBy", m.approvedBy.map .str),
      ("approvedAt", m.approvedAt.map encode),
      ("isEscalated", some (.bool m.escalated)),
      ("escalationReason", m.reason.map encode),
      ("processingTimeMs", m.processingMillis.map .nat),
      ("metadata", some (.obj m.metadata))]
  decode d := do
    let r ← Record.ofDoc? fieldNames d
    return {
      id := ← r.need "id" Doc.str?
      sentAt := ← r.need "timestamp" decode
      fromTenant := ← r.need "fromTenant" Doc.str?
      toTenant := ← r.need "toTenant" Doc.str?
      fromAgent := ← r.need "fromAgent" Doc.str?
      toAgent := ← r.find "toAgent" Doc.str?
      kind := ← r.need "messageType" decode
      subject := ← r.find "subject" Doc.str?
      content := ← r.need "content" Doc.str?
      structured := ← r.get "structuredContent" (Doc.fields? 2) []
      project := ← r.find "projectRef" Doc.str?
      parent := ← r.find "parentMessageId" Doc.str?
      thread := ← r.find "threadId" Doc.str?
      attachments := ← r.get "attachments" (Doc.list? decode) []
      confidence := ← r.find "confidence" Doc.float?
      quality := ← r.find "qualityScore" Doc.float?
      approved := ← r.find "humanApproved" Doc.bool?
      approvedBy := ← r.find "approvedBy" Doc.str?
      approvedAt := ← r.find "approvedAt" decode
      escalated := ← r.get "isEscalated" Doc.bool? false
      reason := ← r.find "escalationReason" decode
      processingMillis := ← r.find "processingTimeMs" (Doc.nat? 64)
      metadata := ← r.get "metadata" (Doc.fields? 2) [] }

end Message

instance : Coded Approval where
  encode a := .obj
    [("approved", .bool a.approved), ("approvedBy", .str a.approvedBy),
      ("approvedAt", encode a.approvedAt)]
  decode d := do
    let r ← Record.ofDoc? ["approved", "approvedBy", "approvedAt"] d
    return ⟨← r.need "approved" Doc.bool?, ← r.need "approvedBy" Doc.str?,
      ← r.need "approvedAt" decode⟩

instance : Coded Notification where
  encode n := .obj
    [("id", .str n.id), ("fromAgent", .str n.fromAgent), ("messageType", encode n.kind),
      ("content", .str n.content), ("timestamp", encode n.sentAt)]
  decode d := do
    let r ← Record.ofDoc? ["id", "fromAgent", "messageType", "content", "timestamp"] d
    return ⟨← r.need "id" Doc.str?, ← r.need "fromAgent" Doc.str?, ← r.need "messageType" decode,
      ← r.need "content" Doc.str?, ← r.need "timestamp" decode⟩

end Parley
