import Parley.Proofs.Bus.Completion
import Parley.Proofs.Bus.Run
import Parley.Proofs.Json.Fields

namespace Parley.Bus

open MemoryLog (backend)

structure Sendable (m : Message) : Prop where
  route : m.fromTenant ≠ m.toTenant
  content : ∃ c ∈ m.content.toList, Text.isBlank c = false
  id : m.id ≠ ""
  agent : m.fromAgent ≠ ""
  confidence : ∀ x, m.confidence = some x → 0.0 ≤ x ∧ x ≤ 1.0
  quality : ∀ x, m.quality = some x → 0.0 ≤ x ∧ x ≤ 1.0

/-- A message goes to a human for a reason: it is not marked yet, and either its confidence is
below the threshold, or it is not and the sender gave the reason. -/
def Due (s : Settings) (m : Message) (reason : Reason) : Prop :=
  m.escalated = false ∧
    (((∃ x, m.confidence = some x ∧ x < s.threshold) ∧ reason = .lowConfidence) ∨
      ((∀ x, m.confidence = some x → ¬ x < s.threshold) ∧ m.reason = some reason))

/-- The message `r` that is stored and returned for a message `m`, against the messages of its
thread so far. -/
structure Returned (s : Settings) (thread : List Message) (reason : Option Reason)
    (m r : Message) : Prop where
  frame : r = { m with
    thread := some m.threadId, quality := r.quality, metadata := r.metadata
    escalated := m.escalated || reason.isSome, reason := reason.or m.reason }
  unrated : m.kind ≠ .answer → r.quality = m.quality ∧ r.metadata = m.metadata
  rated : m.kind = .answer →
    r.quality = some (rating s (withThread m) thread).score ∧
    ∀ key, r.metadata.find? key =
      if key = "quality_issues" then some (.strings (rating s (withThread m) thread).issues)
      else if key = "quality_breakdown" then
        some (encode (rating s (withThread m) thread).breakdown)
      else m.metadata.find? key

/-- The message `e` that follows a message `m` in its thread. -/
structure Follower (s : Settings) (fresh : Fresh) (reason : Reason) (m e : Message) : Prop where
  origin : e.id = fresh.messageId ∧ e.sentAt = fresh.time ∧ e.kind = .escalation
  route : e.fromTenant = m.fromTenant ∧ e.toTenant = m.toTenant
  agents : e.fromAgent = "escalation_engine" ∧ e.toAgent = none
  place : e.project = m.project ∧ e.thread = some m.threadId ∧ e.parent = some m.id
  escalated : e.escalated = true ∧ e.reason = some reason
  unrated : e.confidence = none ∧ e.quality = none
  undecided : e.approved = none ∧ e.approvedBy = none ∧ e.approvedAt = none
  subject : e.subject = some ("Escalation: " ++ Vocabulary.word reason)
  content : e.content = Escalation.content s.excerptChars m reason
  structured : e.structured = [("urgency", .str "high")]
  metadata : e.metadata = [("severity", .str
    (if m.confidence.any (· < Escalation.criticalConfidence) then "critical" else "medium"))]
  bare : e.attachments = [] ∧ e.processingMillis = none

variable {s : Settings} {m r e : Message} {thread : List Message} {reason : Reason}

theorem outside_eq_ok_iff (flaw : Float → MessageFlaw) {value : Option Float} :
    Message.outside flaw value = .ok () ↔ ∀ x, value = some x → 0.0 ≤ x ∧ x ≤ 1.0 := by
  cases value with
  | none => simp [Message.outside]
  | some x => by_cases h : inUnit x = true <;> simp_all [Message.outside, inUnit]

theorem checkRoute_eq_ok_iff : m.checkRoute = .ok () ↔
    m.fromTenant ≠ m.toTenant ∧ ∃ c ∈ m.content.toList, Text.isBlank c = false := by
  have hblank : Text.isBlankText m.content = false ↔
      ∃ c ∈ m.content.toList, Text.isBlank c = false := by
    rw [← Bool.not_eq_true, Text.isBlankText_eq_true_iff]
    simp
  rw [← hblank, Message.checkRoute]
  by_cases h : m.fromTenant = m.toTenant <;> cases Text.isBlankText m.content <;> simp [h]

theorem checkShape_eq_ok_iff : m.checkShape = .ok () ↔
    m.id ≠ "" ∧ m.fromAgent ≠ "" ∧ (∀ x, m.confidence = some x → 0.0 ≤ x ∧ x ≤ 1.0) ∧
      ∀ x, m.quality = some x → 0.0 ≤ x ∧ x ≤ 1.0 := by
  rw [← outside_eq_ok_iff .confidenceOutside, ← outside_eq_ok_iff .qualityOutside,
    Message.checkShape]
  by_cases hid : m.id = ""
  · simp [hid]
  · by_cases hagent : m.fromAgent = ""
    · simp [hid, hagent]
    · cases Message.outside .confidenceOutside m.confidence <;> simp [hid, hagent]

theorem checked_eq_ok_iff_sendable {n : Message} :
    checked m = .ok n ↔ Sendable m ∧ n = withThread m := by
  rw [checked_eq_ok_iff, checkRoute_eq_ok_iff, checkShape_eq_ok_iff]
  constructor
  · rintro ⟨⟨hr, hc⟩, ⟨hi, ha, hconf, hq⟩, hn⟩
    exact ⟨⟨hr, hc, hi, ha, hconf, hq⟩, hn⟩
  · rintro ⟨h, hn⟩
    exact ⟨⟨h.route, h.content⟩, ⟨h.id, h.agent, h.confidence, h.quality⟩, hn⟩

theorem decide_eq_some_iff_due : Escalation.decide s.threshold m = some reason ↔ Due s m reason := by
  rw [decide_eq_some_iff, Due]
  cases m.confidence with
  | none => simp
  | some x => simp

theorem rated_of_ne_answer (h : m.kind ≠ .answer) : rated s m thread = m := by
  rw [rated, if_neg h]

theorem rated_find? (s : Settings) (thread : List Message) (h : m.kind = .answer) (key : String) :
    (rated s m thread).metadata.find? key =
      if key = "quality_issues" then some (.strings (rating s m thread).issues)
      else if key = "quality_breakdown" then some (encode (rating s m thread).breakdown)
      else m.metadata.find? key := by
  have hm : (rated s m thread).metadata =
      (m.metadata.insert "quality_breakdown" (encode (rating s m thread).breakdown)).insert
        "quality_issues" (.strings (rating s m thread).issues) := by
    rw [rated, if_pos h]
    rfl
  rw [hm, Fields.find?_insert, Fields.find?_insert]

theorem rated_quality (s : Settings) (thread : List Message) (h : m.kind = .answer) :
    (rated s m thread).quality = some (rating s m thread).score := by
  rw [rated, if_pos h]
  rfl

theorem complete_returned (s : Settings) (fresh : Fresh) (m : Message) (thread : List Message) :
    Returned s thread ((complete s fresh (withThread m) thread).2.bind Message.reason) m
      (complete s fresh (withThread m) thread).1 := by
  have hframe := rated_eq s (withThread m) thread
  have hplain (h : m.kind ≠ .answer) :
      (rated s (withThread m) thread).quality = m.quality ∧
        (rated s (withThread m) thread).metadata = m.metadata := by
    rw [rated_of_ne_answer (m := withThread m) h]
    exact ⟨rfl, rfl⟩
  have hrated (h : m.kind = .answer) := And.intro
    (rated_quality (m := withThread m) s thread h) (rated_find? (m := withThread m) s thread h)
  cases hd : Escalation.decide s.threshold (withThread m) with
  | none =>
      rw [complete_of_none hd]
      refine ⟨?_, hplain, hrated⟩
      rw [hframe]
      simp [withThread]
  | some reason =>
      rw [complete_of_some hd]
      refine ⟨?_, hplain, hrated⟩
      rw [hframe]
      simp [withThread, Escalation.follow, Particulars.fill]

theorem follow_follower (fresh : Fresh) (m : Message) (thread : List Message) (reason : Reason) :
    Follower s fresh reason m (Escalation.follow s.excerptChars fresh.messageId fresh.time
      { rated s (withThread m) thread with escalated := true, reason := some reason } reason) := by
  rw [rated_eq]
  refine ⟨⟨rfl, rfl, rfl⟩, ⟨rfl, rfl⟩, ⟨rfl, rfl⟩, ⟨rfl, rfl, rfl⟩, ⟨rfl, rfl⟩, ⟨rfl, rfl⟩,
    ⟨rfl, rfl, rfl⟩, rfl, rfl, rfl, ?_, ⟨rfl, rfl⟩⟩
  by_cases hc : m.confidence.any (· < Escalation.criticalConfidence) = true
  · simp only [Escalation.follow, Escalation.severity, withThread, hc, if_true]
    rfl
  · simp only [Escalation.follow, Escalation.severity, withThread, hc]
    rfl

theorem complete_follows (fresh : Fresh) (m : Message) (thread : List Message) (e : Message) :
    (complete s fresh (withThread m) thread).2 = some e →
      ∃ reason, Due s m reason ∧ Follower s fresh reason m e := by
  intro h
  cases hd : Escalation.decide s.threshold (withThread m) with
  | none => simp [complete_of_none hd] at h
  | some reason =>
      rw [complete_of_some hd, Option.some.injEq] at h
      exact ⟨reason, decide_eq_some_iff_due.mp hd, h ▸ follow_follower fresh m thread reason⟩

theorem complete_isSome_iff (fresh : Fresh) (m : Message) (thread : List Message) :
    (complete s fresh (withThread m) thread).2.isSome = true ↔ ∃ reason, Due s m reason := by
  have hdue (reason : Reason) :
      Escalation.decide s.threshold (withThread m) = some reason ↔ Due s m reason :=
    decide_eq_some_iff_due (m := withThread m)
  simp only [← hdue]
  cases hd : Escalation.decide s.threshold (withThread m) with
  | none => simp [complete_of_none hd]
  | some reason => simp [complete_of_some hd]

theorem append_both_log {l : MemoryLog} (hl : l.Sound) (r : Message) (follower : Option Message)
    (hf : ∀ e, follower = some e → e.id ≠ r.id ∧ ∀ n ∈ l.log, n.id ≠ e.id) :
    ((r :: follower.toList).foldl .append l).log =
      l.log ++ (if l.holds r.id then [] else [r]) ++ follower.toList := by
  have hlog : (l.append r).log = l.log ++ if l.holds r.id then [] else [r] := by
    rw [MemoryLog.append_log hl]
    cases l.holds r.id <;> simp
  cases follower with
  | none => simpa using hlog
  | some e =>
      obtain ⟨her, hel⟩ := hf e rfl
      have hnew : (l.append r).holds e.id = false := by
        rw [Bool.eq_false_iff, Ne, MemoryLog.holds, List.any_eq_true, hlog]
        rintro ⟨n, hn, hid⟩
        rw [decide_eq_true_eq] at hid
        rcases List.mem_append.mp hn with hn | hn
        · exact hel n hn hid
        · cases hr : l.holds r.id <;> simp [hr] at hn
          exact her (hid ▸ congrArg Message.id hn)
      change ((l.append r).append e).log = _
      rw [MemoryLog.append_log (MemoryLog.append_sound hl r), hnew, hlog]
      rfl

def unsureQuestion : Message :=
  { Message.new "q" ⟨0, 0, 0⟩ "auditor" "auditee" "agent" .question "Why?" with
    confidence := some 0.5 }

end Parley.Bus
