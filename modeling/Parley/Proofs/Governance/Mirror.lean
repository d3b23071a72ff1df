import Mathlib.Data.List.Forall2
import Parley.Proofs.Governance.Run
import Parley.Proofs.Json.Fields

namespace Parley.Governance

open Time (Instant)

structure LogEntry.Mirrors (e : LogEntry) (a : Audit.Entry) : Prop where
  tenant : a.deed.tenant = e.tenant
  actor : a.deed.actor = .agent e.agent
  action : a.deed.action = .agentDecision
  resourceType : a.deed.resourceType = "execution_decision"
  resource : a.deed.resourceId = e.id
  outcome : a.deed.details.find? "decision" =
    some (.str (if e.approved then "auto_execute" else "require_approval"))
  reason : a.deed.details.find? "reasoning" = some (.str e.reason)
  input : a.deed.details.find? "input_summary" = some (.obj e.input)
  confidence : a.deed.confidence = some e.confidence

theorem LogEntry.mirrors_of_deed {e : LogEntry} {a : Audit.Entry}
    (h : a.deed = e.toAudit.deed) : e.Mirrors a := by
  have hdetails (k : String) : a.deed.details.find? k =
      if k = "input_summary" then some (.obj e.input)
      else if k = "reasoning" then some (.str e.reason)
      else if k = "decision" then some (.str (verdict e.approved))
      else none := by
    rw [h]
    change Fields.find? k (Fields.insert _ _ (Fields.insert _ _ (Fields.insert _ _ []))) = _
    rw [Fields.find?_insert, Fields.find?_insert, Fields.find?_insert]
    rfl
  constructor
  case outcome => exact hdetails "decision"
  case reason => exact hdetails "reasoning"
  case input => exact hdetails "input_summary"
  all_goals rw [h]; rfl

namespace Ledger

variable {l : Ledger} {before : List Audit.Entry}

def Op.Decides : Op → Prop
  | .record .. => True
  | _ => False

def kept (l : Ledger) : List Audit.AgentDecision := l.log.map LogEntry.toAudit

/-- After what it held before, the trail has the deed of each logged decision. -/
def Mirrored (before : List Audit.Entry) (l : Ledger) : Prop :=
  ∃ chain entries, l.trail = some ⟨chain, before ++ entries⟩ ∧
    entries.map Audit.Entry.deed = l.kept.map Audit.AgentDecision.deed

theorem mirrored_new (config : Config) (t : Audit.Trail) :
    Mirrored t.buffer (new config (some t)) := by
  refine ⟨t.chain, [], ?_, rfl⟩
  rw [List.append_nil]
  rfl

theorem Mirrored.congr {l' : Ledger} (h : Mirrored before l) (htrail : l'.trail = l.trail)
    (hkept : l'.kept = l.kept) : Mirrored before l' := by
  rw [Mirrored, htrail, hkept]
  exact h

theorem settle_kept (l : Ledger) (flagged : Bool) (id notes : String) :
    (l.settle flagged id notes).2.trail = l.trail ∧
      (l.settle flagged id notes).2.kept = l.kept := by
  obtain ⟨left, e, right, hlog, -, -, hsettle⟩ | ⟨-, hsettle⟩ := settle_cases l flagged id notes
  · rw [hsettle]
    refine ⟨rfl, ?_⟩
    rw [kept, kept, hlog, List.map_append]
    exact List.map_append
  · rw [hsettle]
    exact ⟨rfl, rfl⟩

theorem step_kept (l : Ledger) {op : Op} (hop : ¬op.Decides) :
    (l.step op).trail = l.trail ∧ (l.step op).kept = l.kept := by
  cases op with
  | record refusal auditId time c => exact absurd trivial hop
  | review id notes => exact settle_kept l false id notes
  | flag id notes => exact settle_kept l true id notes
  | error tenant agent => exact ⟨rfl, rfl⟩
  | clear tenant agent => exact ⟨rfl, rfl⟩

theorem record_refused {t : Audit.Trail} (ht : l.trail = some t) (error : Error)
    (auditId : String) (time : Instant) (c : Case) :
    l.record (some error) auditId time c = (.error error, l) := by
  simp only [record, ht]

theorem record_kept {t : Audit.Trail} (ht : l.trail = some t) (auditId : String) (time : Instant)
    (c : Case) : ∃ chain a, a.deed = (c.entry time).toAudit.deed ∧
      l.record none auditId time c = (.ok (c.entry time),
        { l.enter (c.entry time) with trail := some ⟨chain, t.buffer ++ [a]⟩ }) := by
  simp only [record, ht]
  exact ⟨_, _, rfl, rfl⟩

theorem Mirrored.record (h : Mirrored before l) (refusal : Option Error) (auditId : String)
    (time : Instant) (c : Case) : Mirrored before (l.record refusal auditId time c).2 := by
  obtain ⟨chain, entries, htrail, hdeeds⟩ := h
  cases refusal with
  | some error =>
      rw [record_refused htrail]
      exact ⟨chain, entries, htrail, hdeeds⟩
  | none =>
      obtain ⟨chain', a, ha, hrecord⟩ := record_kept htrail auditId time c
      rw [hrecord]
      refine ⟨chain', entries ++ [a], ?_, ?_⟩
      · rw [← List.append_assoc]
      · have hkept : (l.enter (c.entry time)).kept = l.kept ++ [(c.entry time).toAudit] :=
          List.map_append
        calc (entries ++ [a]).map Audit.Entry.deed
            = entries.map Audit.Entry.deed ++ [a.deed] := by
              rw [List.map_append, List.map_singleton]
          _ = l.kept.map Audit.AgentDecision.deed ++ [(c.entry time).toAudit.deed] := by
              rw [hdeeds, ha]
          _ = (l.kept ++ [(c.entry time).toAudit]).map Audit.AgentDecision.deed := by
              rw [List.map_append, List.map_singleton]
          _ = (l.enter (c.entry time)).kept.map Audit.AgentDecision.deed := by rw [hkept]

theorem Mirrored.step (h : Mirrored before l) (op : Op) : Mirrored before (l.step op) := by
  by_cases hop : op.Decides
  · cases op with
    | record refusal auditId time c => exact h.record refusal auditId time c
    | review | flag | error | clear => exact absurd hop not_false
  · obtain ⟨htrail, hkept⟩ := step_kept l hop
    exact h.congr htrail hkept

theorem mirrored_run (config : Config) (t : Audit.Trail) (ops : List Op) :
    Mirrored t.buffer (run config (some t) ops) := by
  rw [run]
  have h := mirrored_new config t
  generalize new config (some t) = l at h
  induction ops generalizing l with
  | nil => exact h
  | cons op ops ih => exact ih (l.step op) (h.step op)

theorem mirrors_of_deeds {entries : List Audit.Entry}
    (h : entries.map Audit.Entry.deed = l.kept.map Audit.AgentDecision.deed) :
    List.Forall₂ LogEntry.Mirrors l.log entries := by
  have hdeeds : List.Forall₂ (· = ·) (l.kept.map Audit.AgentDecision.deed)
      (entries.map Audit.Entry.deed) := by
    rw [List.forall₂_eq_eq_eq, h]
  rw [kept, List.forall₂_map_left_iff, List.forall₂_map_left_iff,
    List.forall₂_map_right_iff] at hdeeds
  exact hdeeds.imp fun e a ha => LogEntry.mirrors_of_deed ha.symm

/-- Of a ledger with a trail to itself: the trail has one entry for each logged decision, in the
order of the log. A decision that the trail takes is added to both, one that it refuses changes
nothing, and no other operation writes to the trail. -/
theorem mirrored_of_run (config : Config) (t : Audit.Trail) (ops : List Op) :
    ∃ l chain entries, run config (some t) ops = l ∧
      l.trail = some ⟨chain, t.buffer ++ entries⟩ ∧
      List.Forall₂ LogEntry.Mirrors l.log entries ∧
      (∀ op : Op, ¬op.Decides → (l.step op).trail = l.trail) ∧
      (∀ error auditId time c, l.record (some error) auditId time c = (.error error, l)) ∧
      ∀ auditId time c, ∃ chain a, (c.entry time).Mirrors a ∧
        l.record none auditId time c = (.ok (c.entry time),
          { l.enter (c.entry time) with trail := some ⟨chain, t.buffer ++ entries ++ [a]⟩ }) := by
  obtain ⟨chain, entries, htrail, hdeeds⟩ := mirrored_run config t ops
  refine ⟨_, chain, entries, rfl, htrail, mirrors_of_deeds hdeeds, ?_, record_refused htrail, ?_⟩
  · intro op hop
    exact (step_kept _ hop).1
  · intro auditId time c
    obtain ⟨chain', a, ha, hrecord⟩ := record_kept htrail auditId time c
    exact ⟨chain', a, LogEntry.mirrors_of_deed ha, hrecord⟩

end Ledger

end Parley.Governance
