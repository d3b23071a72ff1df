import Parley.Bus.Basic

namespace Parley.Bus

def rating (s : Settings) (m : Message) (thread : List Message) : Quality.Result :=
  (evaluator s).evaluate m (thread ++ [m]) none

def rated (s : Settings) (m : Message) (thread : List Message) : Message :=
  if m.kind = .answer then scored s m thread else m

theorem rated_eq (s : Settings) (m : Message) (thread : List Message) :
    rated s m thread =
      { m with quality := (rated s m thread).quality, metadata := (rated s m thread).metadata } := by
  by_cases h : m.kind = .answer
  · simp only [rated, if_pos h]; rfl
  · simp only [rated, if_neg h]

theorem rated_escalated (s : Settings) (m : Message) (thread : List Message) :
    (rated s m thread).escalated = m.escalated := by rw [rated_eq]

theorem decide_rated (s : Settings) (m : Message) (thread : List Message) (t : Float) :
    Escalation.decide t (rated s m thread) = Escalation.decide t m := by rw [rated_eq]; rfl

/-- The reason for which a message goes to a human, if it does: either its confidence is below
the threshold, or it is not and the sender gave a reason. -/
theorem decide_eq_some_iff {t : Float} {m : Message} {reason : Reason} :
    Escalation.decide t m = some reason ↔ m.escalated = false ∧
      ((m.confidence.any (· < t) = true ∧ reason = .lowConfidence) ∨
        (m.confidence.any (· < t) = false ∧ m.reason = some reason)) := by
  rw [Escalation.decide]
  cases m.escalated <;> cases m.confidence.any (· < t) <;> simp [eq_comm]

theorem complete_of_none {s : Settings} {m : Message} {thread : List Message}
    (h : Escalation.decide s.threshold m = none) (fresh : Fresh) :
    complete s fresh m thread = (rated s m thread, none) := by
  rw [← decide_rated s m thread] at h
  change escalated s fresh (rated s m thread) = _
  rw [escalated, h]

theorem complete_of_some {s : Settings} {m : Message} {thread : List Message} {reason : Reason}
    (h : Escalation.decide s.threshold m = some reason) (fresh : Fresh) :
    complete s fresh m thread =
      ({ rated s m thread with escalated := true, reason := some reason },
        some (Escalation.follow s.excerptChars fresh.messageId fresh.time
          { rated s m thread with escalated := true, reason := some reason } reason)) := by
  rw [← decide_rated s m thread] at h
  change escalated s fresh (rated s m thread) = _
  rw [escalated, h]

theorem complete_id (s : Settings) (fresh : Fresh) (m : Message) (thread : List Message) :
    (complete s fresh m thread).1.id = m.id := by
  cases h : Escalation.decide s.threshold m with
  | none => rw [complete_of_none h, rated_eq]
  | some reason => rw [complete_of_some h, rated_eq]

theorem complete_approved (s : Settings) (fresh : Fresh) (m : Message) (thread : List Message) :
    (complete s fresh m thread).1.approved = m.approved := by
  cases h : Escalation.decide s.threshold m with
  | none => rw [complete_of_none h, rated_eq]
  | some reason => rw [complete_of_some h, rated_eq]

theorem complete_follower_isSome (s : Settings) (fresh : Fresh) (m : Message)
    (thread : List Message) :
    (complete s fresh m thread).2.isSome =
      ((complete s fresh m thread).1.escalated && !m.escalated) := by
  cases h : Escalation.decide s.threshold m with
  | none => simp [complete_of_none h, rated_escalated]
  | some reason => simp [complete_of_some h, (decide_eq_some_iff.mp h).1]

theorem follow_id (chars : Nat) (id : String) (time : Time.Instant) (m : Message)
    (reason : Reason) : (Escalation.follow chars id time m reason).id = id := rfl

theorem follow_approved (chars : Nat) (id : String) (time : Time.Instant) (m : Message)
    (reason : Reason) : (Escalation.follow chars id time m reason).approved = none := rfl

theorem complete_follower {s : Settings} {fresh : Fresh} {m : Message} {thread : List Message}
    {e : Message} (h : (complete s fresh m thread).2 = some e) :
    e.id = fresh.messageId ∧ e.approved = none := by
  cases hd : Escalation.decide s.threshold m with
  | none => simp [complete_of_none hd] at h
  | some reason =>
      rw [complete_of_some hd, Option.some.injEq] at h
      subst h
      exact ⟨follow_id _ _ _ _ _, follow_approved _ _ _ _ _⟩

theorem checked_eq_ok_iff {m n : Message} :
    checked m = .ok n ↔ m.checkRoute = .ok () ∧ m.checkShape = .ok () ∧ n = withThread m := by
  rw [checked]
  cases m.checkRoute <;> cases m.checkShape <;> simp [eq_comm]

end Parley.Bus
