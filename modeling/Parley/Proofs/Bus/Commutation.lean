import Parley.Proofs.Bus.Views

namespace Parley

namespace Quality

variable {thread thread' : List Message}

theorem threadDeadline_eq (thread : List Message) :
    threadDeadline thread = (do
      let question ← (thread.filter isQuestion).getLast?
      let value ← question.structured.find? "deadline"
      Time.readStrict (← value.str?)) := by
  have hlast : thread.reverse.find? isQuestion = (thread.filter isQuestion).getLast? := by
    rw [← List.head?_filter, List.filter_reverse, List.head?_reverse]
  rw [threadDeadline, hlast]

theorem evaluate_congr (h : thread.filter isQuestion = thread'.filter isQuestion) (e : Evaluator)
    (answer : Message) (deadline : Option Time.Instant) :
    e.evaluate answer thread deadline = e.evaluate answer thread' deadline := by
  have hasked : completeness answer thread = completeness answer thread' := by
    rw [completeness, completeness, questionLength, questionLength, h]
  have hdue : timeliness e.grace answer thread deadline =
      timeliness e.grace answer thread' deadline := by
    rw [timeliness, timeliness, threadDeadline_eq, threadDeadline_eq, h]
  rw [Evaluator.evaluate, Evaluator.evaluate, hasked, hdue]

end Quality

namespace Bus

open MemoryLog (backend)
open Quality (isQuestion evaluate_congr)

structure SameQuestions (x y : Bus MemoryLog) : Prop where
  settings : x.settings = y.settings
  questions : ∀ id, (x.store.thread id).filter isQuestion = (y.store.thread id).filter isQuestion

variable {settings : Settings} {x y bus : Bus MemoryLog} {l : MemoryLog} {fresh : Fresh}
  {m n a b : Message} {thread thread' : List Message}

theorem rated_congr (h : thread.filter isQuestion = thread'.filter isQuestion) (s : Settings)
    (m : Message) : rated s m thread = rated s m thread' := by
  have hrating : (evaluator s).evaluate m (thread ++ [m]) none =
      (evaluator s).evaluate m (thread' ++ [m]) none := by
    apply evaluate_congr
    rw [List.filter_append, List.filter_append, h]
  by_cases hk : m.kind = .answer
  · rw [rated, rated, if_pos hk, if_pos hk, scored, scored, hrating]
  · rw [rated, rated, if_neg hk, if_neg hk]

theorem complete_congr (h : thread.filter isQuestion = thread'.filter isQuestion) (s : Settings)
    (fresh fresh' : Fresh) (m : Message) :
    (complete s fresh m thread).1 = (complete s fresh' m thread').1 := by
  cases hd : Escalation.decide s.threshold m with
  | none => rw [complete_of_none hd, complete_of_none hd, rated_congr h]
  | some reason => rw [complete_of_some hd, complete_of_some hd, rated_congr h]

/-- What a send returns depends on the log by the questions of the thread alone, and not on the
time or the ids that the bus takes from outside. -/
theorem SameQuestions.send (h : SameQuestions x y) (fresh fresh' : Fresh) (m : Message) :
    (x.send backend fresh m).1 = (y.send backend fresh' m).1 := by
  cases hc : checked m with
  | error e => rw [send_of_flaw hc, send_of_flaw hc]
  | ok n =>
      rw [send_of_checked hc, send_of_checked hc]
      have hbefore : (x.threadBefore n).filter isQuestion = (y.threadBefore n).filter isQuestion := by
        by_cases hk : n.kind = .answer
        · rw [threadBefore, threadBefore, if_pos hk, if_pos hk, h.questions]
        · rw [threadBefore, threadBefore, if_neg hk, if_neg hk]
      have hreturned : (x.finished fresh n).1 = (y.finished fresh' n).1 := by
        rw [finished, finished, h.settings]
        exact complete_congr hbefore y.settings fresh fresh' n
      exact congrArg Except.ok hreturned

theorem questions_append (h : l.Sound) (hm : isQuestion m = false) (id : String) :
    ((l.append m).thread id).filter isQuestion = (l.thread id).filter isQuestion := by
  rw [MemoryLog.thread_eq_filter (MemoryLog.append_sound h m), MemoryLog.thread_eq_filter h,
    MemoryLog.append_log h]
  cases l.holds m.id with
  | true => rfl
  | false =>
      rw [if_neg Bool.false_ne_true, List.filter_append, List.filter_append]
      have hnone : ([m].filter fun n => n.threadId = id).filter isQuestion = [] := by
        rw [List.filter_eq_nil_iff]
        intro n hn
        obtain rfl := List.mem_singleton.mp (List.mem_of_mem_filter hn)
        exact Bool.eq_false_iff.mp hm
      rw [hnone, List.append_nil]

theorem questions_foldl_append (h : l.Sound) {messages : List Message}
    (hm : ∀ m ∈ messages, isQuestion m = false) (id : String) :
    ((messages.foldl .append l).thread id).filter isQuestion = (l.thread id).filter isQuestion := by
  induction messages generalizing l with
  | nil => rfl
  | cons m messages ih =>
      rw [List.forall_mem_cons] at hm
      rw [List.foldl_cons, ih (MemoryLog.append_sound h m) hm.2, questions_append h hm.1]

theorem rated_kind (s : Settings) (m : Message) (thread : List Message) :
    (rated s m thread).kind = m.kind := by rw [rated_eq]

theorem follow_kind (chars : Nat) (id : String) (time : Time.Instant) (m : Message)
    (reason : Reason) : (Escalation.follow chars id time m reason).kind = .escalation := rfl

theorem complete_kind (s : Settings) (fresh : Fresh) (m : Message) (thread : List Message) :
    (complete s fresh m thread).1.kind = m.kind ∧
      ∀ e, (complete s fresh m thread).2 = some e → e.kind = .escalation := by
  cases hd : Escalation.decide s.threshold m with
  | none =>
      rw [complete_of_none hd]
      exact ⟨rated_kind s m thread, by simp⟩
  | some reason =>
      rw [complete_of_some hd]
      refine ⟨rated_kind s m thread, ?_⟩
      intro e he
      rw [← Option.some.inj he]
      apply follow_kind

theorem sameQuestions_send (h : bus.store.Sound) (hm : m.kind ≠ .question) (fresh : Fresh) :
    SameQuestions (bus.send backend fresh m).2 bus := by
  refine ⟨perform_settings (.send fresh m) bus, ?_⟩
  intro id
  cases hc : checked m with
  | error e => rw [send_of_flaw hc]
  | ok n =>
      obtain ⟨-, -, rfl⟩ := checked_eq_ok_iff.mp hc
      obtain ⟨hkind, hfollower⟩ := complete_kind bus.settings fresh (withThread m)
        (bus.threadBefore (withThread m))
      rw [send_of_checked hc]
      simp only [fanOutBoth_store, keepBoth_store]
      apply questions_foldl_append h
      rw [List.forall_mem_cons]
      constructor
      · exact decide_eq_false (hkind.trans_ne hm)
      · intro e he
        rw [Option.mem_toList] at he
        rw [isQuestion, hfollower e he]
        rfl

/-- Of two messages that are no questions each gets the same result whichever is sent first, in
every state that a bus over a log in memory reaches, since an answer is rated against the questions
of its thread and against nothing else there. -/
theorem sends_commute (hbus : Reached settings bus) (ha : a.kind ≠ .question)
    (hb : b.kind ≠ .question) :
    (∀ first second first' second' : Fresh, ∃ resultA resultB,
      (bus.send backend first a).1 = resultA ∧
      ((bus.send backend first a).2.send backend second b).1 = resultB ∧
      (bus.send backend first' b).1 = resultB ∧
      ((bus.send backend first' b).2.send backend second' a).1 = resultA) ∧
    ∀ (e : Quality.Evaluator) (answer : Message) (thread thread' : List Message)
      (deadline : Option Time.Instant),
      (thread.filter fun m => m.kind = .question) = (thread'.filter fun m => m.kind = .question) →
        e.evaluate answer thread deadline = e.evaluate answer thread' deadline := by
  obtain ⟨hsound, -⟩ := hbus.invariant
  constructor
  · intro first second first' second'
    refine ⟨_, _, rfl, rfl, ?_, ?_⟩
    · exact ((sameQuestions_send hsound ha first).send second first' b).symm
    · exact (sameQuestions_send hsound hb first').send second' first a
  · intro e answer thread thread' deadline h
    exact evaluate_congr h e answer deadline

def askedBus : Bus MemoryLog :=
  (run backend (new .standard MemoryLog.empty none) [.send someFresh question]).bus

def answerTo (id : String) (confidence : Option Float) : Message :=
  { Message.new id ⟨0, 0, 0⟩ "auditee" "auditor" "agent" .answer "Because." with
    thread := some "q", confidence }

theorem sends_commute_answers :
    Reached .standard askedBus ∧ (answerTo "a" (some 0.5)).kind ≠ .question ∧
    (answerTo "b" none).kind ≠ .question ∧
    ∃ r, (askedBus.send backend someFresh (answerTo "b" none)).1 = .ok r ∧
      r.quality.isSome = true ∧
      ((askedBus.send backend someFresh (answerTo "a" (some 0.5))).2.send backend someFresh
        (answerTo "b" none)).1 = .ok r := by
  have hbus : Reached .standard askedBus := ⟨[], _, _, rfl⟩
  have hchecked : checked (answerTo "b" none) = .ok (answerTo "b" none) := rfl
  obtain ⟨horders, -⟩ := sends_commute hbus (a := answerTo "a" (some 0.5))
    (b := answerTo "b" none) nofun nofun
  obtain ⟨resultA, resultB, -, hlast, hfirst, -⟩ := horders someFresh someFresh someFresh someFresh
  have hsent := send_of_checked hchecked someFresh askedBus
  have hresult := congrArg Prod.fst hsent
  refine ⟨hbus, nofun, nofun, _, hresult, ?_, ?_⟩
  · have hnone : Escalation.decide askedBus.settings.threshold (answerTo "b" none) = none := rfl
    rw [finished, complete_of_none hnone, rated_quality _ _ rfl]
    rfl
  · rw [hlast, ← hfirst, hresult]

end Bus

end Parley
