import Mathlib.Data.List.Basic
import Mathlib.Data.Nat.Find
import Parley.Error.Kind
import Parley.Retry

namespace Parley.Retry

variable {σ α : Type}

def Outcome.answer? : Outcome α → Option (Except Error α)
  | success v => some (.ok v)
  | retryable _ => none
  | fatal e => some (.error e)

inductive Act
  | call (attempt : Nat)
  | sleep (millis : Nat)
  deriving DecidableEq

namespace Act

def attempt? : Act → Option Nat
  | call attempt => some attempt
  | sleep _ => none

def millis? : Act → Option Nat
  | call _ => none
  | sleep millis => some millis

end Act

def notedCall (call : Nat → σ → Outcome α × σ) (n : Nat) (s : σ × List Act) :
    Outcome α × σ × List Act :=
  ((call n s.1).1, (call n s.1).2, s.2 ++ [.call n])

def notedSleep (sleep : Nat → σ → σ) (millis : Nat) (s : σ × List Act) : σ × List Act :=
  (sleep millis s.1, s.2 ++ [.sleep millis])

def notedRun (c : Config) (target : String) (call : Nat → σ → Outcome α × σ)
    (sleep : Nat → σ → σ) (s : σ) : Except Error α × σ × List Act :=
  run c target (notedCall call) (notedSleep sleep) (s, [])

namespace Config

def pause (c : Config) (attempt : Nat) : Nat := (c.delay attempt.toUInt32).toNat

/-- How attempt `n` ends, and what state it leaves, if each one before it may be made again. -/
def nth (c : Config) (call : Nat → σ → Outcome α × σ) (sleep : Nat → σ → σ) (s : σ) :
    Nat → Outcome α × σ
  | 0 => call 0 s
  | n + 1 => call (n + 1) (sleep (c.pause n) (c.nth call sleep s n).2)

def lead (c : Config) (n : Nat) : List Act :=
  (List.range n).flatMap fun i => [.call i, .sleep (c.pause i)]

def course (c : Config) (n : Nat) : List Act := c.lead n ++ [.call n]

theorem lead_succ (c : Config) (n : Nat) :
    c.lead (n + 1) = c.lead n ++ [.call n] ++ [.sleep (c.pause n)] := by
  rw [lead, List.range_succ, List.flatMap_append, List.append_assoc]
  rfl

theorem calls_lead (c : Config) (n : Nat) : (c.lead n).filterMap Act.attempt? = List.range n := by
  induction n with
  | zero => rfl
  | succ n ih =>
      rw [lead_succ, List.filterMap_append, List.filterMap_append, ih, List.range_succ]
      exact List.append_nil _

theorem pauses_lead (c : Config) (n : Nat) :
    (c.lead n).filterMap Act.millis? = (List.range n).map c.pause := by
  induction n with
  | zero => rfl
  | succ n ih =>
      rw [lead_succ, List.filterMap_append, List.filterMap_append, ih, List.range_succ,
        List.map_append]
      exact congrArg (· ++ [c.pause n]) (List.append_nil _)

/-- A course makes each attempt once and in order, pauses once after each but the last, and ends
with that. -/
theorem course_spec (c : Config) (n : Nat) :
    (c.course n).filterMap Act.attempt? = List.range (n + 1) ∧
      (c.course n).filterMap Act.millis? = (List.range n).map c.pause ∧
      (c.course n).getLast? = some (.call n) := by
  refine ⟨?_, ?_, List.getLast?_concat⟩
  · rw [course, List.filterMap_append, calls_lead, List.range_succ]
    rfl
  · rw [course, List.filterMap_append, pauses_lead]
    exact List.append_nil _

theorem call_mem_course {c : Config} {n i : Nat} : .call i ∈ c.course n ↔ i ≤ n := by
  rw [← Nat.lt_succ_iff, ← List.mem_range, ← (c.course_spec n).1, List.mem_filterMap]
  constructor
  · exact fun h => ⟨.call i, h, rfl⟩
  · rintro ⟨_ | _, ha, h⟩
    · rwa [← Option.some.inj h]
    · cases h

end Config

variable {c : Config} {target : String} {call : Nat → σ → Outcome α × σ} {sleep : Nat → σ → σ}
  {s t : σ} {log : List Act} {n left : Nat}

theorem attemptFrom_noted (s : σ) (log : List Act) :
    ((attemptFrom c target (notedCall call) (notedSleep sleep) n left (s, log)).1,
      (attemptFrom c target (notedCall call) (notedSleep sleep) n left (s, log)).2.1) =
      attemptFrom c target call sleep n left s := by
  induction left generalizing n s log with
  | zero =>
      rw [attemptFrom, attemptFrom, notedCall]
      rcases call n s with ⟨_ | _ | _, _⟩ <;> rfl
  | succ left ih =>
      rw [attemptFrom, attemptFrom, notedCall]
      rcases call n s with ⟨_ | _ | _, _⟩
      · rfl
      · exact ih _ _
      · rfl

theorem attemptFrom_of_answer {r : Except Error α} (h : (call n t).1.answer? = some r) :
    attemptFrom c target (notedCall call) (notedSleep sleep) n left (t, log) =
      (r, (call n t).2, log ++ [.call n]) := by
  rw [attemptFrom, notedCall]
  rcases hcall : call n t with ⟨v | e | e, t'⟩ <;> rw [hcall] at h
  · obtain rfl := Option.some.inj h
    rfl
  · cases h
  · obtain rfl := Option.some.inj h
    rfl

theorem exists_of_answer {o : Outcome α} (h : o.answer? = none) : ∃ e, o = .retryable e := by
  cases o with
  | retryable e => exact ⟨e, rfl⟩
  | success v => cases h
  | fatal e => cases h

theorem attemptFrom_last {e : Error} (h : (call n t).1 = .retryable e) :
    attemptFrom c target (notedCall call) (notedSleep sleep) n 0 (t, log) =
      (.error (gaveUp c target e), (call n t).2, log ++ [.call n]) := by
  rw [attemptFrom, notedCall, h]

theorem attemptFrom_next (h : (call n t).1.answer? = none) :
    attemptFrom c target (notedCall call) (notedSleep sleep) n (left + 1) (t, log) =
      attemptFrom c target (notedCall call) (notedSleep sleep) (n + 1) left
        (sleep (c.pause n) (call n t).2, log ++ [.call n] ++ [.sleep (c.pause n)]) := by
  obtain ⟨e, he⟩ := exists_of_answer h
  rw [attemptFrom, notedCall, he]
  rfl

theorem notedRun_reaches (target : String) (hn : n ≤ c.maxRetries.toNat)
    (h : ∀ i < n, (c.nth call sleep s i).1.answer? = none) :
    ∃ t, call n t = c.nth call sleep s n ∧ notedRun c target call sleep s =
      attemptFrom c target (notedCall call) (notedSleep sleep) n (c.maxRetries.toNat - n)
        (t, c.lead n) := by
  induction n with
  | zero => exact ⟨s, rfl, rfl⟩
  | succ n ih =>
      obtain ⟨t, ht, hrun⟩ := ih (Nat.le_of_succ_le hn) fun i hi => h i (Nat.lt_succ_of_lt hi)
      have hnone := h n n.lt_succ_self
      rw [← ht] at hnone
      refine ⟨sleep (c.pause n) (call n t).2, by rw [ht]; rfl, ?_⟩
      rw [hrun, show c.maxRetries.toNat - n = c.maxRetries.toNat - (n + 1) + 1 by omega,
        attemptFrom_next hnone, Config.lead_succ]

theorem notedRun_of_answer {r : Except Error α} (hn : n ≤ c.maxRetries.toNat)
    (h : ∀ i < n, (c.nth call sleep s i).1.answer? = none)
    (hr : (c.nth call sleep s n).1.answer? = some r) :
    notedRun c target call sleep s = (r, (c.nth call sleep s n).2, c.course n) := by
  obtain ⟨t, ht, hrun⟩ := notedRun_reaches target hn h
  rw [← ht] at hr ⊢
  rw [hrun, attemptFrom_of_answer hr, Config.course]

theorem notedRun_of_retryable (target : String)
    (h : ∀ i ≤ c.maxRetries.toNat, (c.nth call sleep s i).1.answer? = none) :
    ∃ e, (c.nth call sleep s c.maxRetries.toNat).1 = .retryable e ∧
      notedRun c target call sleep s = (.error (gaveUp c target e),
        (c.nth call sleep s c.maxRetries.toNat).2, c.course c.maxRetries.toNat) := by
  obtain ⟨e, he⟩ := exists_of_answer (h _ le_rfl)
  obtain ⟨t, ht, hrun⟩ := notedRun_reaches target le_rfl fun i hi => h i (Nat.le_of_lt hi)
  refine ⟨e, he, ?_⟩
  rw [← ht] at he ⊢
  rw [hrun, Nat.sub_self, attemptFrom_last he, Config.course]

/-- What a run does is the course of the first attempt that is answered, or of the last there is. -/
theorem notedRun_acts (c : Config) (target : String) (call : Nat → σ → Outcome α × σ)
    (sleep : Nat → σ → σ) (s : σ) : ∃ n ≤ c.maxRetries.toNat,
      (∀ i < n, (c.nth call sleep s i).1.answer? = none) ∧
      (n < c.maxRetries.toNat → (c.nth call sleep s n).1.answer? ≠ none) ∧
      (notedRun c target call sleep s).2.2 = c.course n := by
  classical
  by_cases h : ∃ n, n ≤ c.maxRetries.toNat ∧ (c.nth call sleep s n).1.answer? ≠ none
  · obtain ⟨hn, hanswer⟩ := Nat.find_spec h
    have hbefore : ∀ i < Nat.find h, (c.nth call sleep s i).1.answer? = none := by
      intro i hi
      by_contra hne
      exact Nat.find_min h hi ⟨by omega, hne⟩
    obtain ⟨r, hr⟩ := Option.ne_none_iff_exists'.mp hanswer
    exact ⟨_, hn, hbefore, fun _ => hanswer, by rw [notedRun_of_answer hn hbefore hr]⟩
  · have hall : ∀ i ≤ c.maxRetries.toNat, (c.nth call sleep s i).1.answer? = none := by
      intro i hi
      by_contra hne
      exact h ⟨i, hi, hne⟩
    obtain ⟨e, -, hrun⟩ := notedRun_of_retryable target hall
    exact ⟨_, le_rfl, fun i hi => hall i (Nat.le_of_lt hi), fun hlt => absurd hlt (lt_irrefl _),
      by rw [hrun]⟩

theorem answer?_ofExcept (e : Error) : (Outcome.ofExcept (.error e) : Outcome α).answer? =
    if e.kind ∈ [.connection, .stream, .timeout, .provider] then none else some (.error e) := by
  cases e <;> rfl

theorem call_succ_mem_iff {e : Error} (hn : n < c.maxRetries.toNat)
    (h : ∀ i < n, (c.nth call sleep s i).1.answer? = none)
    (he : (c.nth call sleep s n).1 = .ofExcept (.error e)) :
    .call (n + 1) ∈ (notedRun c target call sleep s).2.2 ↔
      e.kind ∈ [.connection, .stream, .timeout, .provider] := by
  have hanswer := answer?_ofExcept (α := α) e
  rw [← he] at hanswer
  obtain ⟨m, hm, hbefore, hstop, hacts⟩ := notedRun_acts c target call sleep s
  rw [hacts, Config.call_mem_course]
  constructor
  · intro hlt
    by_contra hkind
    rw [if_neg hkind, hbefore n hlt] at hanswer
    cases hanswer
  · intro hkind
    rw [if_pos hkind] at hanswer
    by_contra hlt
    rcases Nat.lt_or_eq_of_le (Nat.le_of_not_lt hlt) with hmn | rfl
    · exact hstop (by omega) (h m hmn)
    · exact hstop hn hanswer

/-- A run makes the attempts up to the first that is answered, and gives that answer; if none is,
it makes all there are, and gives the last error as that of a delivery. -/
theorem run_course (c : Config) (target : String) (call : Nat → σ → Outcome α × σ)
    (sleep : Nat → σ → σ) (s : σ) :
    run c target call sleep s =
      ((notedRun c target call sleep s).1, (notedRun c target call sleep s).2.1) ∧
    (∀ k ≤ c.maxRetries.toNat, (∀ i < k, (c.nth call sleep s i).1.answer? = none) →
      ∀ r, (c.nth call sleep s k).1.answer? = some r →
        notedRun c target call sleep s = (r, (c.nth call sleep s k).2, c.course k)) ∧
    ((∀ i ≤ c.maxRetries.toNat, (c.nth call sleep s i).1.answer? = none) →
      ∃ e text, (c.nth call sleep s c.maxRetries.toNat).1 = .retryable e ∧
        notedRun c target call sleep s = (.error (.delivery target (text ++ e.message)),
          (c.nth call sleep s c.maxRetries.toNat).2, c.course c.maxRetries.toNat)) ∧
    (∀ k, (c.course k).filterMap Act.attempt? = List.range (k + 1) ∧
      (c.course k).filterMap Act.millis? = (List.range k).map c.pause ∧
      (c.course k).getLast? = some (.call k)) ∧
    (∀ k < c.maxRetries.toNat, (∀ i < k, (c.nth call sleep s i).1.answer? = none) →
      ∀ e, (c.nth call sleep s k).1 = .ofExcept (.error e) →
        (.call (k + 1) ∈ (notedRun c target call sleep s).2.2 ↔
          e.kind ∈ [.connection, .stream, .timeout, .provider])) ∧
    ∀ e : Error, (Outcome.ofExcept (.error e) : Outcome α).answer? =
      if e.kind ∈ [.connection, .stream, .timeout, .provider] then none else some (.error e) := by
  refine ⟨(attemptFrom_noted s []).symm, ?_, ?_, c.course_spec, ?_, answer?_ofExcept⟩
  · intro k hk hbefore r hr
    exact notedRun_of_answer hk hbefore hr
  · intro hall
    obtain ⟨e, he, hrun⟩ := notedRun_of_retryable target hall
    exact ⟨e, _, he, hrun⟩
  · intro k hk hbefore e he
    exact call_succ_mem_iff hk hbefore he

end Parley.Retry
