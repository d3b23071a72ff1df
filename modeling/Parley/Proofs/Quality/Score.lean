import Parley.Proofs.Bus.Pipeline
import Parley.Proofs.Quality.Axes

namespace Parley.Quality

open Decimal
open Time (Date Instant nanosPerSecond)

variable {x : Float} {w : Weights} {e : Evaluator} {s : Settings} {answer : Message}
  {thread : List Message} {deadline : Option Instant}

def Evaluator.weighted (e : Evaluator) (answer : Message) (thread : List Message)
    (deadline : Option Instant) : Float :=
  completeness answer thread * e.weights.completeness + evidence answer * e.weights.evidence +
    depth answer * e.weights.depth +
    timeliness e.grace answer thread deadline * e.weights.timeliness

/-- Of the two sums that the mean is made of, one is finite. -/
def Evaluator.Settled (e : Evaluator) (answer : Message) (thread : List Message)
    (deadline : Option Instant) : Prop :=
  e.weights.sum.isFinite = true ∨ (e.weighted answer thread deadline).isFinite = true

structure Dated (answer : Message) (deadline : Option Instant) : Prop where
  sent : answer.sentAt.Valid
  deadline : ∀ d, deadline = some d → d.Valid

theorem Dated.valid (h : Dated answer deadline) (thread : List Message) :
    ∀ d, deadline.or (threadDeadline thread) = some d → d.Valid := by
  intro d hd
  rcases Option.or_eq_some_iff.mp hd with hgiven | ⟨-, hthread⟩
  · exact h.deadline d hgiven
  · exact valid_threadDeadline hthread

def Weights.each (w : Weights) : List Float := [w.completeness, w.evidence, w.depth, w.timeliness]

structure Weights.Sound (w : Weights) : Prop where
  finite : ∀ x ∈ w.each, x.isFinite = true
  nonneg : ∀ x ∈ w.each, 0.0 ≤ x
  positive : ∃ x ∈ w.each, 0.0 < x

theorem forall_each {p : Float → Prop} : (∀ x ∈ w.each, p x) ↔
    p w.completeness ∧ p w.evidence ∧ p w.depth ∧ p w.timeliness := by
  simp [Weights.each]

theorem zero_le_sum (h : ∀ x ∈ w.each, 0.0 ≤ x) : 0.0 ≤ w.sum := by
  obtain ⟨hc, hv, hd, ht⟩ := forall_each.mp h
  exact zero_le_add (zero_le_add (zero_le_add hc hv) hd) ht

theorem zero_lt_sum_iff (h : ∀ x ∈ w.each, 0.0 ≤ x) : 0.0 < w.sum ↔ ∃ x ∈ w.each, 0.0 < x := by
  obtain ⟨hc, hv, hd, ht⟩ := forall_each.mp h
  have hleft := zero_le_add hc hv
  rw [Weights.sum, zero_lt_add_iff (zero_le_add hleft hd) ht, zero_lt_add_iff hleft hd,
    zero_lt_add_iff hc hv]
  simp [Weights.each, or_assoc]

theorem passes_iff (x : Float) :
    (!x.isFinite || decide (x < 0.0)) = false ↔ x.isFinite = true ∧ 0.0 ≤ x := by
  rw [Bool.or_eq_false_iff, Bool.not_eq_false', decide_eq_false_iff_not]
  constructor
  · rintro ⟨hfinite, hlow⟩
    exact ⟨hfinite, zero_le_iff.mpr ⟨hlow, isNaN_of_isFinite hfinite⟩⟩
  · rintro ⟨hfinite, hlow⟩
    exact ⟨hfinite, (zero_le_iff.mp hlow).1⟩

/-- The check looks at a rounded sum, and still passes just what is not all zero. -/
theorem check_eq_ok_iff : w.check = .ok () ↔ w.Sound := by
  have hcheck : w.check = if w.each.any fun x => !x.isFinite || x < 0.0 then
      .error .notNonNegative else if w.sum ≤ 0.0 then .error .allZero else .ok () := rfl
  have hall : (w.each.any fun x => !x.isFinite || decide (x < 0.0)) = false ↔
      ∀ x ∈ w.each, x.isFinite = true ∧ 0.0 ≤ x := by
    simp only [List.any_eq_false, Bool.not_eq_true, passes_iff]
  rw [hcheck]
  cases hany : w.each.any fun x => !x.isFinite || decide (x < 0.0) with
  | true =>
      rw [if_pos rfl]
      refine iff_of_false nofun fun hsound => ?_
      have hnone := hall.mpr fun x hx => ⟨hsound.finite x hx, hsound.nonneg x hx⟩
      rw [hany] at hnone
      cases hnone
  | false =>
      have hweights := hall.mp hany
      have hnonneg : ∀ x ∈ w.each, 0.0 ≤ x := fun x hx => (hweights x hx).2
      have hnone : w.sum ≤ 0.0 ↔ ¬ ∃ x ∈ w.each, 0.0 < x := by
        have hnumber := (zero_le_iff.mp (zero_le_sum hnonneg)).2
        rw [← not_lt_iff_le (by decide) hnumber, zero_lt_sum_iff hnonneg]
      rw [if_neg Bool.false_ne_true]
      by_cases hsome : ∃ x ∈ w.each, 0.0 < x
      · rw [if_neg (mt hnone.mp (not_not_intro hsome))]
        exact iff_of_true rfl ⟨fun x hx => (hweights x hx).1, hnonneg, hsome⟩
      · rw [if_pos (hnone.mpr hsome)]
        exact iff_of_false nofun fun hsound => hsome hsound.positive

theorem zero_le_share {x y : Float} (hx : inUnit x = true) (hy : 0.0 ≤ y)
    (hfinite : y.isFinite = true) : 0.0 ≤ x * y :=
  zero_le_mul (inUnit_iff_le.mp hx).1 hy (isFinite_of_inUnit hx) hfinite

theorem zero_le_weighted (hweights : e.weights.Sound) (hgrace : e.grace < 2 ^ 63)
    (hdated : Dated answer deadline) (thread : List Message) :
    0.0 ≤ e.weighted answer thread deadline := by
  obtain ⟨hcf, hvf, hdf, htf⟩ := forall_each.mp hweights.finite
  obtain ⟨hc, hv, hd, ht⟩ := forall_each.mp hweights.nonneg
  obtain ⟨t, hvalue, hlow, -⟩ := exists_timeliness hdated.sent (hdated.valid thread) hgrace
  have hcompleteness := zero_le_share (inUnit_completeness answer thread) hc hcf
  have hevidence := zero_le_share (inUnit_evidence answer) hv hvf
  have hdepth := zero_le_share (inUnit_depth answer) hd hdf
  have htimeliness := zero_le_mul (zero_le_of_isValue hvalue hlow) ht hvalue.finite htf
  exact zero_le_add (zero_le_add (zero_le_add hcompleteness hevidence) hdepth) htimeliness

theorem evaluate_score (e : Evaluator) (answer : Message) (thread : List Message)
    (deadline : Option Instant) : (e.evaluate answer thread deadline).score =
      roundHundredths (clamp (e.weighted answer thread deadline / e.weights.sum)) := rfl

theorem settled_iff (hweights : e.weights.Sound) (hgrace : e.grace < 2 ^ 63)
    (hdated : Dated answer deadline) (thread : List Message) :
    e.Settled answer thread deadline ↔
      (e.weighted answer thread deadline / e.weights.sum).isNaN = false := by
  have hweighted := zero_le_weighted hweights hgrace hdated thread
  have hsum := (zero_lt_sum_iff hweights.nonneg).mpr hweights.positive
  rw [← Bool.not_eq_true, isNaN_div_iff hweighted hsum, not_and_or, Bool.not_eq_false,
    Bool.not_eq_false, or_comm]
  rfl

theorem score_cases (hweights : e.weights.Sound) (hgrace : e.grace < 2 ^ 63)
    (hdated : Dated answer deadline) (thread : List Message) :
    (inUnit (e.evaluate answer thread deadline).score = true ↔ e.Settled answer thread deadline) ∧
    ((e.evaluate answer thread deadline).score.isNaN = true ↔
      ¬ e.Settled answer thread deadline) := by
  rw [evaluate_score, settled_iff hweights hgrace hdated]
  cases h : (e.weighted answer thread deadline / e.weights.sum).isNaN with
  | false =>
      have hunit := inUnit_roundHundredths (inUnit_clamp h)
      obtain ⟨p, hp, -⟩ := inUnit_iff.mp hunit
      rw [isNaN_of_isFinite hp.finite]
      exact ⟨iff_of_true hunit rfl, iff_of_false nofun (not_not_intro rfl)⟩
  | true =>
      have hnan := isNaN_roundHundredths ((isNaN_clamp _).trans h)
      rw [not_inUnit hnan]
      exact ⟨iff_of_false nofun nofun, iff_of_true hnan nofun⟩

theorem complete_checkShape (s : Settings) (fresh : Fresh) (thread : List Message)
    (hkind : answer.kind = .answer) (hshape : answer.checkShape = .ok ()) :
    (Bus.complete s fresh answer thread).1.checkShape = .ok () ↔
      inUnit (Bus.rating s answer thread).score = true := by
  have hsame : (Bus.complete s fresh answer thread).1.checkShape =
      { answer with quality := some (Bus.rating s answer thread).score }.checkShape := by
    have hquality := Bus.rated_quality s thread hkind
    have hrated := Bus.rated_eq s answer thread
    rw [hquality] at hrated
    cases h : Escalation.decide s.threshold answer with
    | none =>
        rw [Bus.complete_of_none h, hrated]
        rfl
    | some reason =>
        rw [Bus.complete_of_some h, hrated]
        rfl
  rw [Bus.checkShape_eq_ok_iff] at hshape
  obtain ⟨hid, hagent, hconfidence, -⟩ := hshape
  rw [hsame, Bus.checkShape_eq_ok_iff, inUnit_iff_le]
  constructor
  · rintro ⟨-, -, -, hquality⟩
    exact hquality _ rfl
  · intro hscore
    refine ⟨hid, hagent, hconfidence, ?_⟩
    rintro x ⟨⟩
    exact hscore

/-- Weights pass the check just if they are finite, at least zero and not all zero. With such
weights the score is the overall one of the breakdown. It is in the unit interval just if one of the
two sums of the mean is finite, and else it is not a number. Completeness, evidence and depth are in
the unit interval. Timeliness is at least zero, and at most one unless the deadline is in a leap
second. What the bus makes of an answer that passes the check of its shape passes it again just if
its score is in the unit interval. -/
theorem evaluate_inUnit (hweights : e.weights.check = .ok ()) (hgrace : e.grace < 2 ^ 63)
    (hdated : Dated answer deadline) (thread : List Message) :
    let r := e.evaluate answer thread deadline
    (∀ w : Weights, w.check = .ok () ↔ w.Sound) ∧
    r.score = r.breakdown.overall ∧
    (inUnit r.score = true ↔ e.Settled answer thread deadline) ∧
    (r.score.isNaN = true ↔ ¬ e.Settled answer thread deadline) ∧
    inUnit r.breakdown.completeness = true ∧ inUnit r.breakdown.evidence = true ∧
    inUnit r.breakdown.depth = true ∧ 0.0 ≤ r.breakdown.timeliness ∧
    ((∀ d, deadline.or (threadDeadline thread) = some d → d.nano < nanosPerSecond) →
      inUnit r.breakdown.timeliness = true) ∧
    ∀ s fresh, Bus.evaluator s = e → answer.kind = .answer → answer.checkShape = .ok () →
      ((Bus.complete s fresh answer thread).1.checkShape = .ok () ↔
        e.Settled answer (thread ++ [answer]) none) := by
  have hsound := check_eq_ok_iff.mp hweights
  obtain ⟨hunit, hnan⟩ := score_cases hsound hgrace hdated thread
  obtain ⟨t, ht, hlow, hhigh⟩ := exists_timeliness hdated.sent (hdated.valid thread) hgrace
  refine ⟨fun w => check_eq_ok_iff, rfl, hunit, hnan,
    inUnit_roundHundredths (inUnit_completeness answer thread),
    inUnit_roundHundredths (inUnit_evidence answer), inUnit_roundHundredths (inUnit_depth answer),
    zero_le_roundHundredths (zero_le_of_isValue ht hlow) ht.finite, ?_, ?_⟩
  · intro hleap
    exact inUnit_roundHundredths (inUnit_iff.mpr ⟨t, ht, hlow, hhigh hleap⟩)
  · rintro s fresh rfl hkind hshape
    have hplain : Dated answer none := ⟨hdated.sent, nofun⟩
    rw [complete_checkShape s fresh thread hkind hshape]
    exact (score_cases hsound hgrace hplain (thread ++ [answer])).1

def newYear : Instant := ⟨Date.toDays ⟨2017, 1, 1⟩, 0, 0⟩

def reply : Message := .new "a" newYear "auditee" "auditor" "agent" .answer "Because."

def replyFresh : Fresh := ⟨newYear, "e", "t1", "t2"⟩

def dayBefore : Instant := ⟨Date.toDays ⟨2016, 12, 31⟩, 0, 0⟩

theorem evaluate_inUnit_late :
    Evaluator.standard.weights.check = .ok () ∧ Evaluator.standard.grace < 2 ^ 63 ∧
    Dated reply (some dayBefore) ∧
    inUnit (Evaluator.standard.evaluate reply [] (some dayBefore)).score = true ∧
    inUnit (Evaluator.standard.evaluate reply [] (some dayBefore)).breakdown.timeliness = true ∧
    (Bus.complete .standard replyFresh reply []).1.checkShape = .ok () := by
  have hweights : Evaluator.standard.weights.check = .ok () := by decide +kernel
  have hdated : Dated reply (some dayBefore) := by
    refine ⟨⟨by decide, by decide, .inl (by decide)⟩, ?_⟩
    rintro d ⟨⟩
    exact ⟨by decide, by decide, .inl (by decide)⟩
  have hsettled : Evaluator.standard.weights.sum.isFinite = true := by decide +kernel
  obtain ⟨-, -, hscore, -, -, -, -, -, htimeliness, hstored⟩ :=
    evaluate_inUnit hweights (by decide) hdated []
  refine ⟨hweights, by decide, hdated, hscore.mpr (.inl hsettled), htimeliness ?_, ?_⟩
  · rintro d ⟨⟩
    decide
  · exact (hstored .standard replyFresh rfl rfl (by decide)).mpr (.inl hsettled)

/-- Weights that are finite, which their sum is not. -/
def heavy : Weights := ⟨1e308, 1e308, 1e308, 1e308⟩

def leapSecond : Instant := ⟨Date.toDays ⟨2016, 12, 31⟩, 86399, 1999000000⟩

theorem evaluate_outside :
    heavy.check = .ok () ∧ reply.checkShape = .ok () ∧
    ((⟨heavy, standardGrace⟩ : Evaluator).evaluate reply [] none).score.isNaN = true ∧
    inUnit ((⟨heavy, standardGrace⟩ : Evaluator).evaluate reply [] none).score = false ∧
    (Bus.complete { Settings.standard with weights := heavy } replyFresh reply []).1.checkShape ≠
      .ok () ∧
    Dated reply (some leapSecond) ∧
    ((⟨Weights.standard, 1000⟩ : Evaluator).evaluate reply []
      (some leapSecond)).breakdown.timeliness = 2.0 := by
  have hweights : heavy.check = .ok () := by decide +kernel
  have hscore :
      ((⟨heavy, standardGrace⟩ : Evaluator).evaluate reply [] none).score.isNaN = true := by
    decide +kernel
  have hstored : (Bus.rating { Settings.standard with weights := heavy } reply []).score.isNaN =
      true := by decide +kernel
  have hshape : reply.checkShape = .ok () := by decide +kernel
  refine ⟨hweights, hshape, hscore, not_inUnit hscore, ?_, ⟨?_, ?_⟩, ?_⟩
  · rw [Ne, complete_checkShape _ replyFresh [] rfl hshape, not_inUnit hstored]
    nofun
  · exact ⟨by decide, by decide, .inl (by decide)⟩
  · rintro d ⟨⟩
    exact ⟨by decide, by decide, .inr ⟨by decide, by decide⟩⟩
  · decide +kernel

end Parley.Quality
