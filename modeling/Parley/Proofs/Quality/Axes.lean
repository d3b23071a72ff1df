import Parley.Proofs.Decimal.Hundredths
import Parley.Proofs.Time.Overdue
import Parley.Quality

namespace Parley.Quality

open Decimal
open Time (Instant nanosPerSecond)

variable {x y b : Float} {p q : ℚ} {answer : Message} {thread : List Message}
  {deadline : Option Instant} {grace : Int}

theorem inUnit_atMost (hx : ¬ x < 0.0) (hb : inUnit b = true) : inUnit (atMost x b) = true := by
  rw [atMost]
  split
  · exact hb
  · rename_i h
    obtain ⟨hnumber, hle⟩ : x.isNaN = false ∧ ¬ b < x := by simpa using h
    obtain ⟨q, hb, -, hhigh⟩ := inUnit_iff.mp hb
    have hlow := zero_le_iff.mpr ⟨hx, hnumber⟩
    rw [not_lt_iff_le (isNaN_of_isFinite hb.finite) hnumber] at hle
    have hvalue := isValue_of_isFinite (isFinite_of_between isValue_zero.finite hb.finite hlow hle)
    refine inUnit_iff.mpr ⟨_, hvalue, (isValue_zero.le_iff hvalue).mp hlow, ?_⟩
    exact ((hvalue.le_iff hb).mp hle).trans hhigh

theorem isNaN_clamp (x : Float) : (clamp x).isNaN = x.isNaN := by
  rw [clamp]
  split
  · rename_i hlow
    exact (isNaN_of_lt hlow).1.symm
  · split
    · rename_i hhigh
      exact (isNaN_of_lt hhigh).2.symm
    · rfl

theorem inUnit_clamp (h : x.isNaN = false) : inUnit (clamp x) = true := by
  rw [clamp]
  split
  · decide
  · rename_i hlow
    split
    · decide
    · rename_i hhigh
      exact inUnit_iff_le.mpr
        ⟨zero_le_iff.mpr ⟨hlow, h⟩, (not_lt_iff_le (by decide) h).mp hhigh⟩

theorem isValue_atLeast (hx : IsValue x p) : IsValue (atLeast x 0.0) (max p 0) := by
  rw [atLeast, isNaN_of_isFinite hx.finite, Bool.false_or]
  split
  · rename_i h
    rw [decide_eq_true_iff, hx.lt_iff isValue_zero] at h
    rw [max_eq_right h.le]
    exact isValue_zero
  · rename_i h
    rw [decide_eq_true_iff, hx.lt_iff isValue_zero, not_lt] at h
    rwa [max_eq_left h]

theorem inUnit_completeness (answer : Message) (thread : List Message) :
    inUnit (completeness answer thread) = true := by
  simp only [completeness]
  split
  · decide
  · exact inUnit_atMost (not_neg_mul (not_neg_div (not_neg_ofNat _) (plus_ofNat _)) (by decide))
      (by decide)

theorem inUnit_evidence (answer : Message) : inUnit (evidence answer) = true := by
  rw [evidence]
  split
  · decide
  · split
    · decide
    · split
      · exact inUnit_atMost (not_neg_add (by decide) (not_neg_mul (not_neg_ofNat _) (by decide)))
          (by decide)
      · decide

theorem inUnit_depth (answer : Message) : inUnit (depth answer) = true :=
  inUnit_atMost (not_neg_div (not_neg_ofNat _) (plus_of_pos (by decide))) (by decide)

theorem isValue_ofInt {i : Int} (h : i.natAbs < 2 ^ 64) : IsValue (ofInt i) (nearest i) := by
  cases i with
  | ofNat n => exact isValue_ofNat h
  | negSucc n =>
      have hvalue := (isValue_ofNat (n := n + 1) h).neg (abs_nearest_natCast_lt h)
      rw [← nearest_neg] at hvalue
      rw [Int.cast_negSucc]
      exact hvalue

theorem exists_loss {late grace : Int} (hlow : -1000 < late) (hhigh : late < 2 ^ 63)
    (hgrace : 0 < grace) (hgrace' : grace < 2 ^ 63) :
    ∃ q, IsValue (ofInt late / ofInt grace) q ∧ |q| ≤ 2 ^ 63 ∧ (0 ≤ late → 0 ≤ q) := by
  have hrep : Representable (2 ^ (63 : Int)) := representable_zpow (by decide)
  have hone : 1 ≤ nearest grace := one_le_nearest (by exact_mod_cast hgrace)
  have hlate : |nearest late| ≤ 2 ^ (63 : Int) := by
    apply abs_nearest_le hrep
    rw [abs_le]
    constructor
    · have hcast : (-1000 : ℚ) < late := by exact_mod_cast hlow
      linarith
    · exact_mod_cast hhigh.le
  have hshare : |nearest late / nearest grace| ≤ 2 ^ (63 : Int) := by
    rw [abs_div, abs_of_pos (by linarith : 0 < nearest grace)]
    exact (div_le_self (abs_nonneg _) hone).trans hlate
  have hdiv := (isValue_ofInt (i := late) (by omega)).div
    (isValue_ofInt (i := grace) (by omega)) (by linarith)
    (abs_nearest_lt (by decide) (by decide) hshare)
  refine ⟨_, hdiv, abs_nearest_le hrep hshare, fun hnonneg => nearest_nonneg ?_⟩
  exact div_nonneg (nearest_nonneg (by exact_mod_cast hnonneg)) (by linarith)

/-- Timeliness is a number of at least zero, and at most one unless the deadline is in a leap
second. -/
theorem exists_timeliness (hsent : answer.sentAt.Valid)
    (hvalid : ∀ d, deadline.or (threadDeadline thread) = some d → d.Valid)
    (hgrace : grace < 2 ^ 63) :
    ∃ q, IsValue (timeliness grace answer thread deadline) q ∧ 0 ≤ q ∧
      ((∀ d, deadline.or (threadDeadline thread) = some d → d.nano < nanosPerSecond) → q ≤ 1) := by
  rw [timeliness]
  cases hd : deadline.or (threadDeadline thread) with
  | none => exact ⟨1, isValue_one, by norm_num, fun _ => le_rfl⟩
  | some d =>
      simp only
      split
      · exact ⟨1, isValue_one, by norm_num, fun _ => le_rfl⟩
      · rename_i hlate
        split
        · exact ⟨0, isValue_zero, le_rfl, fun _ => by norm_num⟩
        · rename_i hpos
          obtain ⟨hlow, hhigh, hnonneg⟩ :=
            Instant.millisSince_bounds (hvalid d hd) hsent (Bool.not_eq_true _ ▸ hlate)
          obtain ⟨q, hq, hmax, hsign⟩ := exists_loss hlow hhigh (not_le.mp hpos) hgrace
          have hrest : |1 - q| ≤ 2 ^ (64 : Int) := by
            rw [abs_le] at hmax ⊢
            norm_num at hmax ⊢
            constructor <;> linarith
          have hsub := isValue_one.sub hq (abs_nearest_lt (by decide) (by decide) hrest)
          refine ⟨_, isValue_atLeast hsub, le_max_right _ _, fun hleap => ?_⟩
          have hloss := hsign (hnonneg (hleap d rfl))
          exact max_le (nearest_le_one (by linarith)) (by norm_num)

theorem valid_threadDeadline {d : Instant} (h : threadDeadline thread = some d) : d.Valid := by
  obtain ⟨question, -, h⟩ := Option.bind_eq_some_iff.mp h
  obtain ⟨value, -, h⟩ := Option.bind_eq_some_iff.mp h
  obtain ⟨text, -, h⟩ := Option.bind_eq_some_iff.mp h
  exact Time.valid_readStrict h

end Parley.Quality
