import Mathlib.Tactic.Ring
import Parley.Time.Instant

namespace Parley.Time

def yearLength (year : Int) : Nat := if isLeap year then 366 else 365

theorem sum_monthLengths (year : Int) :
    (monthLengths year).foldr (· + ·) 0 = yearLength year := by
  rw [yearLength, monthLengths]
  cases isLeap year <;> rfl

theorem isLeap_iff (year : Int) : isLeap year = true ↔
    year % 4 = 0 ∧ (year % 100 ≠ 0 ∨ year % 400 = 0) := by
  simp [isLeap]

theorem daysBeforeYear_succ (year : Int) :
    daysBeforeYear (year + 1) = daysBeforeYear year + yearLength year := by
  have hl := isLeap_iff year
  rw [daysBeforeYear, daysBeforeYear, yearLength]
  cases h : isLeap year with
  | true =>
      have := hl.mp h
      simp only [if_true]
      omega
  | false =>
      rw [h] at hl
      simp only [Bool.false_eq_true, false_iff] at hl
      simp only [Bool.false_eq_true, if_false]
      omega

theorem yearOf_bounds (days : Int) :
    daysBeforeYear (yearOf days) ≤ days ∧ days < daysBeforeYear (yearOf days + 1) := by
  simp only [yearOf]
  generalize hg : days * 400 / 146097 = guess
  have hnext : days < daysBeforeYear (guess + 2) := by
    rw [daysBeforeYear]
    omega
  have hlast : daysBeforeYear (guess - 1) ≤ days := by
    rw [daysBeforeYear]
    omega
  split
  · exact ⟨by assumption, by rwa [show guess + 1 + 1 = guess + 2 by ring]⟩
  · split
    · exact ⟨hlast, by rwa [show guess - 1 + 1 = guess by ring]⟩
    · omega

theorem monthOf_spec (lengths : List Nat) (month rest : Nat)
    (h : rest < lengths.foldr (· + ·) 0) : ∃ k length, lengths[k]? = some length ∧
      (monthOf lengths month rest).1 = month + k ∧ 1 ≤ (monthOf lengths month rest).2 ∧
      (monthOf lengths month rest).2 ≤ length ∧
      (lengths.take k).foldr (· + ·) 0 + (monthOf lengths month rest).2 = rest + 1 := by
  induction lengths generalizing month rest with
  | nil => simp at h
  | cons length lengths ih =>
      rw [List.foldr_cons] at h
      rw [monthOf]
      split
      · exact ⟨0, length, rfl, rfl, by simp, by simp; omega, by simp⟩
      · obtain ⟨k, l, hk, hm, hlow, hhigh, hsum⟩ := ih (month + 1) (rest - length) (by omega)
        refine ⟨k + 1, l, hk, by omega, hlow, hhigh, ?_⟩
        rw [List.take_succ_cons, List.foldr_cons]
        omega

theorem ofDays_spec (days : Int) :
    (Date.ofDays days).valid = true ∧ (Date.ofDays days).toDays = days := by
  obtain ⟨hle, hlt⟩ := yearOf_bounds days
  rw [daysBeforeYear_succ] at hlt
  obtain ⟨k, length, hk, hmonth, hlow, hhigh, hsum⟩ := monthOf_spec (monthLengths (yearOf days)) 1
    (days - daysBeforeYear (yearOf days)).toNat (by rw [sum_monthLengths]; omega)
  have hbound : k < 12 := (List.getElem?_eq_some_iff.mp hk).1
  have hdate : Date.ofDays days = ⟨yearOf days,
      (monthOf (monthLengths (yearOf days)) 1 (days - daysBeforeYear (yearOf days)).toNat).1,
      (monthOf (monthLengths (yearOf days)) 1 (days - daysBeforeYear (yearOf days)).toNat).2⟩ := rfl
  rw [hdate]
  generalize monthOf (monthLengths (yearOf days)) 1 (days - daysBeforeYear (yearOf days)).toNat =
    found at hmonth hlow hhigh hsum
  obtain ⟨month, day⟩ := found
  simp only at hmonth hlow hhigh hsum
  subst hmonth
  simp only [Date.valid, Date.toDays, daysInMonth, daysBeforeMonth,
    show 1 + k - 1 = k by omega, List.getD_eq_getElem?_getD, hk, Option.getD_some,
    Bool.and_eq_true, decide_eq_true_eq]
  omega

end Parley.Time
