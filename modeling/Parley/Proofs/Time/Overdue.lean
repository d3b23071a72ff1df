import Mathlib.Data.List.Basic
import Parley.Proofs.Time.Stamp

namespace Parley.Time.Instant

variable {a b : Instant}

theorem inRange_iff (day : Int) : inRange day = true ↔ -95745764 ≤ day ∧ day ≤ 95745764 := by
  have hleast : Date.toDays ⟨leastYear, 1, 1⟩ = -95745764 := by decide
  have hgreatest : Date.toDays ⟨greatestYear, 12, 31⟩ = 95745764 := by decide
  rw [inRange, hleast, hgreatest, Bool.and_eq_true, decide_eq_true_iff, decide_eq_true_iff]

theorem le_eq_false_iff : b.le a = false ↔ a.day < b.day ∨ (a.day = b.day ∧
    (a.second < b.second ∨ (a.second = b.second ∧ a.nano < b.nano))) := by
  simp only [le, Bool.or_eq_false_iff, Bool.and_eq_false_iff, decide_eq_false_iff_not]
  omega

theorem Valid.nano_lt (h : a.Valid) : a.nano < 2 * nanosPerSecond :=
  h.nano.elim (fun hlt => hlt.trans (by decide)) And.left

theorem daySeconds_cases (a b : Instant) : daySeconds a b = (b.second : Int) - a.second ∨
    (daySeconds a b = (b.second : Int) - a.second + 1 ∧ a.second < b.second) ∨
    (daySeconds a b = (b.second : Int) - a.second - 1 ∧ b.second < a.second ∧
      nanosPerSecond ≤ b.nano) := by
  rw [daySeconds]
  split
  · rename_i hleap
    exact .inr (.inl ⟨rfl, hleap.1⟩)
  · split
    · rename_i hleap
      exact .inr (.inr ⟨rfl, hleap⟩)
    · exact .inl rfl

/-- To a later moment no time is negative, unless it is counted from a leap second. -/
theorem nanosSince_nonneg (ha : a.Valid) (h : b.le a = false) (hn : a.nano < nanosPerSecond) :
    0 ≤ b.nanosSince a := by
  have hsecond := ha.second
  have hday := daySeconds_cases a b
  rw [le_eq_false_iff] at h
  simp only [secondsPerDay, nanosPerSecond] at hsecond hn hday
  simp only [nanosSince, secondsPerDay, nanosPerSecond]
  omega

/-- The next day starts a second after the one that a leap second is added to. -/
theorem nanosSince_gt (ha : a.Valid) (h : b.le a = false) :
    -(nanosPerSecond : Int) < b.nanosSince a := by
  have hsecond := ha.second
  have hnano := ha.nano_lt
  have hday := daySeconds_cases a b
  rw [le_eq_false_iff] at h
  simp only [secondsPerDay, nanosPerSecond] at hsecond hnano hday
  simp only [nanosSince, secondsPerDay, nanosPerSecond]
  omega

theorem nanosSince_lt (ha : a.Valid) (hb : b.Valid) : b.nanosSince a < 10 ^ 23 := by
  have hleft := (inRange_iff _).mp ha.day
  have hright := (inRange_iff _).mp hb.day
  have hsecond := hb.second
  have hnano := hb.nano_lt
  have hday := daySeconds_cases a b
  simp only [secondsPerDay, nanosPerSecond] at hsecond hnano hday
  simp only [nanosSince, secondsPerDay, nanosPerSecond]
  omega

theorem millisSince_bounds (ha : a.Valid) (hb : b.Valid) (h : b.le a = false) :
    -1000 < b.millisSince a ∧ b.millisSince a < 2 ^ 63 ∧
      (a.nano < nanosPerSecond → 0 ≤ b.millisSince a) := by
  have hlow := nanosSince_gt ha h
  have hhigh := nanosSince_lt ha hb
  rw [nanosPerSecond] at hlow
  rw [millisSince, Int.tdiv_eq_ediv]
  refine ⟨?_, ?_, fun hn => ?_⟩
  · split
    · omega
    · change _ < _ + 1
      omega
  · split
    · omega
    · change _ + 1 < _
      omega
  · have hnonneg := nanosSince_nonneg ha h hn
    rw [if_pos (.inl hnonneg)]
    omega

end Parley.Time.Instant
