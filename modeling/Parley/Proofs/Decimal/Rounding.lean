import Mathlib
import Parley.Proofs.Decimal.Finite
import Parley.Proofs.Decimal.Nearest

namespace Parley.Decimal

open Float.Model (Format totalExponent UnpackedFloat)
open Float.Model.UnpackedFloat

/-- A mantissa is the whole part of a number, the bit after it says whether a half is left, and the
last one whether anything is left then. -/
def Approximates (em : ExtendedMantissa) (x : ℚ) : Prop :=
  ∃ rest : ℚ, 0 ≤ rest ∧ rest < 1 / 2 ∧ (em.stickyBit = true ↔ 0 < rest) ∧
    x = em.mantissa + (if em.roundBit = true then 1 / 2 else 0) + rest

def withSign : Sign → ℚ → ℚ
  | .negative, x => -x
  | .positive, x => x

def valueOf : UnpackedFloat → ℚ
  | .finite s m e _ => withSign s (m * 2 ^ e)
  | _ => 0

/-- A finite double, but for an exponent that is too great. -/
inductive Canonical : UnpackedFloat → Prop
  | zero (s : Sign) : Canonical (.zero s)
  | finite {s : Sign} {m : Nat} {e : Int} {hm : 0 < m} (h : Regular m e) :
    Canonical (.finite s m e hm)

/-- A result that is canonical and has a value. -/
structure Gives (u : UnpackedFloat) (q : ℚ) : Prop where
  canonical : Canonical u
  value : valueOf u = q

variable {em : ExtendedMantissa} {x : ℚ} {m n k : Nat} {e : Int} {acc : Accuracy}
  {u v : UnpackedFloat}

theorem approximates_exact (m : Nat) :
    Approximates (ExtendedMantissa.ofMantissaAndAccuracy m .exact) m :=
  ⟨0, le_rfl, by norm_num, by simp [ExtendedMantissa.ofMantissaAndAccuracy],
    by simp [ExtendedMantissa.ofMantissaAndAccuracy]⟩

theorem Approximates.shiftRightOne (h : Approximates em x) :
    Approximates em.shiftRightOne (x / 2) := by
  obtain ⟨rest, hlow, hhigh, hsticky, rfl⟩ := h
  obtain ⟨m, round, sticky⟩ := em
  have hm : (m : ℚ) = 2 * (m / 2 : Nat) + (m % 2 : Nat) := by
    exact_mod_cast (Nat.div_add_mod m 2).symm
  refine ⟨((if round = true then 1 / 2 else 0) + rest) / 2, ?_, ?_, ?_, ?_⟩
  · cases round <;> simp <;> linarith
  · cases round <;> simp <;> linarith
  · change (round || sticky) = true ↔ _
    cases round with
    | false => simp [hsticky]
    | true =>
        simp only [Bool.true_or, if_true, true_iff]
        linarith
  · have hbit : ((m % 2 : Nat) : ℚ) = 2 * if (m % 2 != 0) = true then 1 / 2 else 0 := by
      rcases Nat.mod_two_eq_zero_or_one m with h | h <;> simp [h]
    change _ = ((m / 2 : Nat) : ℚ) + (if (m % 2 != 0) = true then 1 / 2 else 0) + _
    rw [hm, hbit]
    ring

theorem Approximates.shiftRight (h : Approximates em x) (k : Nat) :
    Approximates (em >>> k) (x / 2 ^ k) := by
  change Approximates (Nat.repeat ExtendedMantissa.shiftRightOne k em) _
  induction k with
  | zero => rwa [pow_zero, div_one]
  | succ k ih =>
      rw [pow_succ, ← div_div]
      exact ih.shiftRightOne

theorem Approximates.floor (h : Approximates em x) : ⌊x⌋ = em.mantissa := by
  obtain ⟨rest, hlow, hhigh, -, rfl⟩ := h
  rw [Int.floor_eq_iff, Int.cast_natCast]
  cases em.roundBit <;> simp <;> constructor <;> linarith

theorem Approximates.roundedMantissa (h : Approximates em x) :
    (em.roundedMantissa : ℤ) = halfEven x := by
  have hfloor := h.floor
  obtain ⟨rest, hlow, hhigh, hsticky, hx⟩ := h
  have hfract : Int.fract x = (if em.roundBit = true then 1 / 2 else 0) + rest := by
    rw [Int.fract, hfloor, hx, Int.cast_natCast]
    ring
  rw [halfEven, hfract, hfloor]
  obtain ⟨m, round, sticky⟩ := em
  cases round with
  | false =>
      rw [if_pos (by simpa using hhigh)]
      cases sticky <;> rfl
  | true =>
      rw [if_neg (by simpa using hlow)]
      cases sticky with
      | false =>
          rw [if_neg (by simpa using hsticky)]
          rfl
      | true =>
          rw [if_pos (by simpa using hsticky)]
          rfl

theorem mul_zpow_pos (hm : 0 < m) (e : Int) : (0 : ℚ) < m * 2 ^ e :=
  mul_pos (by exact_mod_cast hm) (zpow_two_pos e)

theorem log_of_floor (hm : 0 < m) (hlow : (m : ℚ) * 2 ^ e ≤ x) (hhigh : x < (m + 1) * 2 ^ e) :
    Int.log 2 x = m.log2 + e := by
  have hx : 0 < x := (mul_zpow_pos hm e).trans_le hlow
  have hpow (j : Nat) : (2 : ℚ) ^ ((j : ℤ) + e) = ((2 ^ j : Nat) : ℚ) * 2 ^ e := by
    rw [zpow_two_add, zpow_natCast]
    push_cast
    rfl
  apply le_antisymm
  · rw [← Int.lt_add_one_iff, log_lt_iff hx]
    have hlt : m + 1 ≤ 2 ^ (m.log2 + 1) := Nat.lt_log2_self
    calc x < (m + 1) * 2 ^ e := hhigh
      _ ≤ ((2 ^ (m.log2 + 1) : Nat) : ℚ) * 2 ^ e := by
        apply mul_le_mul_of_nonneg_right _ (zpow_two_pos e).le
        exact_mod_cast hlt
      _ = 2 ^ (m.log2 + e + 1) := by
        rw [← hpow]
        congr 1
        push_cast
        ring
  · rw [le_log_iff hx, hpow]
    refine le_trans (mul_le_mul_of_nonneg_right ?_ (zpow_two_pos e).le) hlow
    exact_mod_cast Nat.log2_self_le hm.ne'

theorem bounds_of_floor (h : ⌊x / 2 ^ e⌋ = m) : (m : ℚ) * 2 ^ e ≤ x ∧ x < (m + 1) * 2 ^ e := by
  rw [Int.floor_eq_iff, le_div_iff₀ (zpow_two_pos e), div_lt_iff₀ (zpow_two_pos e)] at h
  exact_mod_cast h

/-- Where no digit is missing, numbers are rounded at their last place. -/
theorem targetExponent_eq_place (hx : 0 < x) (h : ⌊x / 2 ^ e⌋ = m)
    (he : e ≤ Format.binary64.targetExponent (totalExponent m e)) :
    Format.binary64.targetExponent (totalExponent m e) = place x := by
  obtain ⟨hlow, hhigh⟩ := bounds_of_floor h
  rw [targetExponent_eq, totalExponent] at he ⊢
  rw [place, leastExponent]
  rcases Nat.eq_zero_or_pos m with rfl | hm
  · have hlog : Int.log 2 x < e := by
      rw [log_lt_iff hx]
      simpa using hhigh
    have hzero : Nat.log2 0 = 0 := rfl
    omega
  · rw [log_of_floor hm hlow hhigh]
    omega

theorem first_rounding (hx : 0 < x)
    (h : Approximates (ExtendedMantissa.ofMantissaAndAccuracy m acc) (x / 2 ^ e))
    (he : e ≤ Format.binary64.targetExponent (totalExponent m e)) :
    (shiftToTargetExponent Format.binary64 m e acc).2 = place x ∧
      ((shiftToTargetExponent Format.binary64 m e acc).1.roundedMantissa : ℤ) =
        halfEven (x / 2 ^ place x) := by
  have hfloor := h.floor
  rw [mantissa_ofMantissaAndAccuracy] at hfloor
  have htarget := targetExponent_eq_place hx hfloor he
  rw [htarget] at he
  have hshift : (2 : ℚ) ^ place x = 2 ^ e * 2 ^ (place x - e).toNat := by
    rw [zpow_two_eq he, mul_comm]
  simp only [shiftToTargetExponent, shiftToExponent, htarget]
  refine ⟨by omega, ?_⟩
  rw [hshift, ← div_div]
  exact (h.shiftRight _).roundedMantissa

/-- A carry over the last digit of the mantissa is shifted out again. -/
theorem carry {r : Nat} {p : Int} (hr : r ≤ 2 ^ 53) (hp : leastExponent ≤ p)
    (hnormal : 2 ^ 52 ≤ r ∨ p = leastExponent) :
    let last := shiftToTargetExponent Format.binary64 r p .exact
    Regular last.1.mantissa last.2 ∧ (last.1.mantissa : ℚ) * 2 ^ last.2 = r * 2 ^ p := by
  simp only [shiftToTargetExponent, shiftToExponent, targetExponent_eq, shiftRight_mantissa,
    mantissa_ofMantissaAndAccuracy, totalExponent]
  rw [leastExponent] at hp hnormal
  rcases hr.lt_or_eq with hlt | rfl
  · have hlog : r.log2 < 53 := by
      rcases Nat.eq_zero_or_pos r with rfl | hpos
      · decide
      · exact (Nat.log2_lt hpos.ne').mpr hlt
    have hk : (max ((r.log2 : Int) + 1 + p - 53) (-1074) - p).toNat = 0 := by omega
    rw [hk, pow_zero, Nat.div_one, Nat.cast_zero, add_zero]
    exact ⟨⟨hlt, hp, hnormal⟩, rfl⟩
  · have hlog : Nat.log2 (2 ^ 53) = 53 := Nat.log2_two_pow
    have hk : (max ((Nat.log2 (2 ^ 53) : Int) + 1 + p - 53) (-1074) - p).toNat = 1 := by omega
    rw [hk]
    refine ⟨⟨by decide, by rw [leastExponent]; omega, .inl (by decide)⟩, ?_⟩
    rw [zpow_two_add]
    norm_num
    ring

theorem halfEven_place (hx : 0 < x) : 0 ≤ halfEven (x / 2 ^ place x) ∧
    halfEven (x / 2 ^ place x) ≤ 2 ^ 53 ∧
    (2 ^ 52 ≤ halfEven (x / 2 ^ place x) ∨ place x = leastExponent) := by
  have hle {k : ℤ} (h : x / 2 ^ place x ≤ k) : halfEven (x / 2 ^ place x) ≤ k :=
    halfEven_intCast k ▸ halfEven_mono h
  have hge {k : ℤ} (h : (k : ℚ) ≤ x / 2 ^ place x) : k ≤ halfEven (x / 2 ^ place x) :=
    halfEven_intCast k ▸ halfEven_mono h
  refine ⟨hge ?_, hle ?_, ?_⟩
  · exact_mod_cast (div_pos hx (zpow_two_pos _)).le
  · exact_mod_cast (div_place_lt x).le
  · by_cases hleast : place x = leastExponent
    · exact .inr hleast
    · left
      apply hge
      have hplace : Int.log 2 x = 52 + place x := by
        rw [place] at hleast ⊢
        omega
      rw [le_div_iff₀ (zpow_two_pos _)]
      have h := zpow_log_le hx
      rw [hplace, zpow_two_add] at h
      exact_mod_cast h

/-- Rounding a mantissa whose digits were not cut short gives the nearest double. -/
theorem gives_roundWithAccuracy (s : Sign) (hx : 0 < x)
    (h : Approximates (ExtendedMantissa.ofMantissaAndAccuracy m acc) (x / 2 ^ e))
    (he : e ≤ Format.binary64.targetExponent (totalExponent m e)) :
    Gives (roundWithAccuracy Format.binary64 s m e acc) (withSign s (roundUnsigned x)) := by
  obtain ⟨hplace, hdigits⟩ := first_rounding hx h he
  obtain ⟨hlow, hhigh, hnormal⟩ := halfEven_place hx
  obtain ⟨hregular, hvalue⟩ := carry (r :=
      (shiftToTargetExponent Format.binary64 m e acc).1.roundedMantissa) (p := place x)
    (by omega) (leastExponent_le_place x) (by omega)
  have hlast : (((rounded m e acc).1.mantissa : Nat) : ℚ) * 2 ^ (rounded m e acc).2 =
      roundUnsigned x := by
    rw [rounded, hplace, hvalue, roundUnsigned, roundAt, ← hdigits, Int.cast_natCast]
  have hcanonical : Regular (rounded m e acc).1.mantissa (rounded m e acc).2 := by
    rw [rounded, hplace]
    exact hregular
  rw [roundWithAccuracy_eq]
  split
  · rename_i hzero
    refine ⟨.zero s, ?_⟩
    rw [← hlast, hzero, Nat.cast_zero, zero_mul]
    cases s
    · exact neg_zero.symm
    · rfl
  · exact ⟨.finite hcanonical, congrArg (withSign s) hlast⟩

theorem nearest_withSign (s : Sign) (hx : 0 ≤ x) :
    nearest (withSign s x) = withSign s (roundUnsigned x) := by
  cases s with
  | negative => rw [withSign, withSign, nearest_neg, nearest_of_nonneg hx]
  | positive => exact nearest_of_nonneg hx

theorem Gives.of_nearest {s : Sign} (hx : 0 ≤ x) (h : Gives u (withSign s (roundUnsigned x))) :
    Gives u (nearest (withSign s x)) := by
  rwa [nearest_withSign s hx]

theorem valueOf_zero (s : Sign) : valueOf (.zero s) = 0 := rfl

theorem valueOf_finite (s : Sign) (m : Nat) (e : Int) (hm : 0 < m) :
    valueOf (.finite s m e hm) = withSign s (m * 2 ^ e) := rfl

theorem gives_zero (s : Sign) : Gives (.zero s) (nearest 0) := ⟨.zero s, nearest_zero.symm⟩

theorem withSign_mul (s s' : Sign) (x y : ℚ) :
    withSign s x * withSign s' y = withSign (s * s') (x * y) := by
  cases s <;> cases s'
  · exact neg_mul_neg x y
  · exact neg_mul x y
  · exact mul_neg x y
  · rfl

theorem withSign_div (s s' : Sign) (x y : ℚ) :
    withSign s x / withSign s' y = withSign (s / s') (x / y) := by
  cases s <;> cases s'
  · exact neg_div_neg_eq x y
  · exact neg_div y x
  · exact div_neg x
  · rfl

theorem Regular.mul_exponent_le {m' : Nat} {e' : Int} (h : Regular m e) (h' : Regular m' e')
    (hm : 0 < m) (hm' : 0 < m') :
    e + e' ≤ Format.binary64.targetExponent (totalExponent (m * m') (e + e')) := by
  rw [targetExponent_eq, totalExponent]
  have hlog {a b : Nat} (ha : mantissaUnit ≤ a) (hb : 0 < b) : 52 ≤ (a * b).log2 := by
    rw [Nat.le_log2 (Nat.mul_pos (lt_of_lt_of_le (by decide) ha) hb).ne']
    exact ha.trans (Nat.le_mul_of_pos_right a hb)
  have hleast := h.least
  have hleast' := h'.least
  rcases h.normal with hn | rfl
  · have := hlog hn hm'
    omega
  · rcases h'.normal with hn | rfl
    · have := hlog hn hm
      rw [Nat.mul_comm] at this
      omega
    · rw [leastExponent]
      omega

theorem gives_mul_finite (s s' : Sign) (e e' : Int) {m' : Nat} (hm : 0 < m) (hm' : 0 < m')
    (he : e + e' ≤ Format.binary64.targetExponent (totalExponent (m * m') (e + e'))) :
    Gives (mul Format.binary64 (.finite s m e hm) (.finite s' m' e' hm'))
      (nearest (withSign s (m * 2 ^ e) * withSign s' (m' * 2 ^ e'))) := by
  have hx := mul_pos (mul_zpow_pos hm e) (mul_zpow_pos hm' e')
  rw [withSign_mul]
  apply Gives.of_nearest hx.le
  apply gives_roundWithAccuracy _ hx _ he
  have hscaled : (m : ℚ) * 2 ^ e * (m' * 2 ^ e') / 2 ^ (e + e') = (m * m' : Nat) := by
    rw [zpow_two_add]
    field_simp
    push_cast
    rfl
  rw [hscaled]
  exact approximates_exact _

theorem gives_mul (hu : Canonical u) (hv : Canonical v) :
    Gives (mul Format.binary64 u v) (nearest (valueOf u * valueOf v)) := by
  cases hu with
  | zero s =>
      rw [valueOf_zero, zero_mul]
      cases hv <;> exact gives_zero _
  | @finite s m e hm h =>
      cases hv with
      | zero s' =>
          rw [valueOf_zero, mul_zero]
          exact gives_zero _
      | @finite s' m' e' hm' h' => exact gives_mul_finite s s' e e' hm hm' (h.mul_exponent_le h' hm hm')

theorem approximates_fraction (m : Nat) (hn : 0 < n) :
    Approximates (ExtendedMantissa.ofMantissaAndAccuracy (m / n) (accuracyOfFraction (m % n) n))
      (m / n : ℚ) := by
  have hn' : (0 : ℚ) < n := by exact_mod_cast hn
  have hdiv : (m / n : ℚ) = (m / n : Nat) + (m % n : Nat) / n := by
    rw [← mul_right_inj' hn'.ne', mul_add, mul_div_cancel₀ _ hn'.ne', mul_div_cancel₀ _ hn'.ne']
    exact_mod_cast (Nat.div_add_mod m n).symm
  have hlt : ((m % n : Nat) : ℚ) < n := by exact_mod_cast Nat.mod_lt m hn
  rw [hdiv, accuracyOfFraction]
  generalize m / n = q
  generalize m % n = r at hlt
  by_cases hr : r = 0
  · rw [if_pos hr, hr, Nat.cast_zero, zero_div, add_zero]
    exact approximates_exact q
  · have hpos : (0 : ℚ) < r / n := div_pos (by exact_mod_cast Nat.pos_of_ne_zero hr) hn'
    have hhalf : ((2 * r : Nat) : ℚ) = 2 * (r / n) * n := by
      rw [mul_assoc, div_mul_cancel₀ _ hn'.ne']
      push_cast
      rfl
    rw [if_neg hr]
    -- The accuracy says on which side of a half the remainder is.
    rcases lt_trichotomy (2 * r) n with h | h | h
    · rw [Nat.compare_eq_lt.mpr h]
      have hbelow : 2 * (r / n : ℚ) < 1 := by
        rw [← mul_lt_mul_iff_left₀ hn', ← hhalf, one_mul]
        exact_mod_cast h
      exact ⟨r / n, hpos.le, by linarith, ⟨fun _ => hpos, fun _ => rfl⟩, by
        simp [ExtendedMantissa.ofMantissaAndAccuracy]⟩
    · rw [Nat.compare_eq_eq.mpr h]
      have heq : 2 * (r / n : ℚ) = 1 := by
        rw [← mul_left_inj' hn'.ne', ← hhalf, one_mul, h]
      refine ⟨0, le_rfl, by norm_num, by simp [ExtendedMantissa.ofMantissaAndAccuracy], ?_⟩
      simp only [ExtendedMantissa.ofMantissaAndAccuracy, if_true]
      linarith
    · rw [Nat.compare_eq_gt.mpr h]
      have habove : 1 < 2 * (r / n : ℚ) := by
        rw [← mul_lt_mul_iff_left₀ hn', ← hhalf, one_mul]
        exact_mod_cast h
      have hone : (r / n : ℚ) < 1 := by rwa [div_lt_one hn']
      refine ⟨r / n - 1 / 2, by linarith, by linarith,
        ⟨fun _ => by linarith, fun _ => rfl⟩, ?_⟩
      simp only [ExtendedMantissa.ofMantissaAndAccuracy, if_true]
      linarith

theorem quotient_exponent_le {m' : Nat} (e e' : Int) (hm : 0 < m) (hm' : 0 < m') :
    let g := min (e - e')
      (Format.binary64.targetExponent (totalExponent m e - totalExponent m' e'))
    g ≤ Format.binary64.targetExponent (totalExponent (m <<< (e - e' - g).toNat / m') g) := by
  simp only [targetExponent_eq, totalExponent]
  generalize hg : min (e - e') _ = g
  by_cases hleast : g ≤ -1074
  · exact hleast.trans (le_max_right _ _)
  · -- The quotient is at least `2 ^ 52`, by the leading digits of both mantissas.
    have hpow : 2 ^ 52 ≤ m <<< (e - e' - g).toNat / m' := by
      rw [Nat.le_div_iff_mul_le hm', Nat.shiftLeft_eq]
      calc 2 ^ 52 * m' ≤ 2 ^ 52 * 2 ^ (m'.log2 + 1) :=
            Nat.mul_le_mul_left _ Nat.lt_log2_self.le
        _ = 2 ^ (53 + m'.log2) := by rw [← pow_add]; congr 1; omega
        _ ≤ 2 ^ (m.log2 + (e - e' - g).toNat) := Nat.pow_le_pow_right (by decide) (by omega)
        _ ≤ m * 2 ^ (e - e' - g).toNat := by
          rw [pow_add]
          exact Nat.mul_le_mul_right _ (Nat.log2_self_le hm.ne')
    have hlog : 52 ≤ (m <<< (e - e' - g).toNat / m').log2 := by
      rwa [Nat.le_log2 (lt_of_lt_of_le (by decide) hpow).ne']
    omega

theorem quotient_value (m m' : Nat) {e e' g : Int} (hg : g ≤ e - e') :
    (m : ℚ) * 2 ^ e / (m' * 2 ^ e') / 2 ^ g = (m <<< (e - e' - g).toNat : Nat) / m' := by
  have hpow := zpow_two_eq (j := e) (k := e' + g) (by omega)
  rw [show e - (e' + g) = e - e' - g by ring, zpow_two_add] at hpow
  have he' := (zpow_two_pos e').ne'
  have hg' := (zpow_two_pos g).ne'
  rw [hpow, Nat.shiftLeft_eq]
  push_cast
  field_simp

theorem gives_div (hu : Canonical u) (hv : Canonical v) (h : valueOf v ≠ 0) :
    Gives (div Format.binary64 u v) (nearest (valueOf u / valueOf v)) := by
  cases hv with
  | zero s' => exact absurd rfl h
  | @finite s' m' e' hm' _ =>
      cases hu with
      | zero s =>
          rw [valueOf_zero, zero_div]
          exact gives_zero _
      | @finite s m e hm _ =>
          have hx := div_pos (mul_zpow_pos hm e) (mul_zpow_pos hm' e')
          have hfit := quotient_exponent_le e e' hm hm'
          rw [valueOf_finite, valueOf_finite, withSign_div]
          apply Gives.of_nearest hx.le
          have hle : min (e - e') (Format.binary64.targetExponent
            (totalExponent m e - totalExponent m' e')) ≤ e - e' := min_le_left _ _
          simp only at hfit
          rw [div, divCore]
          simp only
          generalize min (e - e') (Format.binary64.targetExponent
            (totalExponent m e - totalExponent m' e')) = g at hfit hle ⊢
          apply gives_roundWithAccuracy _ hx _ hfit
          rw [quotient_value m m' hle]
          exact approximates_fraction _ hm'

theorem totalExponent_shiftLeft (hm : 0 < m) (e : Int) (k : Nat) :
    totalExponent (m <<< k) (e - k) = totalExponent m e := by
  have hlog : (m <<< k).log2 = m.log2 + k := by
    rw [Nat.shiftLeft_eq, Nat.log2_eq_iff (Nat.mul_pos hm (Nat.two_pow_pos k)).ne', pow_add,
      Nat.add_right_comm, pow_add]
    exact ⟨Nat.mul_le_mul_right _ (Nat.log2_self_le hm.ne'),
      Nat.mul_lt_mul_of_pos_right Nat.lt_log2_self (Nat.two_pow_pos k)⟩
  rw [totalExponent, totalExponent, hlog]
  omega

theorem shiftLeft_value (m k : Nat) (e : Int) :
    ((m <<< k : Nat) : ℚ) * 2 ^ (e - k) = m * 2 ^ e := by
  rw [Nat.shiftLeft_eq]
  push_cast
  rw [mul_assoc, ← zpow_natCast, ← zpow_two_add, add_sub_cancel]

theorem gives_round (s : Sign) (hm : 0 < m) (e : Int) :
    Gives (UnpackedFloat.round Format.binary64 s m e) (withSign s (roundUnsigned (m * 2 ^ e))) := by
  apply gives_roundWithAccuracy s (mul_zpow_pos hm e)
  · rw [← shiftLeft_value m (e - Format.binary64.targetExponent (totalExponent m e)).toNat e,
      mul_div_cancel_right₀ _ (zpow_two_pos _).ne']
    exact approximates_exact _
  · rw [totalExponent_shiftLeft hm]
    omega

theorem gives_normalize (m : Int) (e : Int) (s : Sign) :
    Gives (UnpackedFloat.normalize Format.binary64 m e s) (nearest (m * 2 ^ e)) := by
  have hround (t : Sign) {n : Nat} (hn : 0 < n) (h : (m : ℚ) * 2 ^ e = withSign t (n * 2 ^ e)) :
      Gives (UnpackedFloat.round Format.binary64 t n e) (nearest (m * 2 ^ e)) := by
    rw [h]
    exact Gives.of_nearest (mul_zpow_pos hn e).le (gives_round t hn e)
  rw [UnpackedFloat.normalize]
  rcases lt_trichotomy m 0 with hm | rfl | hm
  · rw [Int.compare_eq_lt.mpr hm]
    apply hround .negative (by omega)
    have hcast : (((-m).toNat : Nat) : ℚ) = -m := by exact_mod_cast Int.toNat_of_nonneg (by omega)
    rw [withSign, hcast, neg_mul, neg_neg]
  · rw [Int.cast_zero, zero_mul]
    exact gives_zero s
  · rw [Int.compare_eq_gt.mpr hm]
    apply hround .positive (by omega)
    have hcast : ((m.toNat : Nat) : ℚ) = m := by exact_mod_cast Int.toNat_of_nonneg hm.le
    rw [withSign, hcast]

theorem Regular.representable (h : Regular m e) (s : Sign) :
    Representable (withSign s (m * 2 ^ e)) := by
  have hpos : Representable (m * 2 ^ e) := by
    have hlt := h.lt
    refine ⟨m, e, ?_, h.least, by rw [Int.cast_natCast]⟩
    rw [mantissaUnit] at hlt
    rw [abs_le]
    omega
  cases s with
  | negative => exact hpos.neg
  | positive => exact hpos

theorem Canonical.representable (h : Canonical u) : Representable (valueOf u) := by
  cases h with
  | zero s => exact ⟨0, 0, by norm_num, by decide, by rw [valueOf_zero, Int.cast_zero, zero_mul]⟩
  | finite h => exact h.representable _

theorem Canonical.gives (h : Canonical u) : Gives u (nearest (valueOf u)) :=
  ⟨h, (nearest_of_representable h.representable).symm⟩

theorem apply_value (s : Sign) (m k : Nat) (e : Int) :
    (s.apply ((m <<< k : Nat) : Int) : ℚ) * 2 ^ (e - k) = withSign s (m * 2 ^ e) := by
  have h := shiftLeft_value m k e
  cases s with
  | negative =>
      rw [Sign.apply, withSign, ← h, Int.cast_neg, Int.cast_natCast, neg_mul]
  | positive =>
      rw [Sign.apply, withSign, ← h, Int.cast_natCast]

theorem gives_add (hu : Canonical u) (hv : Canonical v) :
    Gives (add Format.binary64 u v) (nearest (valueOf u + valueOf v)) := by
  cases hu with
  | zero s =>
      rw [valueOf_zero, zero_add]
      cases hv with
      | zero s' =>
          rw [valueOf_zero]
          cases s <;> cases s' <;> exact gives_zero _
      | finite h => exact (Canonical.finite h).gives
  | @finite s m e hm h =>
      cases hv with
      | zero s' =>
          rw [valueOf_zero, add_zero]
          exact (Canonical.finite h).gives
      | @finite s' m' e' hm' h' =>
          have hleft := apply_value s m (e - min e e').toNat e
          have hright := apply_value s' m' (e' - min e e').toNat e'
          rw [show e - ((e - min e e').toNat : Int) = min e e' by omega] at hleft
          rw [show e' - ((e' - min e e').toNat : Int) = min e e' by omega] at hright
          rw [valueOf_finite, valueOf_finite, ← hleft, ← hright, ← add_mul, ← Int.cast_add]
          exact gives_normalize _ _ .positive

theorem Canonical.neg (h : Canonical u) : Canonical u.neg := by
  cases h with
  | zero s => exact .zero _
  | finite h => exact .finite h

theorem valueOf_neg (u : UnpackedFloat) : valueOf u.neg = -valueOf u := by
  cases u with
  | finite s m e hm =>
      cases s
      · exact (neg_neg _).symm
      · rfl
  | _ => exact neg_zero.symm

theorem sub_eq_add (hu : Canonical u) (hv : Canonical v) :
    sub Format.binary64 u v = add Format.binary64 u v.neg := by
  cases hu with
  | zero s => cases hv <;> rfl
  | @finite s m e hm h =>
      cases hv with
      | zero s' => rfl
      | @finite s' m' e' hm' h' =>
          have happly (n : Int) : (-s').apply n = -s'.apply n := by
            cases s'
            · exact (neg_neg n).symm
            · rfl
          simp only [sub, UnpackedFloat.neg, add, happly]
          rfl

theorem gives_sub (hu : Canonical u) (hv : Canonical v) :
    Gives (sub Format.binary64 u v) (nearest (valueOf u - valueOf v)) := by
  rw [sub_eq_add hu hv, sub_eq_add_neg, ← valueOf_neg]
  exact gives_add hu hv.neg

end Parley.Decimal
