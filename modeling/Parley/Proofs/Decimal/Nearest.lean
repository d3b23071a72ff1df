import Mathlib.Algebra.Order.Floor.Ring
import Mathlib.Data.Int.Log
import Mathlib.Data.Rat.Floor
import Mathlib.Tactic.Linarith
import Mathlib.Tactic.NormNum
import Mathlib.Tactic.Positivity
import Mathlib.Tactic.Ring
import Parley.Decimal.Binary

namespace Parley.Decimal

/-- The integer that is nearest, and the even one where two are. -/
def halfEven (x : ℚ) : ℤ :=
  if Int.fract x < 1 / 2 then ⌊x⌋
  else if 1 / 2 < Int.fract x then ⌊x⌋ + 1
  else ⌊x⌋ + ⌊x⌋ % 2

/-- The exponent of the last place of doubles that are as great as a positive number. -/
def place (x : ℚ) : ℤ := max (Int.log 2 x - 52) leastExponent

def roundAt (p : ℤ) (x : ℚ) : ℚ := halfEven (x / 2 ^ p) * 2 ^ p

def roundUnsigned (x : ℚ) : ℚ := roundAt (place x) x

/-- What a number is rounded to, if there were doubles of every size. -/
def nearest (x : ℚ) : ℚ := if x < 0 then -roundUnsigned (-x) else roundUnsigned x

/-- A number with no more digits than the mantissa of a double holds, or the power of two after
them. -/
def Representable (x : ℚ) : Prop :=
  ∃ m e : ℤ, |m| ≤ 2 ^ 53 ∧ leastExponent ≤ e ∧ x = m * 2 ^ e

variable {x y : ℚ} {k p : ℤ}

theorem zpow_two_pos (k : ℤ) : (0 : ℚ) < 2 ^ k := zpow_pos (by norm_num) k

theorem zpow_two_add (j k : ℤ) : (2 : ℚ) ^ (j + k) = 2 ^ j * 2 ^ k := zpow_add₀ (by norm_num) j k

theorem zpow_two_eq {j k : ℤ} (h : k ≤ j) : (2 : ℚ) ^ j = 2 ^ (j - k).toNat * 2 ^ k := by
  rw [← zpow_natCast, ← zpow_two_add, Int.toNat_of_nonneg (by omega)]
  congr 1
  omega

theorem floor_le_halfEven (x : ℚ) : ⌊x⌋ ≤ halfEven x := by
  rw [halfEven]
  split_ifs <;> omega

theorem halfEven_le (x : ℚ) : halfEven x ≤ ⌊x⌋ + 1 := by
  rw [halfEven]
  split_ifs <;> omega

theorem halfEven_intCast (k : ℤ) : halfEven k = k := by
  rw [halfEven, Int.fract_intCast, Int.floor_intCast, if_pos (by norm_num)]

theorem halfEven_mono (h : x ≤ y) : halfEven x ≤ halfEven y := by
  rcases (Int.floor_mono h).lt_or_eq with hlt | heq
  · have hx := halfEven_le x
    have hy := floor_le_halfEven y
    omega
  · have hfract : Int.fract x ≤ Int.fract y := by
      rw [Int.fract, Int.fract, heq]
      exact sub_le_sub_right h _
    rw [halfEven, halfEven, heq]
    split_ifs <;> first | omega | linarith

theorem log_two_zpow (k : ℤ) : Int.log 2 ((2 : ℚ) ^ k) = k := by
  have h := Int.log_zpow (R := ℚ) (b := 2) (by decide) k
  rwa [Nat.cast_ofNat] at h

theorem zpow_log_le (hx : 0 < x) : 2 ^ Int.log 2 x ≤ x := by
  have h := Int.zpow_log_le_self (b := 2) (by decide) hx
  rwa [Nat.cast_ofNat] at h

theorem lt_zpow_log (x : ℚ) : x < 2 ^ (Int.log 2 x + 1) := by
  have h := Int.lt_zpow_succ_log_self (b := 2) (by decide) x
  rwa [Nat.cast_ofNat] at h

theorem le_log_iff (hx : 0 < x) : k ≤ Int.log 2 x ↔ 2 ^ k ≤ x := by
  rw [← Int.zpow_le_iff_le_log (b := 2) (by decide) hx, Nat.cast_ofNat]

theorem log_lt_iff (hx : 0 < x) : Int.log 2 x < k ↔ x < 2 ^ k := by
  rw [← Int.lt_zpow_iff_log_lt (b := 2) (by decide) hx, Nat.cast_ofNat]

theorem leastExponent_le_place (x : ℚ) : leastExponent ≤ place x := le_max_right _ _

theorem place_mono (hx : 0 < x) (h : x ≤ y) : place x ≤ place y :=
  max_le_max (sub_le_sub_right (Int.log_mono_right hx h) _) le_rfl

theorem div_place_lt (x : ℚ) : x / 2 ^ place x < 2 ^ 53 := by
  rw [div_lt_iff₀ (zpow_two_pos _)]
  calc x < 2 ^ (Int.log 2 x + 1) := lt_zpow_log x
    _ ≤ 2 ^ (53 + place x) := by
      apply zpow_le_zpow_right₀ (by norm_num)
      have := le_max_left (Int.log 2 x - 52) leastExponent
      rw [place]
      omega
    _ = 2 ^ 53 * 2 ^ place x := by rw [zpow_two_add]; norm_num

theorem roundAt_mono (p : ℤ) (h : x ≤ y) : roundAt p x ≤ roundAt p y := by
  apply mul_le_mul_of_nonneg_right _ (zpow_two_pos p).le
  exact_mod_cast halfEven_mono (div_le_div_of_nonneg_right h (zpow_two_pos p).le)

theorem roundAt_multiple (k p : ℤ) : roundAt p (k * 2 ^ p) = k * 2 ^ p := by
  rw [roundAt, mul_div_cancel_right₀ _ (zpow_two_pos p).ne', halfEven_intCast]

theorem roundAt_zpow (h : p ≤ k) : roundAt p (2 ^ k) = 2 ^ k := by
  have hk : (2 : ℚ) ^ k = ((2 ^ (k - p).toNat : ℤ) : ℚ) * 2 ^ p := by
    rw [zpow_two_eq h]
    push_cast
    rfl
  rw [hk, roundAt_multiple]

theorem roundUnsigned_zero : roundUnsigned 0 = 0 := by
  have h := roundAt_multiple 0 (place 0)
  rwa [Int.cast_zero, zero_mul] at h

theorem roundUnsigned_of_representable (hx : 0 ≤ x) (h : Representable x) :
    roundUnsigned x = x := by
  rcases hx.eq_or_lt with rfl | hx
  · exact roundUnsigned_zero
  obtain ⟨m, e, hm, he, hxe⟩ := h
  by_cases hplace : place x ≤ e
  · have hmultiple : x = ((m * 2 ^ (e - place x).toNat : ℤ) : ℚ) * 2 ^ place x := by
      push_cast
      rw [mul_assoc, ← zpow_two_eq hplace, ← hxe]
    have h := roundAt_multiple (m * 2 ^ (e - place x).toNat) (place x)
    rwa [← hmultiple] at h
  · -- The last place is left of the digits only for the power of two after the mantissas.
    have hlog : e + 53 ≤ Int.log 2 x := by
      rw [place] at hplace
      omega
    have hm' : (m : ℚ) ≤ 2 ^ 53 := by exact_mod_cast (le_abs_self m).trans hm
    have hpow : x = 2 ^ (e + 53) := by
      apply le_antisymm _ ((le_log_iff hx).mp hlog)
      rw [hxe, zpow_two_add, mul_comm]
      exact mul_le_mul_of_nonneg_left hm' (zpow_two_pos e).le
    have hp : place x ≤ e + 53 := by
      rw [place, hpow, log_two_zpow]
      omega
    rw [roundUnsigned]
    generalize place x = p at hp
    rw [hpow, roundAt_zpow hp]

theorem representable_zpow (h : leastExponent ≤ k) : Representable (2 ^ k) :=
  ⟨1, k, by norm_num, h, by rw [Int.cast_one, one_mul]⟩

theorem roundUnsigned_nonneg (hx : 0 ≤ x) : 0 ≤ roundUnsigned x := by
  have h := roundAt_mono (place x) hx
  have hzero := roundAt_multiple 0 (place x)
  rw [Int.cast_zero, zero_mul] at hzero
  rwa [hzero] at h

theorem roundUnsigned_mono (hx : 0 ≤ x) (h : x ≤ y) : roundUnsigned x ≤ roundUnsigned y := by
  rcases hx.eq_or_lt with rfl | hx
  · rw [roundUnsigned_zero]
    exact roundUnsigned_nonneg h
  rcases (place_mono hx h).eq_or_lt with heq | hlt
  · rw [roundUnsigned, roundUnsigned, heq]
    exact roundAt_mono _ h
  · -- Between numbers with different last places there is a power of two, a multiple of both.
    have hy : 0 < y := hx.trans_le h
    have hlow := leastExponent_le_place x
    have hleft := le_max_left (Int.log 2 x - 52) leastExponent
    have hplace : place y = Int.log 2 y - 52 := by
      simp only [place] at hlt hlow ⊢
      omega
    have hxpow : x ≤ 2 ^ Int.log 2 y := by
      refine ((lt_zpow_log x).trans_le (zpow_le_zpow_right₀ (by norm_num) ?_)).le
      rw [← place] at hleft
      omega
    calc roundUnsigned x ≤ roundAt (place x) (2 ^ Int.log 2 y) := roundAt_mono _ hxpow
      _ = 2 ^ Int.log 2 y := roundAt_zpow (by omega)
      _ = roundAt (place y) (2 ^ Int.log 2 y) := (roundAt_zpow (by omega)).symm
      _ ≤ roundUnsigned y := roundAt_mono _ (zpow_log_le hy)

theorem nearest_of_nonneg (hx : 0 ≤ x) : nearest x = roundUnsigned x := if_neg hx.not_gt

theorem nearest_zero : nearest 0 = 0 := (nearest_of_nonneg le_rfl).trans roundUnsigned_zero

theorem nearest_neg (x : ℚ) : nearest (-x) = -nearest x := by
  rcases lt_trichotomy x 0 with hx | rfl | hx
  · rw [nearest_of_nonneg (neg_nonneg.mpr hx.le), nearest, if_pos hx, neg_neg]
  · rw [neg_zero, nearest_zero, neg_zero]
  · rw [nearest, if_pos (neg_lt_zero.mpr hx), neg_neg, nearest_of_nonneg hx.le]

theorem nearest_nonneg (hx : 0 ≤ x) : 0 ≤ nearest x := by
  rw [nearest_of_nonneg hx]
  exact roundUnsigned_nonneg hx

theorem nearest_mono (h : x ≤ y) : nearest x ≤ nearest y := by
  have hnonneg {x y : ℚ} (hx : 0 ≤ x) (h : x ≤ y) : nearest x ≤ nearest y := by
    rw [nearest_of_nonneg hx, nearest_of_nonneg (hx.trans h)]
    exact roundUnsigned_mono hx h
  rcases le_total 0 x with hx | hx
  · exact hnonneg hx h
  · have hneg : nearest x = -nearest (-x) := by rw [nearest_neg, neg_neg]
    rcases le_total 0 y with hy | hy
    · have hleft := nearest_nonneg (neg_nonneg.mpr hx)
      have hright := nearest_nonneg hy
      rw [hneg]
      linarith
    · have hflip := hnonneg (neg_nonneg.mpr hy) (neg_le_neg h)
      rw [hneg, ← neg_neg y, nearest_neg (-y)]
      exact neg_le_neg hflip

theorem Representable.neg (h : Representable x) : Representable (-x) := by
  obtain ⟨m, e, hm, he, rfl⟩ := h
  exact ⟨-m, e, (abs_neg m).trans_le hm, he, by push_cast; ring⟩

theorem nearest_of_representable (h : Representable x) : nearest x = x := by
  rcases le_total 0 x with hx | hx
  · rw [nearest_of_nonneg hx, roundUnsigned_of_representable hx h]
  · have hneg := neg_nonneg.mpr hx
    rw [← neg_neg x, nearest_neg, nearest_of_nonneg hneg,
      roundUnsigned_of_representable hneg h.neg]

theorem abs_nearest_le_nearest (h : |x| ≤ y) : |nearest x| ≤ nearest y := by
  obtain ⟨hlow, hhigh⟩ := abs_le.mp h
  rw [abs_le, ← nearest_neg]
  exact ⟨nearest_mono hlow, nearest_mono hhigh⟩

theorem abs_nearest_le (hy : Representable y) (h : |x| ≤ y) : |nearest x| ≤ y :=
  (abs_nearest_le_nearest h).trans_eq (nearest_of_representable hy)

theorem Representable.mul_pow (h : Representable x) (k : ℕ) : Representable (2 ^ k * x) := by
  obtain ⟨m, e, hm, he, rfl⟩ := h
  refine ⟨m, k + e, hm, by omega, ?_⟩
  rw [zpow_two_add, zpow_natCast]
  ring

theorem halfEven_add_of_lt (k : ℤ) (hlow : 0 ≤ x) (hhigh : x < 1 / 2) : halfEven (k + x) = k := by
  have hfloor : ⌊x⌋ = 0 := Int.floor_eq_zero_iff.mpr ⟨hlow, hhigh.trans (by norm_num)⟩
  have hfract : Int.fract x = x := by rw [Int.fract, hfloor, Int.cast_zero, sub_zero]
  rw [halfEven, Int.fract_intCast_add, Int.floor_intCast_add, hfract, hfloor, if_pos hhigh, add_zero]

theorem halfEven_add_half (k : ℤ) : halfEven (k + 1 / 2) = k + k % 2 := by
  have hfloor : ⌊(1 / 2 : ℚ)⌋ = 0 := Int.floor_eq_zero_iff.mpr ⟨by norm_num, by norm_num⟩
  have hfract : Int.fract (1 / 2 : ℚ) = 1 / 2 := by rw [Int.fract, hfloor, Int.cast_zero, sub_zero]
  rw [halfEven, Int.fract_intCast_add, Int.floor_intCast_add, hfract, hfloor, add_zero,
    if_neg (lt_irrefl _), if_neg (lt_irrefl _)]

theorem place_eq (hp : leastExponent ≤ p) (hlow : 2 ^ (52 + p) ≤ x) (hhigh : x < 2 ^ (53 + p)) :
    place x = p := by
  have hx : 0 < x := (zpow_two_pos _).trans_le hlow
  rw [← le_log_iff hx] at hlow
  rw [← log_lt_iff hx] at hhigh
  rw [place]
  omega

theorem nearest_eq_roundAt (hp : leastExponent ≤ p) (hlow : 2 ^ (52 + p) ≤ x)
    (hhigh : x < 2 ^ (53 + p)) : nearest x = roundAt p x := by
  have hx : 0 < x := (zpow_two_pos _).trans_le hlow
  rw [nearest_of_nonneg hx.le, roundUnsigned, place_eq hp hlow hhigh]

theorem roundAt_mul (k p : ℤ) (x : ℚ) : roundAt (k + p) (2 ^ k * x) = 2 ^ k * roundAt p x := by
  have hk := (zpow_two_pos k).ne'
  rw [roundAt, roundAt, zpow_two_add, mul_div_mul_left _ _ hk]
  ring

theorem Representable.exists_multiple (h : Representable x) (hx : 2 ^ 53 < x) :
    ∃ m p : ℤ, 1 ≤ p ∧ 2 ^ 52 ≤ m ∧ m < 2 ^ 53 ∧ x = m * 2 ^ p := by
  have hpos : 0 < x := lt_trans (by norm_num) hx
  have hlog : 53 ≤ Int.log 2 x := by
    rw [le_log_iff hpos]
    exact hx.le
  have hplace : place x = Int.log 2 x - 52 := by
    rw [place, leastExponent]
    omega
  have hfix : (halfEven (x / 2 ^ place x) : ℚ) * 2 ^ place x = x :=
    roundUnsigned_of_representable hpos.le h
  have hdigits : (halfEven (x / 2 ^ place x) : ℚ) = x / 2 ^ place x := by
    rw [eq_div_iff (zpow_two_pos _).ne', hfix]
  have hlow : (2 : ℚ) ^ 52 ≤ halfEven (x / 2 ^ place x) := by
    have hle := zpow_log_le hpos
    rw [show Int.log 2 x = 52 + place x by omega, zpow_two_add] at hle
    rw [hdigits, le_div_iff₀ (zpow_two_pos _)]
    exact hle
  have hhigh : (halfEven (x / 2 ^ place x) : ℚ) < 2 ^ 53 := by
    rw [hdigits]
    exact div_place_lt x
  refine ⟨halfEven (x / 2 ^ place x), place x, by omega, ?_, ?_, hfix.symm⟩
  · exact_mod_cast hlow
  · exact_mod_cast hhigh

theorem Representable.sub_one (h : Representable x) (hlow : 1 ≤ x) (hhigh : x ≤ 2 ^ 53) :
    Representable (x - 1) := by
  obtain ⟨m, e, hm, he, rfl⟩ := h
  rcases le_total 0 e with hsign | hsign
  · obtain ⟨j, rfl⟩ := Int.eq_ofNat_of_zero_le hsign
    rw [zpow_natCast] at hlow hhigh ⊢
    have hlow' : 1 ≤ m * 2 ^ j := by exact_mod_cast hlow
    have hhigh' : m * 2 ^ j ≤ 2 ^ 53 := by exact_mod_cast hhigh
    refine ⟨m * 2 ^ j - 1, 0, ?_, by decide, ?_⟩
    · rw [abs_le]
      omega
    · push_cast
      ring
  · obtain ⟨j, hj⟩ := Int.eq_ofNat_of_zero_le (neg_nonneg.mpr hsign)
    have hone : ((2 ^ j : ℤ) : ℚ) * 2 ^ e = 1 := by
      rw [show e = -(j : ℤ) by omega, zpow_neg, zpow_natCast]
      push_cast
      exact mul_inv_cancel₀ (by positivity)
    have hle : (2 ^ j : ℤ) ≤ m := by
      rw [← hone, mul_le_mul_iff_left₀ (zpow_two_pos e)] at hlow
      exact_mod_cast hlow
    have hpos : (0 : ℤ) < 2 ^ j := by positivity
    refine ⟨m - 2 ^ j, e, ?_, he, ?_⟩
    · rw [abs_le] at hm ⊢
      omega
    · rw [Int.cast_sub, sub_mul, hone]

/-- Half a place below an odd mantissa the even one before it is taken. -/
theorem roundAt_sub_one {m : ℤ} (hodd : m % 2 = 1) : roundAt 1 (m * 2 ^ (1 : ℤ) - 1) =
    m * 2 ^ (1 : ℤ) - 2 := by
  have hhalf : ((m : ℚ) * 2 ^ (1 : ℤ) - 1) / 2 ^ (1 : ℤ) = ((m - 1 : ℤ) : ℚ) + 1 / 2 := by
    rw [zpow_one]
    push_cast
    ring
  rw [roundAt, hhalf, halfEven_add_half, show (m - 1) % 2 = 0 by omega, add_zero, zpow_one]
  push_cast
  ring

/-- Half a place above an even mantissa, and less than that above any, it is taken itself. -/
theorem roundAt_add_one {m : ℤ} (hp : 1 ≤ p) (h : ¬ (p = 1 ∧ m % 2 = 1)) :
    roundAt p (m * 2 ^ p + 1) = m * 2 ^ p := by
  have hdiv : ((m : ℚ) * 2 ^ p + 1) / 2 ^ p = m + 1 / 2 ^ p := by
    rw [add_div, mul_div_cancel_right₀ _ (zpow_two_pos p).ne']
  rw [roundAt, hdiv]
  congr 2
  rcases hp.eq_or_lt with rfl | hp
  · rw [zpow_one, halfEven_add_half]
    omega
  · have hpow : (2 : ℚ) < 2 ^ p := by
      have hlt := zpow_lt_zpow_right₀ (a := (2 : ℚ)) (by norm_num) hp
      rwa [zpow_one] at hlt
    exact halfEven_add_of_lt m (by positivity) (one_div_lt_one_div_of_lt (by norm_num) hpow)

/-- One step back and one forth do not lead beyond a double, at any scale. -/
theorem nearest_back_and_forth (h : Representable x) (hx : 1 ≤ x) (k : ℕ) :
    nearest (2 ^ k * (nearest (x - 1) + 1)) ≤ 2 ^ k * x := by
  have hfix := nearest_of_representable (h.mul_pow k)
  have hle {y : ℚ} (hy : nearest (x - 1) + 1 ≤ y) (hround : nearest (2 ^ k * y) = 2 ^ k * x) :
      nearest (2 ^ k * (nearest (x - 1) + 1)) ≤ 2 ^ k * x := by
    rw [← hround]
    exact nearest_mono (mul_le_mul_of_nonneg_left hy (by positivity))
  rcases le_or_gt x (2 ^ 53) with hsmall | hbig
  · rw [nearest_of_representable (h.sub_one hx hsmall), sub_add_cancel, hfix]
  obtain ⟨m, p, hp, hlow, hhigh, hm⟩ := h.exists_multiple hbig
  have hlow' : (2 : ℚ) ^ 52 ≤ m := by exact_mod_cast hlow
  have hhigh' : (m : ℚ) + 1 ≤ 2 ^ 53 := by exact_mod_cast hhigh
  by_cases hodd : p = 1 ∧ m % 2 = 1
  · obtain ⟨rfl, hodd⟩ := hodd
    have hback : nearest (x - 1) = x - 2 := by
      rw [hm, nearest_eq_roundAt (p := 1) (by decide), roundAt_sub_one hodd]
      · have hnext : 2 ^ 52 + 1 ≤ m := by omega
        have hnext' : (2 : ℚ) ^ 52 + 1 ≤ m := by exact_mod_cast hnext
        norm_num at hnext' ⊢
        linarith
      · norm_num at hhigh' ⊢
        linarith
    exact hle (y := x) (by linarith) hfix
  · have hpow : (1 : ℚ) < 2 ^ p := one_lt_zpow₀ (by norm_num) (by omega)
    have hback : nearest (x - 1) ≤ x := by
      have hmono := nearest_mono (show x - 1 ≤ x by linarith)
      rwa [nearest_of_representable h] at hmono
    have hforth : nearest (2 ^ k * (x + 1)) = 2 ^ k * x := by
      rw [hm, ← zpow_natCast, nearest_eq_roundAt (p := k + p), roundAt_mul,
        roundAt_add_one hp hodd]
      · rw [leastExponent]
        omega
      · rw [show 52 + ((k : ℤ) + p) = k + (52 + p) by ring, zpow_two_add, zpow_two_add 52]
        apply mul_le_mul_of_nonneg_left _ (zpow_two_pos _).le
        have := mul_le_mul_of_nonneg_right hlow' (zpow_two_pos p).le
        exact this.trans (by linarith)
      · rw [show 53 + ((k : ℤ) + p) = k + (53 + p) by ring, zpow_two_add, zpow_two_add 53]
        apply mul_lt_mul_of_pos_left _ (zpow_two_pos _)
        have := mul_le_mul_of_nonneg_right hhigh' (zpow_two_pos p).le
        refine lt_of_lt_of_le ?_ this
        linarith
    exact hle (add_le_add_left hback 1) hforth

end Parley.Decimal
