import Mathlib.Tactic.NormNum
import Parley.Json.Number
import Parley.Proofs.Decimal.Binary

namespace Parley.Decimal

open Float.Model (Format totalExponent UnpackedFloat)
open Float.Model.UnpackedFloat

inductive Under (top : Int) : UnpackedFloat → Prop
  | zero (s : Sign) : Under top (.zero s)
  | finite {s : Sign} {m : Nat} {e : Int} {hm : 0 < m} (he : e ≤ top) : Under top (.finite s m e hm)

inductive Held (top : Int) : UnpackedFloat → Prop
  | zero (s : Sign) : Held top (.zero s)
  | finite {s : Sign} {m : Nat} {e : Int} {hm : 0 < m} (hlt : m < 2 ^ 53) (he : e ≤ top) :
    Held top (.finite s m e hm)

variable {top a b : Int} {x y : UnpackedFloat}

theorem held_unpack {bits : BitVec Format.binary64.numBits} (htop : -1074 ≤ top)
    (h : (@unpackExponent Format.binary64 bits).toNat < 2047)
    (ht : (@unpackExponent Format.binary64 bits).toNat ≤ top + 1075) :
    Held top (unpack Format.binary64 bits) := by
  have hne : @unpackExponent Format.binary64 bits ≠ -1#_ := by
    intro hall
    rw [hall] at h
    exact absurd h (by decide)
  change Held top (if @unpackExponent Format.binary64 bits = -1#_ then _ else
    if @unpackExponent Format.binary64 bits = 0#_ then _ else _)
  rw [if_neg hne]
  by_cases hzero : @unpackExponent Format.binary64 bits = 0#_
  · rw [if_pos hzero]
    by_cases hfraction : @unpackMantissa Format.binary64 bits = 0#_
    · rw [dif_pos hfraction]
      exact .zero _
    · rw [dif_neg hfraction]
      refine .finite ((BitVec.isLt _).trans (by decide)) ?_
      rw [hzero]
      exact htop
  · rw [if_neg hzero]
    refine .finite (BitVec.isLt _) ?_
    change _ - (1023 + 52 : Int) ≤ top
    omega

theorem held_of_isFinite {x : Float} (h : x.isFinite = true) : Held 971 x.toModel.unpack := by
  have hne : (@unpackExponent Format.binary64 x.toModel.toBits.toBitVec).toNat ≠ 2047 :=
    fun hfull => not_full_of_isFinite h (BitVec.eq_of_toNat_eq hfull)
  have hlt : (@unpackExponent Format.binary64 x.toModel.toBits.toBitVec).toNat < 2048 :=
    BitVec.isLt _
  exact held_unpack (by decide) (by omega) (by omega)

theorem isFinite_of_held {x : Float} (h : Held top x.toModel.unpack) : x.isFinite = true := by
  change x.toModel.unpack.isFinite = true
  generalize x.toModel.unpack = u at h
  cases h with
  | zero s => rfl
  | finite hlt he => rfl

theorem held_packComponents (s : Sign) {field : BitVec Format.binary64.exponentBits}
    (fraction : BitVec Format.binary64.mantissaBitsWithoutImplicit) (hlow : -1074 ≤ top)
    (h : field.toNat < 2047) (ht : field.toNat ≤ top + 1075) :
    Held top (unpack Format.binary64 (packComponents Format.binary64 s field fraction)) := by
  apply held_unpack hlow
  · rwa [unpackExponent_packComponents]
  · rwa [unpackExponent_packComponents]

theorem held_pack (top : Int) (hlow : -1074 ≤ top) (hhigh : top ≤ 971) (h : Under top x) :
    Held top (Float.Model.pack x).unpack := by
  have hzero : ((BitVec.ofNat Format.binary64.exponentBits 0).toNat : Int) ≤ top + 1075 := by
    change (0 : Int) ≤ top + 1075
    omega
  change Held top (unpack Format.binary64 (pack Format.binary64 x))
  cases h with
  | zero s => exact held_packComponents s 0#_ hlow (by decide) hzero
  | @finite s m e hm he =>
      have hb : (e + (Format.binary64.exponentBias : Int) + (52 : Nat)).toNat ≤
          (top + 1075).toNat := by
        change (e + 1023 + 52).toNat ≤ _
        omega
      have hfield : (BitVec.ofNat 11
          (e + (Format.binary64.exponentBias : Int) + (52 : Nat)).toNat).toNat ≤
            (top + 1075).toNat := (BitVec.toNat_ofNat .. ▸ Nat.mod_le _ _).trans hb
      delta pack
      dsimp only
      rw [if_neg (by omega)]
      split
      · exact held_packComponents s _ hlow (by omega) (by omega)
      · exact held_packComponents s _ hlow (by decide) hzero

theorem isFinite_pack (h : Under 971 x) : (Float.ofModel (.pack x)).isFinite = true :=
  isFinite_of_held (held_pack 971 (by decide) (by decide) h)

theorem shiftRight_mantissa (em : ExtendedMantissa) (k : Nat) :
    (em >>> k).mantissa = em.mantissa / 2 ^ k := by
  change (Nat.repeat ExtendedMantissa.shiftRightOne k em).mantissa = _
  induction k with
  | zero => simp [Nat.repeat]
  | succ k ih =>
      change (Nat.repeat ExtendedMantissa.shiftRightOne k em).mantissa / 2 = _
      rw [ih, Nat.div_div_eq_div_mul, pow_succ]

theorem roundedMantissa_le (em : ExtendedMantissa) : em.roundedMantissa ≤ em.mantissa + 1 := by
  obtain ⟨m, r, s⟩ := em
  cases r <;> cases s <;>
    simp [ExtendedMantissa.roundedMantissa, ExtendedMantissa.accuracy, Accuracy.roundToNearestEven]
  omega

theorem mantissa_ofMantissaAndAccuracy (m : Nat) (acc : Accuracy) :
    (ExtendedMantissa.ofMantissaAndAccuracy m acc).mantissa = m := by
  rcases acc with _ | o
  · rfl
  · cases o <;> rfl

theorem targetExponent_eq (e : Int) : Format.binary64.targetExponent e = max (e - 53) (-1074) := rfl

theorem log2_le_of_le_div {m r k : Nat} (h : r ≤ m / 2 ^ k + 1) :
    r.log2 + k ≤ m.log2 + 1 ∨ r.log2 = 0 := by
  by_cases hr : r ≤ 1
  · right
    obtain rfl | rfl : r = 0 ∨ r = 1 := by omega
    · rfl
    · rfl
  · left
    by_cases hk : k ≤ m.log2 + 1
    · have hm : m / 2 ^ k < 2 ^ (m.log2 + 1 - k) := by
        rw [Nat.div_lt_iff_lt_mul (by positivity), ← pow_add, Nat.sub_add_cancel hk]
        exact Nat.lt_log2_self
      have hlog : 2 ^ r.log2 ≤ 2 ^ (m.log2 + 1 - k) := by
        have := Nat.log2_self_le (n := r) (by omega)
        omega
      have := (Nat.pow_le_pow_iff_right (by decide : 1 < 2)).mp hlog
      omega
    · have hm : m / 2 ^ k = 0 := by
        apply Nat.div_eq_of_lt
        calc m < 2 ^ (m.log2 + 1) := Nat.lt_log2_self
          _ ≤ 2 ^ k := Nat.pow_le_pow_right (by decide) (by omega)
      omega

def rounded (m : Nat) (e : Int) (acc : Accuracy) : ExtendedMantissa × Int :=
  let first := shiftToTargetExponent Format.binary64 m e acc
  shiftToTargetExponent Format.binary64 first.1.roundedMantissa first.2 .exact

theorem roundWithAccuracy_eq (s : Sign) (m : Nat) (e : Int) (acc : Accuracy) :
    roundWithAccuracy Format.binary64 s m e acc =
      if h : (rounded m e acc).1.mantissa = 0 then .zero s
      else .finite s (rounded m e acc).1.mantissa (rounded m e acc).2 (Nat.pos_of_ne_zero h) :=
  rfl

/-- Rounding adds at most one to the exponent of the leading digit. -/
theorem rounded_le {m : Nat} {e : Int} (hlow : -1074 ≤ top) (he : e ≤ top)
    (h : totalExponent m e ≤ top + 52) (acc : Accuracy) : (rounded m e acc).2 ≤ top := by
  simp only [rounded, shiftToTargetExponent, shiftToExponent, targetExponent_eq]
  generalize hk : (max (totalExponent m e - 53) (-1074) - e).toNat = k
  generalize hr : (ExtendedMantissa.ofMantissaAndAccuracy m acc >>> k).roundedMantissa = r
  have hrm : r ≤ m / 2 ^ k + 1 := by
    have hle := roundedMantissa_le (ExtendedMantissa.ofMantissaAndAccuracy m acc >>> k)
    rwa [hr, shiftRight_mantissa, mantissa_ofMantissaAndAccuracy] at hle
  have hlog := log2_le_of_le_div hrm
  simp only [totalExponent] at h hk ⊢
  omega

theorem under_roundWithAccuracy {m : Nat} {e : Int} (hlow : -1074 ≤ top) (he : e ≤ top)
    (h : totalExponent m e ≤ top + 52) (s : Sign) (acc : Accuracy) :
    Under top (roundWithAccuracy Format.binary64 s m e acc) := by
  rw [roundWithAccuracy_eq]
  by_cases hz : (rounded m e acc).1.mantissa = 0
  · rw [dif_pos hz]
    exact .zero s
  · rw [dif_neg hz]
    exact .finite (rounded_le hlow he h acc)

theorem isFinite_roundWithAccuracy (s : Sign) (m : Nat) (e : Int) (acc : Accuracy) :
    (roundWithAccuracy Format.binary64 s m e acc).isFinite = true := by
  rw [roundWithAccuracy_eq]
  by_cases hz : (rounded m e acc).1.mantissa = 0
  · rw [dif_pos hz]
    rfl
  · rw [dif_neg hz]
    rfl

theorem totalExponent_le {m : Nat} {e : Int} (hm : 0 < m) {k : Nat} (h : m < 2 ^ k) :
    totalExponent m e ≤ k + e := by
  have hlog : m.log2 < k := (Nat.log2_lt (by omega)).mpr h
  rw [totalExponent]
  omega

theorem under_mul_finite {s s' : Sign} {m m' : Nat} {e e' : Int} {hm : 0 < m} {hm' : 0 < m'}
    (hlow : -1074 ≤ top) (he : e + e' ≤ top) (h : totalExponent (m * m') (e + e') ≤ top + 52) :
    Under top (mul Format.binary64 (.finite s m e hm) (.finite s' m' e' hm')) :=
  under_roundWithAccuracy hlow he h _ _

theorem under_mul (hlow : -1074 ≤ top) (hab : a + b + 54 ≤ top) (hx : Held a x) (hy : Held b y) :
    Under top (mul Format.binary64 x y) := by
  cases hx with
  | zero s => cases hy <;> exact .zero _
  | @finite s m e hm hlt he =>
      cases hy with
      | zero s' => exact .zero _
      | @finite s' m' e' hm' hlt' he' =>
          have hprod : m * m' < 2 ^ 106 := (Nat.mul_lt_mul'' hlt hlt').trans_eq (by norm_num)
          have ht := totalExponent_le (e := e + e') (Nat.mul_pos hm hm') hprod
          exact under_mul_finite hlow (by omega) (by omega)

theorem mul_isFinite (hx : Held a x) (hy : Held b y) :
    (mul Format.binary64 x y).isFinite = true := by
  cases hx with
  | zero s => cases hy <;> rfl
  | finite hlt he =>
      cases hy with
      | zero s' => rfl
      | finite hlt' he' => exact isFinite_roundWithAccuracy _ _ _ _

theorem isInf_pack (hx : x.isFinite = true) (h : ¬ Under 971 x) :
    (Float.Model.pack x).isInf = true := by
  change (unpack Format.binary64 (pack Format.binary64 x)).isInf = true
  cases x with
  | notANumber => cases hx
  | infinity s => cases hx
  | zero s => exact absurd (.zero s) h
  | finite s m e hm =>
      have he : ¬ e ≤ 971 := fun he => h (.finite he)
      have hb : 2 ^ 11 ≤ (e + (Format.binary64.exponentBias : Int) + (52 : Nat)).toNat + 1 := by
        change 2 ^ 11 ≤ (e + 1023 + (52 : Nat)).toNat + 1
        omega
      have hpack : pack Format.binary64 (.finite s m e hm) = packedInfinity Format.binary64 s :=
        if_pos hb
      have hexp : @unpackExponent Format.binary64 (packedInfinity Format.binary64 s) = -1#_ :=
        unpackExponent_packComponents ..
      have hfraction : @unpackMantissa Format.binary64 (packedInfinity Format.binary64 s) = 0#_ :=
        unpackMantissa_packComponents ..
      rw [hpack, unpack_of_full hexp, if_pos hfraction]
      rfl

theorem isFinite_mul {x y : Float} (hx : x.isFinite = true) (hy : y.isFinite = true)
    (h : (x * y).isInf = false) : (x * y).isFinite = true := by
  by_cases hu : Under 971 (mul Format.binary64 x.toModel.unpack y.toModel.unpack)
  · exact isFinite_pack hu
  · have hi := isInf_pack (mul_isFinite (held_of_isFinite hx) (held_of_isFinite hy)) hu
    exact absurd (hi.symm.trans h) (by decide)

theorem log2_div_le (m k : Nat) {n : Nat} (hn : 0 < n) :
    ((m <<< k) / n).log2 + n.log2 ≤ m.log2 + k ∨ ((m <<< k) / n).log2 = 0 := by
  by_cases hz : (m <<< k) / n = 0
  · right
    rw [hz]
    rfl
  · left
    have hq := Nat.log2_self_le hz
    have hd := Nat.log2_self_le (n := n) (by omega)
    have hm : m <<< k < 2 ^ (m.log2 + 1 + k) := by
      rw [Nat.shiftLeft_eq, pow_add]
      exact Nat.mul_lt_mul_of_pos_right Nat.lt_log2_self (by positivity)
    have hlt : 2 ^ (((m <<< k) / n).log2 + n.log2) < 2 ^ (m.log2 + 1 + k) :=
      calc 2 ^ (((m <<< k) / n).log2 + n.log2)
          = 2 ^ ((m <<< k) / n).log2 * 2 ^ n.log2 := pow_add ..
        _ ≤ (m <<< k) / n * n := Nat.mul_le_mul hq hd
        _ ≤ m <<< k := Nat.div_mul_le_self ..
        _ < 2 ^ (m.log2 + 1 + k) := hm
    have := (Nat.pow_lt_pow_iff_right (by decide : 1 < 2)).mp hlt
    omega

inductive AtLeastTwo : UnpackedFloat → Prop
  | finite {s : Sign} {m : Nat} {e : Int} (hm : 0 < m) (h : 2 ≤ totalExponent m e) :
    AtLeastTwo (.finite s m e hm)

theorem under_div (hx : Held 971 x) (hy : AtLeastTwo y) : Under 971 (div Format.binary64 x y) := by
  obtain ⟨hn, hf⟩ := hy
  rename_i s' n f
  cases hx with
  | zero s => exact .zero _
  | @finite s m e hm hlt he =>
      have ht := totalExponent_le (e := e) hm hlt
      generalize hg : min (e - f)
        (Format.binary64.targetExponent (totalExponent m e - totalExponent n f)) = g
      have hlog := log2_div_le m (e - f - g).toNat hn
      have hdiv : Under 971 (roundWithAccuracy Format.binary64 (s / s')
          (m <<< (e - f - g).toNat / n) g (accuracyOfFraction (m <<< (e - f - g).toNat % n) n)) := by
        rw [targetExponent_eq] at hg
        apply under_roundWithAccuracy (by decide)
        · simp only [totalExponent] at ht hf hg
          omega
        · simp only [totalExponent] at ht hf hg ⊢
          omega
      rw [← hg] at hdiv
      exact hdiv

theorem isFinite_div {x y : Float} (hx : x.isFinite = true) (hy : AtLeastTwo y.toModel.unpack) :
    (x / y).isFinite = true :=
  isFinite_pack (under_div (held_of_isFinite hx) hy)

theorem isFinite_neg {x : Float} (hx : x.isFinite = true) : (-x).isFinite = true := by
  have h := held_of_isFinite hx
  apply isFinite_pack
  generalize x.toModel.unpack = u at h
  cases h with
  | zero s => exact .zero _
  | finite hlt he => exact .finite he

theorem log2_shiftLeft_le (n k : Nat) : (n <<< k).log2 ≤ n.log2 + k := by
  have h := log2_div_le n k (n := 1) (by decide)
  rw [Nat.div_one] at h
  have hone : Nat.log2 1 = 0 := rfl
  omega

theorem under_ofNat {n : Nat} (h : n < 2 ^ 64) : Under 12 (ofNat Format.binary64 n) := by
  rcases Nat.eq_zero_or_pos n with rfl | hn
  · exact .zero _
  · have hcmp : compare (n : Int) 0 = .gt := by
      rw [Int.compare_eq_gt]
      omega
    have hlog : n.log2 < 64 := (Nat.log2_lt (by omega)).mpr h
    simp only [ofNat, ofInt, UnpackedFloat.normalize, hcmp, UnpackedFloat.round,
      decreaseExponent, Int.toNat_natCast]
    generalize (0 - Format.binary64.targetExponent (totalExponent n 0)).toNat = k
    have hk := log2_shiftLeft_le n k
    apply under_roundWithAccuracy (by decide)
    · omega
    · rw [totalExponent]
      omega

theorem isFinite_ofNat {n : Nat} (h : n < 2 ^ 64) : (Float.ofNat n).isFinite = true := by
  change (Float.ofScientific n false 0).isFinite = true
  rw [Float.ofScientific]
  split
  · have hnat : Held 12 (n.toUInt64.toFloat).toModel.unpack := by
      have hmod : n.toUInt64.toNat < 2 ^ 64 := UInt64.toNat_lt _
      exact held_pack 12 (by decide) (by decide) (under_ofNat hmod)
    have hone : Held (-52) (Float.exactlyRepresentablePowersOfTen[0]).toModel.unpack := by
      have hu : (Float.exactlyRepresentablePowersOfTen[0]).toModel.unpack =
          .finite .positive 4503599627370496 (-52) (by decide) := by rfl
      rw [hu]
      exact .finite (by decide) (by decide)
    exact isFinite_pack (under_mul (by decide) (by decide) hnat hone)
  · rename_i hbig
    have hn : n ≠ 0 := by omega
    have hlog : n.log2 < 64 := (Nat.log2_lt hn).mpr h
    have hshift := log2_shiftLeft_le n 53
    apply isFinite_pack
    change Under 971 (ofScientific Format.binary64 n 0)
    have hsmall : ¬ (0 : Int) < -((2 ^ Format.binary64.exponentBits : Int) + n.log2) := by
      change ¬ (0 : Int) < -((2 ^ 11 : Int) + n.log2)
      omega
    rw [ofScientific, dif_neg hn, if_neg (by decide), if_neg hsmall, if_pos (by decide)]
    apply under_mul_finite (by decide) (by decide)
    change (((n <<< 53) * 1).log2 : Int) + 1 + (-53 + 0) ≤ 971 + 52
    rw [Nat.mul_one]
    omega

instance (x : UnpackedFloat) : Decidable (AtLeastTwo x) :=
  match x with
  | .finite _ m e hm => decidable_of_iff (2 ≤ totalExponent m e) ⟨.finite hm, fun ⟨_, h⟩ => h⟩
  | .zero _ | .infinity _ | .notANumber => isFalse nofun

theorem atLeastTwo_tenTo : ∀ k < 309, 0 < k → AtLeastTwo (Number.tenTo k).toModel.unpack := by
  -- From `10 ^ 23` on the powers are rounded, so each of them is looked at.
  decide +kernel

theorem isFinite_tenTo {k : Nat} (h : k < 309) : (Number.tenTo k).isFinite = true := by
  rcases Nat.eq_zero_or_pos k with rfl | hk
  · decide
  · have htwo := atLeastTwo_tenTo k h hk
    change (Number.tenTo k).toModel.unpack.isFinite = true
    generalize (Number.tenTo k).toModel.unpack = u at htwo
    obtain ⟨-, -⟩ := htwo
    rfl

end Parley.Decimal
