import Mathlib
import Parley.Message.Basic
import Parley.Proofs.Decimal.Order
import Parley.Proofs.Decimal.Rounding

namespace Parley.Decimal

open Float.Model (Format totalExponent UnpackedFloat)
open Float.Model.UnpackedFloat

/-- The number that a double is, where it is finite. -/
def value (x : Float) : ℚ := valueOf x.toModel.unpack

structure IsValue (x : Float) (q : ℚ) : Prop where
  finite : x.isFinite = true
  value : value x = q

variable {m m' n : Nat} {e e' : Int} {u v : UnpackedFloat} {x y : Float} {p q : ℚ}

theorem toNat_one_append (f : BitVec 52) : (1#1 ++ f).toNat = mantissaUnit + f.toNat := by
  rw [BitVec.toNat_append, ← Nat.shiftLeft_add_eq_or_of_lt f.isLt]
  rfl

theorem unpack_zero (s : Sign) : (Float.Model.pack (.zero s)).unpack = .zero s := by
  change unpack Format.binary64 (packComponents Format.binary64 s 0 0) = _
  rw [unpack]
  simp only [unpackExponent_packComponents, unpackMantissa_packComponents,
    unpackSign_packComponents, Sign.ofBitVec_toBitVec]
  rfl

theorem unpack_normal (s : Sign) (hm : 0 < m) (hlt : m < 2 ^ 53) (hn : 2 ^ 52 ≤ m)
    (hlow : -1074 ≤ e) (hhigh : e ≤ 971) :
    (Float.Model.pack (.finite s m e hm)).unpack = .finite s m e hm := by
  have hlog : m.log2 = 52 := (Nat.log2_eq_iff hm.ne').mpr ⟨hn, hlt⟩
  have hpack : pack Format.binary64 (.finite s m e hm) =
      packComponents Format.binary64 s (BitVec.ofNat 11 (e + 1075).toNat) (BitVec.ofNat 52 m) := by
    rw [pack]
    have hbiased : (e + (Format.binary64.exponentBias : Int) + (52 : Nat)).toNat =
        (e + 1075).toNat := by
      change (e + 1023 + (52 : Nat)).toNat = _
      omega
    simp only [hbiased]
    rw [if_neg (by omega), if_pos (by rw [hlog]; rfl)]
  have hfield : (BitVec.ofNat 11 (e + 1075).toNat).toNat = (e + 1075).toNat := by
    rw [BitVec.toNat_ofNat]
    omega
  have hfull : BitVec.ofNat 11 (e + 1075).toNat ≠ -1#11 := by
    intro h
    rw [h] at hfield
    change 2047 = _ at hfield
    omega
  have hzero : BitVec.ofNat 11 (e + 1075).toNat ≠ 0#11 := by
    intro h
    rw [h] at hfield
    change 0 = _ at hfield
    omega
  change unpack Format.binary64 (pack Format.binary64 (.finite s m e hm)) = _
  rw [hpack, unpack]
  simp only [unpackExponent_packComponents, unpackMantissa_packComponents,
    unpackSign_packComponents, Sign.ofBitVec_toBitVec]
  rw [if_neg hfull, if_neg hzero]
  congr 1
  · change (1#1 ++ BitVec.ofNat 52 m).toNat = m
    rw [toNat_one_append, BitVec.toNat_ofNat, mantissaUnit]
    omega
  · rw [hfield]
    change _ - (1023 + (52 : Nat) : Int) = e
    omega

theorem unpack_subnormal (s : Sign) (hm : 0 < m) (h : m < 2 ^ 52) :
    (Float.Model.pack (.finite s m leastExponent hm)).unpack = .finite s m leastExponent hm := by
  have hlog : m.log2 < 52 := (Nat.log2_lt hm.ne').mpr h
  have hpack : pack Format.binary64 (.finite s m leastExponent hm) =
      packComponents Format.binary64 s 0#11 (BitVec.ofNat 52 m) := by
    rw [pack]
    simp only
    rw [if_neg (by decide), if_neg]
    change m.log2 + 1 ≠ 53
    omega
  have hfraction : (BitVec.ofNat 52 m).toNat = m := by
    rw [BitVec.toNat_ofNat, Nat.mod_eq_of_lt h]
  have hne : BitVec.ofNat 52 m ≠ 0#52 := by
    intro h
    rw [h] at hfraction
    exact hm.ne hfraction
  change unpack Format.binary64 (pack Format.binary64 (.finite s m leastExponent hm)) = _
  rw [hpack, unpack]
  simp only [unpackExponent_packComponents, unpackMantissa_packComponents,
    unpackSign_packComponents, Sign.ofBitVec_toBitVec]
  rw [if_neg (by decide), if_pos trivial, dif_neg hne]
  congr 1

theorem canonical_unpack {x : Float} (h : x.isFinite = true) : Canonical x.toModel.unpack := by
  have hne := not_full_of_isFinite h
  change Canonical (unpack Format.binary64 x.toBits.toBitVec)
  generalize x.toBits.toBitVec = bits at hne
  rw [unpack]
  simp only
  rw [if_neg hne]
  split
  · rename_i hzero
    split
    · exact .zero _
    · refine .finite ⟨?_, ?_, .inr ?_⟩
      · exact (BitVec.isLt _).trans (by decide)
      · rw [hzero]
        decide
      · rw [hzero]
        rfl
  · rename_i hzero
    refine .finite ⟨?_, ?_, .inl ?_⟩
    · change (1#1 ++ @unpackMantissa Format.binary64 bits).toNat < _
      rw [toNat_one_append, two_mul]
      exact Nat.add_lt_add_left (BitVec.isLt _) _
    · have hpos := Nat.pos_of_ne_zero fun h => hzero (BitVec.eq_of_toNat_eq h)
      change _ ≤ _ - (1023 + (52 : Nat) : Int)
      rw [leastExponent]
      omega
    · change _ ≤ (1#1 ++ @unpackMantissa Format.binary64 bits).toNat
      rw [toNat_one_append]
      exact Nat.le_add_right _ _

theorem under_of_gives {q : ℚ} (h : Gives u q) (hq : |q| < 2 ^ 1024) : Under 971 u := by
  obtain ⟨hu, rfl⟩ := h
  cases hu with
  | zero s => exact .zero s
  | @finite s m e hm h =>
      refine .finite ?_
      have habs : |valueOf (.finite s m e hm)| = m * 2 ^ e := by
        rw [valueOf_finite]
        cases s
        · rw [withSign, abs_neg, abs_of_pos (mul_zpow_pos hm e)]
        · exact abs_of_pos (mul_zpow_pos hm e)
      rw [habs] at hq
      by_contra hbig
      have hn : 2 ^ 52 ≤ m := by
        refine h.normal.resolve_right ?_
        rw [leastExponent]
        omega
      refine absurd hq (not_lt.mpr ?_)
      calc (2 : ℚ) ^ 1024 = 2 ^ (52 + 972 : Int) := by norm_num
        _ ≤ 2 ^ (52 + e) := zpow_le_zpow_right₀ (by norm_num) (by omega)
        _ = 2 ^ 52 * 2 ^ e := by rw [zpow_two_add]; rfl
        _ ≤ m * 2 ^ e := mul_le_mul_of_nonneg_right (by exact_mod_cast hn) (zpow_two_pos e).le

theorem unpack_pack (h : Canonical u) (hu : Under 971 u) : (Float.Model.pack u).unpack = u := by
  cases h with
  | zero s => exact unpack_zero s
  | @finite s m e hm h =>
      cases hu with
      | finite he =>
          by_cases hn : 2 ^ 52 ≤ m
          · exact unpack_normal s hm h.lt hn h.least he
          · obtain rfl := h.normal.resolve_left hn
            exact unpack_subnormal s hm (not_le.mp hn)

theorem isValue_pack (h : Gives u q) (hq : |q| < 2 ^ 1024) : IsValue (.ofModel (.pack u)) q := by
  have hu := under_of_gives h hq
  refine ⟨isFinite_pack hu, ?_⟩
  change valueOf (Float.Model.pack u).unpack = q
  rw [unpack_pack h.canonical hu, h.value]

theorem isValue_of_isFinite (h : x.isFinite = true) : IsValue x (value x) := ⟨h, rfl⟩

namespace IsValue

theorem canonical (h : IsValue x p) : Canonical x.toModel.unpack := canonical_unpack h.finite

theorem representable (h : IsValue x p) : Representable p := h.value ▸ h.canonical.representable

theorem add (hx : IsValue x p) (hy : IsValue y q) (h : |nearest (p + q)| < 2 ^ 1024) :
    IsValue (x + y) (nearest (p + q)) := by
  have hsum := gives_add hx.canonical hy.canonical
  exact isValue_pack (hx.value ▸ hy.value ▸ hsum) h

theorem sub (hx : IsValue x p) (hy : IsValue y q) (h : |nearest (p - q)| < 2 ^ 1024) :
    IsValue (x - y) (nearest (p - q)) := by
  have hsub := gives_sub hx.canonical hy.canonical
  exact isValue_pack (hx.value ▸ hy.value ▸ hsub) h

theorem mul (hx : IsValue x p) (hy : IsValue y q) (h : |nearest (p * q)| < 2 ^ 1024) :
    IsValue (x * y) (nearest (p * q)) := by
  have hmul := gives_mul hx.canonical hy.canonical
  exact isValue_pack (hx.value ▸ hy.value ▸ hmul) h

theorem div (hx : IsValue x p) (hy : IsValue y q) (hne : q ≠ 0) (h : |nearest (p / q)| < 2 ^ 1024) :
    IsValue (x / y) (nearest (p / q)) := by
  have hdiv := gives_div hx.canonical hy.canonical (ne_of_eq_of_ne hy.value hne)
  exact isValue_pack (hx.value ▸ hy.value ▸ hdiv) h

end IsValue

theorem representable_natCast (h : n ≤ 2 ^ 53) : Representable n :=
  ⟨n, 0, by rw [Nat.abs_cast]; exact_mod_cast h, by decide, by simp⟩

theorem isValue_zero : IsValue 0.0 0 := ⟨by decide, rfl⟩

theorem isValue_one : IsValue 1.0 1 := by
  refine ⟨by decide, ?_⟩
  have h : (1.0 : Float).toModel.unpack = .finite .positive (2 ^ 52) (-52) (by decide) := by rfl
  rw [value, h, valueOf_finite, withSign]
  norm_num

theorem nearest_natCast (h : n ≤ 2 ^ 53) : nearest n = n :=
  nearest_of_representable (representable_natCast h)

theorem nearest_one : nearest 1 = 1 := by
  have h := nearest_natCast (n := 1) (by decide)
  rwa [Nat.cast_one] at h

theorem one_le_nearest (h : 1 ≤ p) : 1 ≤ nearest p := nearest_one.symm.trans_le (nearest_mono h)

theorem nearest_le_one (h : p ≤ 1) : nearest p ≤ 1 := (nearest_mono h).trans_eq nearest_one

theorem abs_nearest_lt {k : Int} {r : ℚ} (hlow : leastExponent ≤ k) (hhigh : k < 1024)
    (h : |r| ≤ 2 ^ k) : |nearest r| < 2 ^ 1024 :=
  calc |nearest r| ≤ 2 ^ k := abs_nearest_le (representable_zpow hlow) h
    _ < 2 ^ (1024 : Int) := zpow_lt_zpow_right₀ (by norm_num) hhigh
    _ = 2 ^ 1024 := rfl

theorem abs_nearest_natCast_lt (h : n < 2 ^ 64) : |nearest n| < 2 ^ 1024 := by
  apply abs_nearest_lt (k := 64) (by decide) (by decide)
  rw [Nat.abs_cast]
  exact_mod_cast h.le

theorem isValue_ofNat (h : n < 2 ^ 64) : IsValue (Float.ofNat n) (nearest n) := by
  have hlt := abs_nearest_natCast_lt h
  change IsValue (Float.ofScientific n false 0) _
  rw [Float.ofScientific]
  split
  · rename_i hsmall
    have hmod : n.toUInt64.toNat = n := Nat.mod_eq_of_lt h
    have hnat : IsValue n.toUInt64.toFloat (nearest n) := by
      have hgives := gives_normalize n.toUInt64.toNat 0 .positive
      have hcast : (((n.toUInt64.toNat : Nat) : Int) : ℚ) * 2 ^ (0 : Int) = n := by
        rw [zpow_zero, mul_one, Int.cast_natCast, hmod]
      rw [hcast] at hgives
      exact isValue_pack hgives hlt
    have hone : IsValue (Float.exactlyRepresentablePowersOfTen[0]) 1 := isValue_one
    have hexact : nearest (nearest n * 1) = nearest n := by
      rw [mul_one, nearest_of_representable hnat.representable]
    have hmul := hnat.mul hone (by rwa [hexact])
    rwa [hexact] at hmul
  · rename_i hbig
    change IsValue (Float.ofModel (.pack (ofScientific Format.binary64 n 0))) _
    have hn : 0 < n := by omega
    have hlow : ¬ (0 : Int) < -((2 ^ Format.binary64.exponentBits : Int) + n.log2) := by
      change ¬ (0 : Int) < -((2 ^ 11 : Int) + n.log2)
      omega
    rw [ofScientific, dif_neg hn.ne', if_neg (by decide), if_neg hlow, if_pos (by decide)]
    have hshift := shiftLeft_value n 53 0
    have htotal := totalExponent_shiftLeft hn 0 53
    have hm : 0 < n <<< 53 := by
      rw [Nat.shiftLeft_eq]
      exact Nat.mul_pos hn (Nat.two_pow_pos 53)
    have hfit : (-53 : Int) + 0 ≤
        Format.binary64.targetExponent (totalExponent (n <<< 53 * 10 ^ 0) (-53 + 0)) := by
      change totalExponent (n <<< 53) (-53 + 0) = _ at htotal
      rw [pow_zero, Nat.mul_one, htotal, targetExponent_eq, totalExponent]
      omega
    have hgives := gives_mul_finite .positive .positive (-53) 0 hm (Nat.pow_pos (by decide)) hfit
    have hvalue : withSign .positive ((n <<< 53 : Nat) * 2 ^ (-53 : Int)) *
        withSign .positive ((10 ^ 0 : Nat) * 2 ^ (0 : Int)) = n := by
      rw [zpow_zero, mul_one] at hshift
      rw [withSign, withSign, pow_zero, Nat.cast_one, zpow_zero, mul_one, mul_one, ← hshift]
      rfl
    rw [hvalue] at hgives
    exact isValue_pack hgives hlt

theorem Regular.lt_of_exponent_lt (h : Regular m e) (h' : Regular m' e') (he : e < e') :
    (m : ℚ) * 2 ^ e < m' * 2 ^ e' := by
  have hlt : (m : ℚ) < 2 ^ 53 := by exact_mod_cast h.lt
  have hn : (2 : ℚ) ^ 52 ≤ m' := by
    have hleast := h.least
    exact_mod_cast h'.normal.resolve_right (by omega)
  calc (m : ℚ) * 2 ^ e < 2 ^ 53 * 2 ^ e := mul_lt_mul_of_pos_right hlt (zpow_two_pos e)
    _ = 2 ^ 52 * 2 ^ (e + 1) := by
      rw [zpow_two_add]
      norm_num
      ring
    _ ≤ 2 ^ 52 * 2 ^ e' := by
      apply mul_le_mul_of_nonneg_left _ (by norm_num)
      exact zpow_le_zpow_right₀ (by norm_num) he
    _ ≤ m' * 2 ^ e' := mul_le_mul_of_nonneg_right hn (zpow_two_pos e').le

theorem Regular.compare_eq (h : Regular m e) (h' : Regular m' e') :
    (compare e e').then (compare m m') = compare ((m : ℚ) * 2 ^ e) (m' * 2 ^ e') := by
  rcases lt_trichotomy e e' with he | rfl | he
  · rw [compare_lt_iff_lt.mpr he, compare_lt_iff_lt.mpr (h.lt_of_exponent_lt h' he)]
    rfl
  · have hpos := zpow_two_pos e
    rw [compare_eq_iff_eq.mpr rfl, Ordering.then]
    rcases lt_trichotomy m m' with hm | rfl | hm
    · rw [compare_lt_iff_lt.mpr hm, eq_comm, compare_lt_iff_lt]
      exact mul_lt_mul_of_pos_right (by exact_mod_cast hm) hpos
    · rw [compare_eq_iff_eq.mpr rfl, compare_eq_iff_eq.mpr rfl]
    · rw [compare_gt_iff_gt.mpr hm, eq_comm, compare_gt_iff_gt]
      exact mul_lt_mul_of_pos_right (by exact_mod_cast hm) hpos
  · rw [compare_gt_iff_gt.mpr he, compare_gt_iff_gt.mpr (h'.lt_of_exponent_lt h he)]
    rfl

theorem compare_neg (a b : ℚ) : compare (-a) (-b) = (compare a b).swap := by
  rcases lt_trichotomy a b with h | rfl | h
  · rw [compare_lt_iff_lt.mpr h, compare_gt_iff_gt.mpr (neg_lt_neg h)]
    rfl
  · rw [compare_eq_iff_eq.mpr rfl, compare_eq_iff_eq.mpr rfl]
    rfl
  · rw [compare_gt_iff_gt.mpr h, compare_lt_iff_lt.mpr (neg_lt_neg h)]
    rfl

theorem compare_valueOf (hu : Canonical u) (hv : Canonical v) :
    u.compare v = some (compare (valueOf u) (valueOf v)) := by
  cases hu with
  | zero s =>
      cases hv with
      | zero s' => exact congrArg some (compare_eq_iff_eq.mpr rfl).symm
      | @finite s' m' e' hm' h' =>
          have hpos := mul_zpow_pos hm' e'
          cases s' with
          | negative => exact congrArg some (compare_gt_iff_gt.mpr (neg_lt_zero.mpr hpos)).symm
          | positive => exact congrArg some (compare_lt_iff_lt.mpr hpos).symm
  | @finite s m e hm h =>
      have hpos := mul_zpow_pos hm e
      cases hv with
      | zero s' =>
          cases s with
          | negative => exact congrArg some (compare_lt_iff_lt.mpr (neg_lt_zero.mpr hpos)).symm
          | positive => exact congrArg some (compare_gt_iff_gt.mpr hpos).symm
      | @finite s' m' e' hm' h' =>
          have hpos' := mul_zpow_pos hm' e'
          cases s <;> cases s'
          · exact congrArg some
              ((congrArg Ordering.swap (h.compare_eq h')).trans (compare_neg _ _).symm)
          · exact congrArg some
              (compare_lt_iff_lt.mpr ((neg_lt_zero.mpr hpos).trans hpos')).symm
          · exact congrArg some
              (compare_gt_iff_gt.mpr ((neg_lt_zero.mpr hpos').trans hpos)).symm
          · exact congrArg some (h.compare_eq h')

theorem IsValue.le_iff (hx : IsValue x p) (hy : IsValue y q) : x ≤ y ↔ p ≤ q := by
  rw [le_iff_compare, compare_valueOf hx.canonical hy.canonical, ← hx.value, ← hy.value,
    Option.any_some, Ordering.isLE_iff_ne_gt]
  exact compare_le_iff_le

theorem IsValue.lt_iff (hx : IsValue x p) (hy : IsValue y q) : x < y ↔ p < q := by
  have hle := hy.le_iff hx
  rw [← not_lt_iff_le (isNaN_of_isFinite hx.finite) (isNaN_of_isFinite hy.finite)] at hle
  rw [← not_le, ← hle, not_not]

theorem isValue_inUnit (h : IsValue x p) : inUnit x = true ↔ 0 ≤ p ∧ p ≤ 1 := by
  rw [inUnit, Bool.and_eq_true, decide_eq_true_iff, decide_eq_true_iff, isValue_zero.le_iff h,
    h.le_iff isValue_one]

theorem not_isFinite_pack (h : u.isFinite = false) :
    (Float.ofModel (.pack u)).isFinite = false := by
  cases u with
  | notANumber => rfl
  | infinity s => cases s <;> rfl
  | zero s | finite s => cases h

theorem not_isFinite_add (y : Float) (h : x.isFinite = false) : (x + y).isFinite = false := by
  apply not_isFinite_pack
  change x.toModel.unpack.isFinite = false at h
  generalize x.toModel.unpack = u at h
  cases u with
  | notANumber => cases y.toModel.unpack <;> rfl
  | infinity s =>
      cases y.toModel.unpack with
      | infinity s' => cases s <;> cases s' <;> rfl
      | _ => rfl
  | zero s | finite s => cases h

theorem not_isFinite_add_right (x : Float) (h : y.isFinite = false) :
    (x + y).isFinite = false := by
  apply not_isFinite_pack
  change y.toModel.unpack.isFinite = false at h
  generalize y.toModel.unpack = v at h
  cases v with
  | notANumber => cases x.toModel.unpack <;> rfl
  | infinity s =>
      cases x.toModel.unpack with
      | infinity s' => cases s <;> cases s' <;> rfl
      | _ => rfl
  | zero s | finite s => cases h

theorem Canonical.isFinite (h : Canonical u) : u.isFinite = true := by
  cases h <;> rfl

theorem isFinite_of_add (h : (x + y).isFinite = true) : x.isFinite = true ∧ y.isFinite = true := by
  constructor
  · by_contra hx
    rw [not_isFinite_add y (Bool.not_eq_true _ ▸ hx)] at h
    cases h
  · by_contra hy
    rw [not_isFinite_add_right x (Bool.not_eq_true _ ▸ hy)] at h
    cases h

theorem value_add (h : (x + y).isFinite = true) : value (x + y) = nearest (value x + value y) := by
  obtain ⟨hx, hy⟩ := isFinite_of_add h
  have hsum := gives_add (canonical_unpack hx) (canonical_unpack hy)
  change valueOf (Float.Model.pack (add _ _ _)).unpack = _
  by_cases hu : Under 971 (add Format.binary64 x.toModel.unpack y.toModel.unpack)
  · rw [unpack_pack hsum.canonical hu, hsum.value]
    rfl
  · exfalso
    have hinf : (x + y).toModel.unpack.isInf = true := isInf_pack hsum.canonical.isFinite hu
    change (x + y).toModel.unpack.isFinite = true at h
    generalize (x + y).toModel.unpack = u at h hinf
    cases u with
    | infinity | notANumber => cases h
    | zero | finite => cases hinf

theorem not_isFinite_mul (y : Float) (h : x.isFinite = false) : (x * y).isFinite = false := by
  apply not_isFinite_pack
  change x.toModel.unpack.isFinite = false at h
  generalize x.toModel.unpack = u at h
  cases u with
  | notANumber | infinity s => cases y.toModel.unpack <;> rfl
  | zero s | finite s => cases h

theorem not_isFinite_div (y : Float) (h : x.isFinite = false) : (x / y).isFinite = false := by
  apply not_isFinite_pack
  change x.toModel.unpack.isFinite = false at h
  generalize x.toModel.unpack = u at h
  cases u with
  | notANumber | infinity s => cases y.toModel.unpack <;> rfl
  | zero s | finite s => cases h

end Parley.Decimal
