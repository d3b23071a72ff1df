import Parley.Proofs.Decimal.Value

namespace Parley.Decimal

open Float.Model (Format UnpackedFloat)
open Float.Model.UnpackedFloat

inductive Plus : UnpackedFloat → Prop
  | notANumber : Plus .notANumber
  | infinity : Plus (.infinity .positive)
  | zero : Plus (.zero .positive)
  | finite {m : Nat} {e : Int} {hm : 0 < m} : Plus (.finite .positive m e hm)

/-- Not below zero, if a number at all. -/
inductive Unsigned : UnpackedFloat → Prop
  | notANumber : Unsigned .notANumber
  | infinity : Unsigned (.infinity .positive)
  | zero (s : Sign) : Unsigned (.zero s)
  | finite {m : Nat} {e : Int} {hm : 0 < m} : Unsigned (.finite .positive m e hm)

variable {u v : UnpackedFloat} {x y : Float} {m n : Nat} {e : Int}

theorem Plus.unsigned (h : Plus u) : Unsigned u := by
  cases h with
  | notANumber => exact .notANumber
  | infinity => exact .infinity
  | zero => exact .zero _
  | finite => exact .finite

theorem plus_roundWithAccuracy (m : Nat) (e : Int) (acc : Accuracy) :
    Plus (roundWithAccuracy Format.binary64 .positive m e acc) := by
  rw [roundWithAccuracy_eq]
  split
  · exact .zero
  · exact .finite

theorem plus_normalize (m : Nat) (e : Int) :
    Plus (UnpackedFloat.normalize Format.binary64 m e .positive) := by
  rw [UnpackedFloat.normalize]
  rcases Nat.eq_zero_or_pos m with rfl | hm
  · exact .zero
  · rw [Int.compare_eq_gt.mpr (by omega)]
    exact plus_roundWithAccuracy ..

theorem Plus.mul (hu : Plus u) (hv : Plus v) : Plus (mul Format.binary64 u v) := by
  cases hu with
  | notANumber => exact .notANumber
  | infinity =>
      cases hv with
      | notANumber | zero => exact .notANumber
      | infinity | finite => exact .infinity
  | zero =>
      cases hv with
      | notANumber | infinity => exact .notANumber
      | zero | finite => exact .zero
  | finite =>
      cases hv with
      | notANumber => exact .notANumber
      | infinity => exact .infinity
      | zero => exact .zero
      | finite => exact plus_roundWithAccuracy ..

theorem Unsigned.mul (hu : Unsigned u) (hv : Unsigned v) :
    Unsigned (mul Format.binary64 u v) := by
  cases hu with
  | notANumber => exact .notANumber
  | infinity =>
      cases hv with
      | notANumber | zero => exact .notANumber
      | infinity | finite => exact .infinity
  | zero s =>
      cases hv with
      | notANumber | infinity => exact .notANumber
      | zero | finite => exact .zero _
  | finite =>
      cases hv with
      | notANumber => exact .notANumber
      | infinity => exact .infinity
      | zero => exact .zero _
      | finite => exact (plus_roundWithAccuracy ..).unsigned

theorem Unsigned.add (hu : Unsigned u) (hv : Unsigned v) :
    Unsigned (add Format.binary64 u v) := by
  cases hu with
  | notANumber => exact .notANumber
  | infinity =>
      cases hv with
      | notANumber => exact .notANumber
      | infinity | zero | finite => exact .infinity
  | zero s =>
      cases hv with
      | notANumber => exact .notANumber
      | infinity => exact .infinity
      | zero s' => cases s <;> cases s' <;> exact .zero _
      | finite => exact .finite
  | finite =>
      cases hv with
      | notANumber => exact .notANumber
      | infinity => exact .infinity
      | zero => exact .finite
      | finite => exact (plus_normalize ..).unsigned

theorem Unsigned.div (hu : Unsigned u) (hv : Plus v) : Unsigned (div Format.binary64 u v) := by
  cases hu with
  | notANumber => exact .notANumber
  | infinity =>
      cases hv with
      | notANumber | infinity => exact .notANumber
      | zero | finite => exact .infinity
  | zero s =>
      cases hv with
      | notANumber | zero => exact .notANumber
      | infinity | finite => exact .zero _
  | finite =>
      cases hv with
      | notANumber => exact .notANumber
      | infinity => exact .zero _
      | zero => exact .infinity
      | finite => exact (plus_roundWithAccuracy ..).unsigned

theorem plus_packComponents (field : BitVec Format.binary64.exponentBits)
    (fraction : BitVec Format.binary64.mantissaBitsWithoutImplicit) :
    Plus (unpack Format.binary64 (packComponents Format.binary64 .positive field fraction)) := by
  rw [unpack]
  simp only [unpackExponent_packComponents, unpackMantissa_packComponents,
    unpackSign_packComponents, Sign.ofBitVec_toBitVec]
  split
  · split
    · exact .infinity
    · exact .notANumber
  · split
    · split
      · exact .zero
      · exact .finite
    · exact .finite

theorem Plus.pack (h : Plus u) : Plus (Float.Model.pack u).unpack := by
  change Plus (unpack Format.binary64 (Float.Model.UnpackedFloat.pack Format.binary64 u))
  cases h with
  | notANumber | infinity | zero => exact plus_packComponents ..
  | finite =>
      rw [Float.Model.UnpackedFloat.pack]
      split
      · exact plus_packComponents ..
      · split
        · exact plus_packComponents ..
        · exact plus_packComponents ..

theorem Unsigned.pack (h : Unsigned u) : Unsigned (Float.Model.pack u).unpack := by
  cases h with
  | notANumber => exact Plus.notANumber.pack.unsigned
  | infinity => exact Plus.infinity.pack.unsigned
  | zero s =>
      rw [unpack_zero]
      exact .zero s
  | finite => exact Plus.finite.pack.unsigned

theorem isFinite_normalize (m e : Int) (s : Sign) :
    (UnpackedFloat.normalize Format.binary64 m e s).isFinite = true := by
  rw [UnpackedFloat.normalize]
  split
  · exact isFinite_roundWithAccuracy ..
  · rfl
  · exact isFinite_roundWithAccuracy ..

theorem isNaN_pack (h : u.isNaN = false) : (Float.Model.pack u).unpack.isNaN = false := by
  cases u with
  | notANumber => cases h
  | infinity s => cases s <;> rfl
  | zero s => cases s <;> rfl
  | finite s m e hm =>
      by_cases hu : Under 971 (.finite s m e hm)
      · exact isNaN_of_isFinite (isFinite_pack hu)
      · have hinf : (Float.Model.pack (.finite s m e hm)).unpack.isInf = true :=
          isInf_pack rfl hu
        generalize (Float.Model.pack (.finite s m e hm)).unpack = w at hinf ⊢
        cases w with
        | infinity => rfl
        | notANumber | zero | finite => cases hinf

theorem not_lt_zero_iff : ¬ x < 0.0 ↔ Unsigned x.toModel.unpack := by
  rw [lt_iff_compare]
  change ¬ x.toModel.unpack.compare (.zero .positive) = _ ↔ _
  generalize x.toModel.unpack = u
  constructor
  · intro h
    cases u with
    | notANumber => exact .notANumber
    | zero s => exact .zero s
    | infinity s =>
        cases s with
        | negative => exact absurd rfl h
        | positive => exact .infinity
    | finite s =>
        cases s with
        | negative => exact absurd rfl h
        | positive => exact .finite
  · intro h
    cases h <;> nofun

theorem zero_le_iff : 0.0 ≤ x ↔ ¬ x < 0.0 ∧ x.isNaN = false := by
  constructor
  · intro h
    have hx := (isNaN_of_le h).2
    exact ⟨(not_lt_iff_le hx (by decide)).mpr h, hx⟩
  · rintro ⟨h, hx⟩
    exact (not_lt_iff_le hx (by decide)).mp h

theorem zero_lt_iff : 0.0 < x ↔ x.toModel.unpack = .infinity .positive ∨
    ∃ m e hm, x.toModel.unpack = .finite .positive m e hm := by
  rw [lt_iff_compare]
  change UnpackedFloat.compare (.zero .positive) x.toModel.unpack = _ ↔ _
  generalize x.toModel.unpack = u
  constructor
  · intro h
    cases u with
    | notANumber | zero => cases h
    | infinity s =>
        cases s with
        | negative => cases h
        | positive => exact .inl rfl
    | finite s m e hm =>
        cases s with
        | negative => cases h
        | positive => exact .inr ⟨m, e, hm, rfl⟩
  · rintro (rfl | ⟨m, e, hm, rfl⟩) <;> rfl

theorem not_neg_mul (hx : ¬ x < 0.0) (hy : ¬ y < 0.0) : ¬ x * y < 0.0 :=
  not_lt_zero_iff.mpr ((not_lt_zero_iff.mp hx).mul (not_lt_zero_iff.mp hy)).pack

theorem not_neg_add (hx : ¬ x < 0.0) (hy : ¬ y < 0.0) : ¬ x + y < 0.0 :=
  not_lt_zero_iff.mpr ((not_lt_zero_iff.mp hx).add (not_lt_zero_iff.mp hy)).pack

theorem not_neg_div (hx : ¬ x < 0.0) (hy : Plus y.toModel.unpack) : ¬ x / y < 0.0 :=
  not_lt_zero_iff.mpr ((not_lt_zero_iff.mp hx).div hy).pack

theorem plus_of_pos (h : 0.0 < x) : Plus x.toModel.unpack := by
  rcases zero_lt_iff.mp h with hx | ⟨m, e, hm, hx⟩
  · exact hx ▸ .infinity
  · exact hx ▸ .finite

theorem plus_ofNat (n : Nat) : Plus (Float.ofNat n).toModel.unpack := by
  change Plus (Float.ofScientific n false 0).toModel.unpack
  rw [Float.ofScientific]
  split
  · have hnat : Plus n.toUInt64.toFloat.toModel.unpack := (plus_normalize n.toUInt64.toNat 0).pack
    have hone : Plus (Float.exactlyRepresentablePowersOfTen[0]).toModel.unpack := Plus.finite.pack
    exact (hnat.mul hone).pack
  · apply Plus.pack
    change Plus (ofScientific Format.binary64 n 0)
    rw [ofScientific]
    split
    · exact .zero
    · rw [if_neg (by decide)]
      split
      · exact .zero
      · rw [if_pos (by decide)]
        exact Plus.finite.mul .finite

theorem not_neg_ofNat (n : Nat) : ¬ Float.ofNat n < 0.0 :=
  not_lt_zero_iff.mpr (plus_ofNat n).unsigned

theorem zero_le_add (hx : 0.0 ≤ x) (hy : 0.0 ≤ y) : 0.0 ≤ x + y := by
  obtain ⟨hx, hxn⟩ := zero_le_iff.mp hx
  obtain ⟨hy, hyn⟩ := zero_le_iff.mp hy
  refine zero_le_iff.mpr ⟨not_neg_add hx hy, isNaN_pack ?_⟩
  change x.toModel.unpack.isNaN = false at hxn
  change y.toModel.unpack.isNaN = false at hyn
  have hu := not_lt_zero_iff.mp hx
  have hv := not_lt_zero_iff.mp hy
  generalize x.toModel.unpack = u at hu hxn ⊢
  generalize y.toModel.unpack = v at hv hyn ⊢
  cases hu with
  | notANumber => cases hxn
  | infinity =>
      cases hv with
      | notANumber => cases hyn
      | infinity | zero | finite => rfl
  | zero s =>
      cases hv with
      | notANumber => cases hyn
      | zero s' => cases s <;> cases s' <;> rfl
      | infinity | finite => rfl
  | finite =>
      cases hv with
      | notANumber => cases hyn
      | infinity | zero => rfl
      | finite => exact isNaN_of_unpacked (isFinite_normalize ..)

theorem isValue_zero_of_not_pos (hx : 0.0 ≤ x) (h : ¬ 0.0 < x) : IsValue x 0 := by
  have hle : x ≤ 0.0 := (not_lt_iff_le (by decide) (zero_le_iff.mp hx).2).mp h
  have hvalue := isValue_of_isFinite
    (isFinite_of_between isValue_zero.finite isValue_zero.finite hx hle)
  have hzero : value x = 0 := le_antisymm ((hvalue.le_iff isValue_zero).mp hle)
    ((isValue_zero.le_iff hvalue).mp hx)
  rwa [hzero] at hvalue

/-- A sum is not rounded to zero. -/
theorem zero_lt_add_iff (hx : 0.0 ≤ x) (hy : 0.0 ≤ y) : 0.0 < x + y ↔ 0.0 < x ∨ 0.0 < y := by
  constructor
  · intro h
    by_contra hnone
    rw [not_or] at hnone
    have hsum := (isValue_zero_of_not_pos hx hnone.1).add (isValue_zero_of_not_pos hy hnone.2)
      (by rw [add_zero, nearest_zero, abs_zero]; positivity)
    rw [add_zero, nearest_zero] at hsum
    exact lt_irrefl _ ((isValue_zero.lt_iff hsum).mp h)
  · intro h
    by_contra hnot
    have hsum := isValue_zero_of_not_pos (zero_le_add hx hy) hnot
    obtain ⟨hxf, hyf⟩ := isFinite_of_add hsum.finite
    have hp := isValue_of_isFinite hxf
    have hq := isValue_of_isFinite hyf
    have hzero := (value_add hsum.finite).symm.trans hsum.value
    have hx' := (isValue_zero.le_iff hp).mp hx
    have hy' := (isValue_zero.le_iff hq).mp hy
    -- A part is a double, so rounding the sum does not bring it below the part.
    have hleft := nearest_mono (show value x ≤ value x + value y by linarith)
    have hright := nearest_mono (show value y ≤ value x + value y by linarith)
    rw [nearest_of_representable hp.representable] at hleft
    rw [nearest_of_representable hq.representable] at hright
    rw [isValue_zero.lt_iff hp, isValue_zero.lt_iff hq] at h
    rcases h with h | h <;> linarith

theorem zero_le_mul (hx : 0.0 ≤ x) (hy : 0.0 ≤ y) (hxf : x.isFinite = true)
    (hyf : y.isFinite = true) : 0.0 ≤ x * y := by
  refine zero_le_iff.mpr ⟨not_neg_mul (zero_le_iff.mp hx).1 (zero_le_iff.mp hy).1, isNaN_pack ?_⟩
  exact isNaN_of_unpacked (mul_isFinite (held_of_isFinite hxf) (held_of_isFinite hyf))

theorem isNaN_of_isNaN_pack (h : (Float.Model.pack u).unpack.isNaN = true) : u.isNaN = true := by
  rw [← Bool.not_eq_false] at h ⊢
  exact mt isNaN_pack h

theorem isNaN_div_iff (hx : 0.0 ≤ x) (hy : 0.0 < y) :
    (x / y).isNaN = true ↔ x.isFinite = false ∧ y.isFinite = false := by
  obtain ⟨hx, hxn⟩ := zero_le_iff.mp hx
  have hy := zero_lt_iff.mp hy
  have hu := not_lt_zero_iff.mp hx
  change x.toModel.unpack.isNaN = false at hxn
  change (Float.Model.pack (div Format.binary64 x.toModel.unpack y.toModel.unpack)).unpack.isNaN =
      true ↔ x.toModel.unpack.isFinite = false ∧ y.toModel.unpack.isFinite = false
  generalize x.toModel.unpack = u at hu hxn ⊢
  generalize y.toModel.unpack = v at hy ⊢
  constructor
  · intro h
    have hdiv := isNaN_of_isNaN_pack h
    rcases hy with rfl | ⟨m, e, hm, rfl⟩
    · cases hu with
      | notANumber => cases hxn
      | infinity => exact ⟨rfl, rfl⟩
      | zero | finite => cases hdiv
    · cases hu with
      | notANumber => cases hxn
      | infinity | zero => cases hdiv
      | finite =>
          have hnumber := hdiv.symm.trans (isNaN_of_unpacked (isFinite_roundWithAccuracy ..))
          exact absurd hnumber (by decide)
  · rintro ⟨hu', hv'⟩
    rcases hy with rfl | ⟨m, e, hm, rfl⟩
    · cases hu with
      | notANumber => cases hxn
      | infinity => rfl
      | zero | finite => cases hu'
    · cases hv'

theorem zero_le_div (hx : 0.0 ≤ x) (hy : 0.0 < y) (hyf : y.isFinite = true) : 0.0 ≤ x / y := by
  refine zero_le_iff.mpr ⟨not_neg_div (zero_le_iff.mp hx).1 (plus_of_pos hy), ?_⟩
  rw [← Bool.not_eq_true, isNaN_div_iff hx hy, hyf]
  nofun

end Parley.Decimal
