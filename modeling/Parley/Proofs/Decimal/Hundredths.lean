import Parley.Proofs.Decimal.Unsigned

namespace Parley.Decimal

open Float.Model (Format UnpackedFloat)
open Float.Model.UnpackedFloat

variable {x y : Float} {p q : ℚ} {negative : Bool} {m : Nat} {e : Int}

def signOf (negative : Bool) : Sign := if negative then .negative else .positive

theorem unpackMantissa_toNat (x : Float) :
    (@unpackMantissa Format.binary64 x.toBits.toBitVec).toNat = x.toBits.toNat % mantissaUnit := by
  rw [unpackMantissa, BitVec.toNat_cast, BitVec.extractLsb_toNat]
  rfl

theorem ofBitVec_unpackSign (x : Float) :
    Sign.ofBitVec (@unpackSign Format.binary64 x.toBits.toBitVec) =
      signOf (0x8000000000000000 ≤ x.toBits.toNat) := by
  have hlt : x.toBits.toNat < 2 ^ 64 := x.toBits.toNat_lt
  have hbit : (@unpackSign Format.binary64 x.toBits.toBitVec).toNat =
      x.toBits.toNat / 2 ^ 63 % 2 := by
    rw [unpackSign, BitVec.toNat_cast, BitVec.extractLsb_toNat, Nat.shiftRight_eq_div_pow]
    rfl
  rw [Sign.ofBitVec, signOf]
  by_cases h : 0x8000000000000000 ≤ x.toBits.toNat
  · rw [if_neg, if_pos (decide_eq_true h)]
    intro hzero
    rw [hzero, BitVec.toNat_ofNat] at hbit
    omega
  · rw [if_pos, if_neg (by simpa using h)]
    apply BitVec.eq_of_toNat_eq
    rw [hbit, BitVec.toNat_ofNat]
    omega

theorem isValue_of_ofFloat (h : Shape.ofFloat x = .finite negative m e) :
    IsValue x (withSign (signOf negative) (m * 2 ^ e)) := by
  have hexponent := unpackExponent_toNat x
  have hmantissa := unpackMantissa_toNat x
  suffices hunpack : (unpack Format.binary64 x.toBits.toBitVec).isFinite = true ∧
      valueOf (unpack Format.binary64 x.toBits.toBitVec) =
        withSign (signOf negative) (m * 2 ^ e) from ⟨hunpack.1, hunpack.2⟩
  rw [Shape.ofFloat] at h
  rw [unpack]
  simp only [ofBitVec_unpackSign]
  generalize x.toBits.toNat = bits at h hexponent hmantissa ⊢
  by_cases hfull : bits / mantissaUnit % 2048 = 2047
  · simp only [if_pos hfull] at h
    split at h <;> cases h
  have hfield : @unpackExponent Format.binary64 x.toBits.toBitVec ≠ -1#_ := by
    intro hall
    rw [hall] at hexponent
    exact hfull hexponent.symm
  simp only [if_neg hfull] at h
  rw [if_neg hfield]
  by_cases hzero : bits / mantissaUnit % 2048 = 0
  · rw [if_pos hzero] at h
    obtain ⟨rfl, rfl, rfl⟩ := Shape.finite.inj h
    have hnone : @unpackExponent Format.binary64 x.toBits.toBitVec = 0#_ := by
      apply BitVec.eq_of_toNat_eq
      rw [hexponent, hzero]
      rfl
    rw [if_pos hnone, ← hmantissa]
    split
    · rename_i hfraction
      refine ⟨rfl, ?_⟩
      rw [hfraction, valueOf_zero]
      cases signOf (0x8000000000000000 ≤ bits) <;> simp [withSign]
    · refine ⟨rfl, ?_⟩
      rw [valueOf_finite, hexponent, hzero]
      rfl
  · rw [if_neg hzero] at h
    obtain ⟨rfl, rfl, rfl⟩ := Shape.finite.inj h
    have hsome : @unpackExponent Format.binary64 x.toBits.toBitVec ≠ 0#_ := by
      intro hnone
      rw [hnone] at hexponent
      exact hzero hexponent.symm
    have hone : (1#1 ++ @unpackMantissa Format.binary64 x.toBits.toBitVec).toNat =
        mantissaUnit + bits % mantissaUnit := (toNat_one_append _).trans (by rw [hmantissa])
    rw [if_neg hsome]
    refine ⟨rfl, ?_⟩
    rw [valueOf_finite, hexponent, ← hone]
    rfl

theorem roundHalfAway_of_not_isFinite (h : x.isFinite = false) : roundHalfAway x = x := by
  rw [roundHalfAway]
  split
  · rename_i hshape
    have hfinite := (isValue_of_ofFloat hshape).finite
    rw [h] at hfinite
    cases hfinite
  · rfl

theorem IsValue.neg (h : IsValue x p) (hp : |p| < 2 ^ 1024) : IsValue (-x) (-p) := by
  have hneg : Gives x.toModel.unpack.neg (-p) :=
    ⟨h.canonical.neg, (valueOf_neg _).trans (congrArg Neg.neg h.value)⟩
  exact isValue_pack hneg (by rwa [abs_neg])

theorem withSign_eq {s : Sign} (hp : 0 ≤ p) (h : 0 ≤ withSign s p) :
    withSign s p = p ∧ (s = .negative → p = 0) := by
  cases s with
  | positive => exact ⟨rfl, nofun⟩
  | negative =>
      have hzero : p = 0 := le_antisymm (neg_nonneg.mp h) hp
      exact ⟨by rw [hzero]; exact neg_zero, fun _ => hzero⟩

theorem exists_shape (h : IsValue x p) (hp : 0 ≤ p) : ∃ negative m e,
    Shape.ofFloat x = .finite negative m e ∧ m < 2 ^ 53 ∧ p = m * 2 ^ e ∧
      (negative = true → m = 0) := by
  obtain ⟨negative, m, e, hshape⟩ := ofFloat_of_isFinite h.finite
  have hvalue := h.value.symm.trans (isValue_of_ofFloat hshape).value
  rw [hvalue] at hp
  have hpow := (zpow_two_pos e).le
  obtain ⟨heq, hzero⟩ := withSign_eq (mul_nonneg m.cast_nonneg hpow) hp
  refine ⟨negative, m, e, hshape, (regular_of_ofFloat hshape).lt, hvalue.trans heq, ?_⟩
  rintro rfl
  exact_mod_cast (mul_eq_zero.mp (hzero rfl)).resolve_right (zpow_two_pos e).ne'

theorem isValue_natCast {n : Nat} (h : n ≤ 2 ^ 53) : IsValue (Float.ofNat n) n := by
  have hvalue := isValue_ofNat (n := n) (by omega)
  rwa [nearest_natCast h] at hvalue

theorem IsValue.roundHalfAway (h : IsValue x p) (hp : 0 ≤ p) :
    IsValue (roundHalfAway x) ⌊p + 1 / 2⌋ := by
  obtain ⟨negative, m, e, hshape, hm, rfl, hzero⟩ := exists_shape h hp
  rw [Decimal.roundHalfAway, hshape]
  simp only
  by_cases he : 0 ≤ e
  · rw [if_pos he]
    obtain ⟨k, rfl⟩ := Int.eq_ofNat_of_zero_le he
    have hwhole : (m : ℚ) * 2 ^ (k : Int) = ((m * 2 ^ k : Int) : ℚ) := by
      push_cast
      rw [zpow_natCast]
    have hhalf : ⌊(1 / 2 : ℚ)⌋ = 0 := Int.floor_eq_zero_iff.mpr ⟨by norm_num, by norm_num⟩
    rw [hwhole] at h ⊢
    rwa [Int.floor_intCast_add, hhalf, add_zero]
  · rw [if_neg he]
    obtain ⟨k, hk⟩ := Int.eq_ofNat_of_zero_le (a := -e) (by omega)
    have hunit : pow2 (-e) = 2 ^ k := by rw [pow2, hk]; rfl
    have hpos : 0 < 2 ^ k := Nat.two_pow_pos k
    have hfloor : ⌊(m : ℚ) * 2 ^ e + 1 / 2⌋ = ((2 * m + 2 ^ k) / (2 * 2 ^ k) : Nat) := by
      have hshare : (m : ℚ) * 2 ^ e + 1 / 2 =
          ((2 * m + 2 ^ k : Int) : ℚ) / ((2 * 2 ^ k : Nat) : ℚ) := by
        rw [show e = -(k : Int) by omega, zpow_neg, zpow_natCast]
        push_cast
        field_simp
      rw [hshare, Rat.floor_intCast_div_natCast]
      push_cast
      rfl
    have hle : (2 * m + 2 ^ k) / (2 * 2 ^ k) ≤ 2 ^ 53 := by
      apply Nat.div_le_of_le_mul
      have hscaled : m ≤ 2 ^ k * m := Nat.le_mul_of_pos_left m hpos
      calc 2 * m + 2 ^ k ≤ 2 * (2 ^ k * m) + 2 * 2 ^ k := by omega
        _ = 2 * 2 ^ k * (m + 1) := by ring
        _ ≤ 2 * 2 ^ k * 2 ^ 53 := Nat.mul_le_mul_left _ hm
    rw [hunit, hfloor]
    cases negative with
    | false => exact isValue_natCast hle
    | true =>
        obtain rfl := hzero rfl
        have hnone : (2 * 0 + 2 ^ k) / (2 * 2 ^ k) = 0 := Nat.div_eq_of_lt (by omega)
        rw [hnone]
        exact ⟨by decide, rfl⟩

theorem isValue_hundred : IsValue 100.0 100 := by
  refine ⟨by decide, ?_⟩
  have h : (100.0 : Float).toModel.unpack = .finite .positive (100 * 2 ^ 46) (-46) (by decide) := by
    rfl
  rw [value, h, valueOf_finite, withSign]
  norm_num

theorem inUnit_iff_le : inUnit x = true ↔ 0.0 ≤ x ∧ x ≤ 1.0 := by
  rw [inUnit, Bool.and_eq_true, decide_eq_true_iff, decide_eq_true_iff]

theorem isFinite_of_inUnit (h : inUnit x = true) : x.isFinite = true := by
  obtain ⟨hlow, hhigh⟩ := inUnit_iff_le.mp h
  exact isFinite_of_between isValue_zero.finite isValue_one.finite hlow hhigh

theorem inUnit_iff : inUnit x = true ↔ ∃ p, IsValue x p ∧ 0 ≤ p ∧ p ≤ 1 := by
  constructor
  · intro h
    have hx := isValue_of_isFinite (isFinite_of_inUnit h)
    exact ⟨_, hx, (isValue_inUnit hx).mp h⟩
  · rintro ⟨p, hx, hp⟩
    exact (isValue_inUnit hx).mpr hp

theorem not_inUnit (h : x.isNaN = true) : inUnit x = false := by
  rw [← Bool.not_eq_true]
  intro hunit
  rw [(isNaN_of_le (inUnit_iff_le.mp hunit).1).2] at h
  cases h

theorem nearest_between {n : Nat} (hn : n ≤ 2 ^ 53) (hlow : 0 ≤ p) (hhigh : p ≤ n) :
    0 ≤ nearest p ∧ nearest p ≤ n ∧ |nearest p| < 2 ^ 1024 := by
  have hnonneg := nearest_nonneg hlow
  have hle : nearest p ≤ n := (nearest_mono hhigh).trans_eq (nearest_natCast hn)
  have hmax : (n : ℚ) ≤ 2 ^ 53 := by exact_mod_cast hn
  refine ⟨hnonneg, hle, ?_⟩
  rw [abs_of_nonneg hnonneg]
  exact (hle.trans hmax).trans_lt (pow_lt_pow_right₀ (by norm_num) (by decide))

theorem inUnit_roundHundredths (h : inUnit x = true) : inUnit (roundHundredths x) = true := by
  obtain ⟨p, hx, hlow, hhigh⟩ := inUnit_iff.mp h
  obtain ⟨hscaled, hscaled', hmax⟩ := nearest_between (p := p * 100) (n := 100) (by decide)
    (by positivity) (by push_cast; linarith)
  have hround := (hx.mul isValue_hundred hmax).roundHalfAway hscaled
  have hcount : 0 ≤ ⌊nearest (p * 100) + 1 / 2⌋ := Int.floor_nonneg.mpr (by linarith)
  have hcount' : ⌊nearest (p * 100) + 1 / 2⌋ ≤ 100 := by
    rw [Int.floor_le_iff]
    push_cast at hscaled' ⊢
    linarith
  generalize ⌊nearest (p * 100) + 1 / 2⌋ = k at hround hcount hcount'
  have hk : (0 : ℚ) ≤ k := by exact_mod_cast hcount
  have hk' : (k : ℚ) ≤ 100 := by exact_mod_cast hcount'
  obtain ⟨hshare, hshare', hmax⟩ := nearest_between (p := k / 100) (n := 1) (by decide)
    (by positivity) (by push_cast; linarith)
  refine inUnit_iff.mpr ⟨_, hround.div isValue_hundred (by norm_num) hmax, hshare, ?_⟩
  exact_mod_cast hshare'

theorem isNaN_iff : x.isNaN = true ↔ x.toModel.unpack = .notANumber := by
  change x.toModel.unpack.isNaN = true ↔ _
  cases x.toModel.unpack with
  | notANumber => exact iff_of_true rfl rfl
  | infinity | zero | finite => exact iff_of_false nofun nofun

theorem isNaN_mul (y : Float) (h : x.isNaN = true) : (x * y).isNaN = true := by
  have hmul : mul Format.binary64 x.toModel.unpack y.toModel.unpack = .notANumber := by
    rw [isNaN_iff.mp h]
    cases y.toModel.unpack <;> rfl
  change (Float.Model.pack (mul Format.binary64 x.toModel.unpack y.toModel.unpack)).unpack.isNaN =
    true
  rw [hmul]
  rfl

theorem isNaN_div (y : Float) (h : x.isNaN = true) : (x / y).isNaN = true := by
  have hdiv : div Format.binary64 x.toModel.unpack y.toModel.unpack = .notANumber := by
    rw [isNaN_iff.mp h]
    cases y.toModel.unpack <;> rfl
  change (Float.Model.pack (div Format.binary64 x.toModel.unpack y.toModel.unpack)).unpack.isNaN =
    true
  rw [hdiv]
  rfl

theorem isNaN_roundHundredths (h : x.isNaN = true) : (roundHundredths x).isNaN = true := by
  have hmul := isNaN_mul 100.0 h
  rw [roundHundredths, roundHalfAway_of_not_isFinite (not_isFinite_of_isNaN hmul)]
  exact isNaN_div _ hmul

theorem zero_le_of_isValue (h : IsValue x p) (hp : 0 ≤ p) : 0.0 ≤ x :=
  (isValue_zero.le_iff h).mpr hp

theorem zero_le_roundHundredths (h : 0.0 ≤ x) (hx : x.isFinite = true) :
    0.0 ≤ roundHundredths x := by
  have hmul : 0.0 ≤ x * 100.0 := zero_le_mul h (by decide) hx (by decide)
  refine zero_le_div ?_ (by decide) (by decide)
  cases hfinite : (x * 100.0).isFinite with
  | false => rwa [roundHalfAway_of_not_isFinite hfinite]
  | true =>
      have hvalue := isValue_of_isFinite hfinite
      have hlow := (isValue_zero.le_iff hvalue).mp hmul
      refine zero_le_of_isValue (hvalue.roundHalfAway hlow) ?_
      exact_mod_cast Int.floor_nonneg.mpr (by linarith)

end Parley.Decimal
