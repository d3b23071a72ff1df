import Mathlib.Tactic.NormNum
import Parley.Decimal.Binary

namespace Parley.Decimal

open Float.Model (Format)
open Float.Model.UnpackedFloat (unpack unpackExponent unpackMantissa unpackSign)

/-- The mantissas and exponents of finite doubles, each value written in one way. -/
structure Regular (m : Nat) (e : Int) : Prop where
  lt : m < 2 * mantissaUnit
  least : leastExponent ≤ e
  normal : mantissaUnit ≤ m ∨ e = leastExponent

variable {x y : Float} {negative : Bool} {m : Nat} {e : Int}

theorem toBits_injective (h : x.toBits = y.toBits) : x = y := by
  obtain ⟨⟨a, ha⟩⟩ := x
  obtain ⟨⟨b, hb⟩⟩ := y
  change a = b at h
  subst h
  rfl

theorem ofFloat_eq_finite (h : Shape.ofFloat x = .finite negative m e) :
    ∃ field fraction, field < 2047 ∧ fraction < mantissaUnit ∧
      x.toBits.toNat = (if negative then 0x8000000000000000 else 0) + field * mantissaUnit +
        fraction ∧
      ((field = 0 ∧ m = fraction ∧ e = leastExponent) ∨
        (field ≠ 0 ∧ m = mantissaUnit + fraction ∧ e = (field : Int) - 1075)) := by
  have hlt : x.toBits.toNat < 2 ^ 64 := x.toBits.toNat_lt
  rw [Shape.ofFloat] at h
  generalize x.toBits.toNat = bits at h hlt ⊢
  refine ⟨bits / mantissaUnit % 2048, bits % mantissaUnit, ?_⟩
  have hsplit : bits = (if 0x8000000000000000 ≤ bits then 0x8000000000000000 else 0) +
      bits / mantissaUnit % 2048 * mantissaUnit + bits % mantissaUnit := by
    rw [mantissaUnit]
    split <;> omega
  by_cases hfull : bits / mantissaUnit % 2048 = 2047
  · by_cases hz : bits % mantissaUnit = 0 <;> simp [hfull, hz] at h
  · by_cases hzero : bits / mantissaUnit % 2048 = 0
    · simp only [hzero, if_true] at h
      obtain ⟨rfl, rfl, rfl⟩ := Shape.finite.inj h
      refine ⟨by omega, Nat.mod_lt _ (by decide), ?_, .inl ⟨hzero, rfl, rfl⟩⟩
      simpa using hsplit
    · simp only [hzero, hfull, if_false] at h
      obtain ⟨rfl, rfl, rfl⟩ := Shape.finite.inj h
      refine ⟨by omega, Nat.mod_lt _ (by decide), ?_, .inr ⟨hzero, rfl, rfl⟩⟩
      simpa using hsplit

theorem regular_of_ofFloat (h : Shape.ofFloat x = .finite negative m e) : Regular m e := by
  obtain ⟨field, fraction, hfield, hfraction, -, hparts⟩ := ofFloat_eq_finite h
  rcases hparts with ⟨-, rfl, rfl⟩ | ⟨hne, rfl, rfl⟩
  · exact ⟨by omega, by decide, .inr rfl⟩
  · refine ⟨by omega, ?_, .inl (Nat.le_add_right _ _)⟩
    rw [leastExponent]
    omega

theorem ofFloat_injective (hx : Shape.ofFloat x = .finite negative m e)
    (hy : Shape.ofFloat y = .finite negative m e) : x = y := by
  obtain ⟨a, b, -, hb, hbits, hparts⟩ := ofFloat_eq_finite hx
  obtain ⟨a', b', -, hb', hbits', hparts'⟩ := ofFloat_eq_finite hy
  apply toBits_injective
  apply UInt64.toNat_inj.mp
  rw [hbits, hbits']
  have hab : a = a' ∧ b = b' := by
    simp only [leastExponent] at hparts hparts'
    omega
  rw [hab.1, hab.2]

theorem unpackExponent_toNat (x : Float) :
    (@unpackExponent Format.binary64 x.toBits.toBitVec).toNat =
      x.toBits.toNat / mantissaUnit % 2048 := by
  rw [unpackExponent, BitVec.toNat_cast, BitVec.extractLsb_toNat, Nat.shiftRight_eq_div_pow]
  rfl

theorem unpack_of_full {bits : BitVec Format.binary64.numBits}
    (h : @unpackExponent Format.binary64 bits = -1#_) :
    unpack Format.binary64 bits =
      if @unpackMantissa Format.binary64 bits = 0#_ then .infinity (.ofBitVec (unpackSign bits))
      else .notANumber :=
  if_pos h

theorem not_full_of_isFinite (h : x.isFinite = true) :
    @unpackExponent Format.binary64 x.toBits.toBitVec ≠ -1#_ := by
  intro hfull
  change (unpack Format.binary64 x.toBits.toBitVec).isFinite = true at h
  rw [unpack_of_full hfull] at h
  split at h <;> cases h

theorem ofFloat_of_isFinite (h : x.isFinite = true) :
    ∃ negative m e, Shape.ofFloat x = .finite negative m e := by
  have hfield : x.toBits.toNat / mantissaUnit % 2048 ≠ 2047 := by
    intro hfull
    apply not_full_of_isFinite h
    apply BitVec.eq_of_toNat_eq
    rw [unpackExponent_toNat, hfull]
    rfl
  rw [Shape.ofFloat]
  simp only [if_neg hfield]
  split <;> exact ⟨_, _, _, rfl⟩

end Parley.Decimal
