import Parley.Decimal.Binary

namespace Parley.Decimal

open Float.Model (UnpackedFloat)

variable {x y : Float} {u v : UnpackedFloat}

theorem compare_sign_swap (s t : UnpackedFloat.Sign) : compare t s = (compare s t).swap := by
  cases s <;> cases t <;> rfl

theorem compare_swap (u v : UnpackedFloat) : v.compare u = (u.compare v).map Ordering.swap := by
  have hpair (e e' : Int) (m m' : Nat) : (compare e' e).then (compare m' m) =
      ((compare e e').then (compare m m')).swap := by
    rw [Ordering.swap_then, Int.compare_swap, Nat.compare_swap]
  cases u with
  | notANumber => cases v <;> rfl
  | infinity s =>
      cases v with
      | infinity t => exact congrArg some (compare_sign_swap s t)
      | _ => cases s <;> rfl
  | zero s =>
      cases v with
      | infinity t | finite t => cases t <;> rfl
      | _ => rfl
  | finite s m e hm =>
      cases v with
      | notANumber => rfl
      | infinity t => cases t <;> cases s <;> rfl
      | zero t => cases s <;> rfl
      | finite t m' e' hm' =>
          cases s <;> cases t
          · exact congrArg some (congrArg Ordering.swap (hpair e e' m m'))
          · rfl
          · rfl
          · exact congrArg some (hpair e e' m m')

theorem compare_eq_none_iff : u.compare v = none ↔ u.isNaN = true ∨ v.isNaN = true := by
  have hnumbers (hu : u.isNaN = false) (hv : v.isNaN = false) : u.compare v ≠ none := by
    intro h
    cases u with
    | notANumber => cases hu
    | infinity s | zero s | finite s =>
        cases v with
        | notANumber => cases hv
        | infinity t | zero t | finite t => cases s <;> cases t <;> cases h
  constructor
  · intro h
    cases hu : u.isNaN with
    | true => exact .inl rfl
    | false =>
        cases hv : v.isNaN with
        | true => exact .inr rfl
        | false => exact absurd h (hnumbers hu hv)
  · rintro (hu | hv)
    · cases u with
      | notANumber => cases v <;> rfl
      | _ => cases hu
    · cases v with
      | notANumber => cases u <;> rfl
      | _ => cases hv

theorem lt_iff_compare : x < y ↔ x.toModel.unpack.compare y.toModel.unpack = some .lt := by
  change decide (x.toModel < y.toModel) = true ↔ _
  rw [decide_eq_true_iff]
  change (_ == _) = true ↔ _
  rw [beq_iff_eq]

theorem le_iff_compare :
    x ≤ y ↔ (x.toModel.unpack.compare y.toModel.unpack).any Ordering.isLE = true := by
  change decide (x.toModel ≤ y.toModel) = true ↔ _
  rw [decide_eq_true_iff]
  rfl

theorem not_lt_iff_le (hx : x.isNaN = false) (hy : y.isNaN = false) : ¬ x < y ↔ y ≤ x := by
  rw [lt_iff_compare, le_iff_compare, compare_swap x.toModel.unpack y.toModel.unpack]
  cases h : x.toModel.unpack.compare y.toModel.unpack with
  | none =>
      rcases compare_eq_none_iff.mp h with hn | hn
      · exact absurd (hx.symm.trans hn) (by decide)
      · exact absurd (hy.symm.trans hn) (by decide)
  | some o => cases o <;> decide

theorem isNaN_of_compare (h : x.toModel.unpack.compare y.toModel.unpack ≠ none) :
    x.isNaN = false ∧ y.isNaN = false := by
  have hnot : ¬ (x.isNaN = true ∨ y.isNaN = true) := mt compare_eq_none_iff.mpr h
  rwa [not_or, Bool.not_eq_true, Bool.not_eq_true] at hnot

theorem isNaN_of_le (h : x ≤ y) : x.isNaN = false ∧ y.isNaN = false := by
  rw [le_iff_compare] at h
  refine isNaN_of_compare fun hnone => ?_
  rw [hnone] at h
  cases h

theorem isNaN_of_lt (h : x < y) : x.isNaN = false ∧ y.isNaN = false := by
  rw [lt_iff_compare] at h
  refine isNaN_of_compare fun hnone => ?_
  rw [hnone] at h
  cases h

theorem isNaN_of_unpacked (h : u.isFinite = true) : u.isNaN = false := by
  cases u with
  | notANumber => cases h
  | infinity | zero | finite => rfl

theorem isNaN_of_isFinite (h : x.isFinite = true) : x.isNaN = false := isNaN_of_unpacked h

theorem not_isFinite_of_isNaN (h : x.isNaN = true) : x.isFinite = false := by
  rw [← Bool.not_eq_true]
  intro hfinite
  rw [isNaN_of_isFinite hfinite] at h
  cases h

theorem isFinite_of_between {z : Float} (hx : x.isFinite = true) (hy : y.isFinite = true)
    (hlow : x ≤ z) (hhigh : z ≤ y) : z.isFinite = true := by
  change x.toModel.unpack.isFinite = true at hx
  change y.toModel.unpack.isFinite = true at hy
  change z.toModel.unpack.isFinite = true
  rw [le_iff_compare] at hlow hhigh
  generalize x.toModel.unpack = u at hx hlow
  generalize y.toModel.unpack = v at hy hhigh
  cases hz : z.toModel.unpack with
  | zero s | finite s => rfl
  | notANumber =>
      rw [hz] at hlow
      cases u <;> cases hlow
  | infinity s =>
      rw [hz] at hlow hhigh
      cases s with
      | positive =>
          cases v with
          | notANumber | infinity t => cases hy
          | zero t | finite t => cases hhigh
      | negative =>
          cases u with
          | notANumber | infinity t => cases hx
          | zero t | finite t => cases hlow

end Parley.Decimal
