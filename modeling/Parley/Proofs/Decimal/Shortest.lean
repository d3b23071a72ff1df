import Mathlib.Algebra.Order.Field.Power
import Mathlib.Algebra.Order.Archimedean.Basic
import Mathlib.Tactic.FieldSimp
import Mathlib.Tactic.Linarith
import Mathlib.Tactic.Positivity
import Mathlib.Tactic.Ring
import Parley.Decimal.Shortest
import Parley.Proofs.Decimal.Binary

namespace Parley.Decimal

variable {m m' : Nat} {e e' : Int} {v : ℚ}

/-- How far below a double the values reach that round to it, in quarters of its last place:
the place is only half as wide below a power of two. -/
def below (m : Nat) (e : Int) : Nat := if m = mantissaUnit ∧ leastExponent < e then 1 else 2

/-- The values that read back as a double. An odd mantissa gives its bounds to its
neighbours. -/
structure Rounds (m : Nat) (e : Int) (v : ℚ) : Prop where
  low : ((4 * m : ℚ) - below m e) * 2 ^ (e - 2) ≤ v
  high : v ≤ ((4 * m : ℚ) + 2) * 2 ^ (e - 2)
  odd : m % 2 = 1 →
    ((4 * m : ℚ) - below m e) * 2 ^ (e - 2) < v ∧ v < ((4 * m : ℚ) + 2) * 2 ^ (e - 2)

theorem below_le (m : Nat) (e : Int) : below m e ≤ 2 := by
  rw [below]
  split <;> omega

theorem pow2_eq (a : Int) : (pow2 a : ℚ) = 2 ^ a * pow2 (-a) := by
  rcases Int.le_total 0 a with h | h
  · obtain ⟨n, rfl⟩ := Int.eq_ofNat_of_zero_le h
    have hz : (-(n : Int)).toNat = 0 := by omega
    simp [pow2, hz]
  · obtain ⟨n, hn⟩ := Int.eq_ofNat_of_zero_le (Int.neg_nonneg_of_nonpos h)
    obtain rfl : a = -(n : Int) := by omega
    have hz : (-(n : Int)).toNat = 0 := by omega
    simp [pow2, hz]

theorem pow10_eq (a : Int) : (pow10 a : ℚ) = 10 ^ a * pow10 (-a) := by
  rcases Int.le_total 0 a with h | h
  · obtain ⟨n, rfl⟩ := Int.eq_ofNat_of_zero_le h
    have hz : (-(n : Int)).toNat = 0 := by omega
    simp [pow10, hz]
  · obtain ⟨n, hn⟩ := Int.eq_ofNat_of_zero_le (Int.neg_nonneg_of_nonpos h)
    obtain rfl : a = -(n : Int) := by omega
    have hz : (-(n : Int)).toNat = 0 := by omega
    simp [pow10, hz]

theorem pow2_pos (a : Int) : 0 < pow2 a := Nat.pow_pos (by decide)

theorem pow10_pos (a : Int) : 0 < pow10 a := Nat.pow_pos (by decide)

/-- What the grid multiplies both sides of a comparison with, so that they are natural. -/
def weight (e q : Int) : ℚ := pow2 (2 - e) * pow10 (-q)

theorem weight_pos (e q : Int) : 0 < weight e q := by
  have h2 := pow2_pos (2 - e)
  have h10 := pow10_pos (-q)
  rw [weight]
  positivity

theorem cast_scaled (k : Nat) (e q : Int) :
    ((k * pow2 (e - 2) * pow10 (-q) : Nat) : ℚ) = k * 2 ^ (e - 2) * weight e q := by
  have h := pow2_eq (e - 2)
  rw [show -(e - 2) = 2 - e by ring] at h
  push_cast
  rw [h, weight]
  ring

theorem cast_unit (j : Nat) (e q : Int) :
    ((j * (pow10 q * pow2 (2 - e)) : Nat) : ℚ) = j * 10 ^ q * weight e q := by
  push_cast
  rw [pow10_eq q, weight]
  ring

theorem scaled_le_iff (k j : Nat) (e q : Int) :
    k * pow2 (e - 2) * pow10 (-q) ≤ j * (pow10 q * pow2 (2 - e)) ↔
      (k : ℚ) * 2 ^ (e - 2) ≤ j * 10 ^ q := by
  rw [← Nat.cast_le (α := ℚ), cast_scaled, cast_unit, mul_le_mul_iff_left₀ (weight_pos e q)]

theorem unit_le_iff (k j : Nat) (e q : Int) :
    j * (pow10 q * pow2 (2 - e)) ≤ k * pow2 (e - 2) * pow10 (-q) ↔
      (j : ℚ) * 10 ^ q ≤ k * 2 ^ (e - 2) := by
  rw [← Nat.cast_le (α := ℚ), cast_scaled, cast_unit, mul_le_mul_iff_left₀ (weight_pos e q)]

def inside (m : Nat) (e q : Int) (k : Nat) : Bool :=
  let scaled i := i * pow2 (e - 2) * pow10 (-q)
  let unit := pow10 q * pow2 (2 - e)
  if m % 2 = 0 then
    decide (scaled (4 * m - below m e) ≤ k * unit ∧ k * unit ≤ scaled (4 * m + 2))
  else decide (scaled (4 * m - below m e) < k * unit ∧ k * unit < scaled (4 * m + 2))

def floorPoint (m : Nat) (e q : Int) : Nat :=
  4 * m * pow2 (e - 2) * pow10 (-q) / (pow10 q * pow2 (2 - e))

theorem cast_low (hm : 0 < m) (e : Int) :
    ((4 * m - below m e : Nat) : ℚ) = (4 * m : ℚ) - below m e := by
  have h := below_le m e
  rw [Nat.cast_sub (by omega)]
  push_cast
  ring

theorem inside_iff (hm : 0 < m) (e q : Int) (k : Nat) :
    inside m e q k = true ↔ Rounds m e (k * 10 ^ q) := by
  have hlow := cast_low hm e
  have hhigh : ((4 * m + 2 : Nat) : ℚ) = (4 * m : ℚ) + 2 := by push_cast; ring
  rw [inside]
  split
  · rename_i heven
    rw [decide_eq_true_eq, scaled_le_iff, unit_le_iff, hlow, hhigh]
    exact ⟨fun h => ⟨h.1, h.2, by omega⟩, fun h => ⟨h.low, h.high⟩⟩
  · rename_i hodd
    rw [decide_eq_true_eq, ← Nat.not_le, ← Nat.not_le, unit_le_iff, scaled_le_iff, not_le, not_le,
      hlow, hhigh]
    exact ⟨fun h => ⟨h.1.le, h.2.le, fun _ => h⟩, fun h => h.odd (by omega)⟩

theorem gridPoint_eq (tie : Tie) (m : Nat) (e q : Int) :
    gridPoint tie m e q =
      let c := floorPoint m e q
      let down := 4 * m * pow2 (e - 2) * pow10 (-q) - c * (pow10 q * pow2 (2 - e))
      let up := (c + 1) * (pow10 q * pow2 (2 - e)) - 4 * m * pow2 (e - 2) * pow10 (-q)
      match inside m e q c, inside m e q (c + 1) with
      | true, false => some c
      | false, true => some (c + 1)
      | false, false => none
      | true, true =>
        if down < up then some c
        else if up < down then some (c + 1)
        else match tie with
          | .up => some (c + 1)
          | .toEven => some (if c % 2 = 0 then c else c + 1) :=
  rfl

/-- The grid chooses one of its two neighbours of a double, if one of them reads back. -/
theorem gridPoint_cases (tie : Tie) (m : Nat) (e q : Int) :
    (∃ k, gridPoint tie m e q = some k ∧ inside m e q k = true) ∨
      (gridPoint tie m e q = none ∧ inside m e q (floorPoint m e q) = false ∧
        inside m e q (floorPoint m e q + 1) = false) := by
  rw [gridPoint_eq]
  dsimp only
  split
  · rename_i hc _
    exact .inl ⟨_, rfl, hc⟩
  · rename_i _ hs
    exact .inl ⟨_, rfl, hs⟩
  · rename_i hc hs
    exact .inr ⟨rfl, hc, hs⟩
  · rename_i hc hs
    split
    · exact .inl ⟨_, rfl, hc⟩
    · split
      · exact .inl ⟨_, rfl, hs⟩
      · cases tie with
        | up => exact .inl ⟨_, rfl, hs⟩
        | toEven =>
            refine .inl ⟨_, rfl, ?_⟩
            split
            · exact hc
            · exact hs

theorem inside_of_gridPoint {tie : Tie} {q : Int} {k : Nat} (h : gridPoint tie m e q = some k) :
    inside m e q k = true := by
  obtain ⟨k', hk, hinside⟩ | ⟨hnone, -⟩ := gridPoint_cases tie m e q
  · rw [hk] at h
    exact Option.some.inj h ▸ hinside
  · rw [hnone] at h
    cases h

theorem gridPoint_isSome (tie : Tie) {q : Int}
    (h : inside m e q (floorPoint m e q) = true ∨ inside m e q (floorPoint m e q + 1) = true) :
    (gridPoint tie m e q).isSome = true := by
  obtain ⟨k, hk, -⟩ | ⟨-, hc, hs⟩ := gridPoint_cases tie m e q
  · rw [hk]
    rfl
  · simp [hc, hs] at h

theorem quarters (m : Nat) (e : Int) : (4 * m : ℚ) * 2 ^ (e - 2) = m * 2 ^ e := by
  rw [zpow_sub₀ (by norm_num)]
  ring

theorem floorPoint_bounds (m : Nat) (e q : Int) :
    (floorPoint m e q : ℚ) * 10 ^ q ≤ m * 2 ^ e ∧
      (m : ℚ) * 2 ^ e < ((floorPoint m e q : ℚ) + 1) * 10 ^ q := by
  have hunit : 0 < pow10 q * pow2 (2 - e) := Nat.mul_pos (pow10_pos q) (pow2_pos (2 - e))
  have hq : ((4 * m : Nat) : ℚ) * 2 ^ (e - 2) = m * 2 ^ e := by
    push_cast
    exact quarters m e
  constructor
  · rw [← hq, ← unit_le_iff]
    exact Nat.div_mul_le_self _ _
  · have h := Nat.lt_mul_of_div_lt (Nat.lt_succ_self (floorPoint m e q)) hunit
    rw [← Nat.not_le, unit_le_iff, not_le, hq] at h
    push_cast at h
    exact h

/-- The points of a grid of sixteen further places stand closer than the values that round to
a double reach. -/
theorem fine_lt (h : Regular m e) {u : ℚ} (hu : u * 10 ^ 16 ≤ m * 2 ^ e) :
    u < 2 * below m e * 2 ^ (e - 2) ∧ u < 4 * 2 ^ (e - 2) := by
  have hp : (0 : ℚ) < 2 ^ (e - 2) := by positivity
  rw [← quarters] at hu
  have hlt : m < 9007199254740992 := h.lt
  have hm : (4 * m : ℚ) * 2 ^ (e - 2) ≤ 4 * 9007199254740992 * 2 ^ (e - 2) := by
    have hcast : (m : ℚ) ≤ 9007199254740992 := by exact_mod_cast hlt.le
    gcongr
  refine ⟨?_, by linarith⟩
  rw [below]
  split
  · rename_i hunit
    rw [hunit.1, mantissaUnit] at hu
    push_cast at hu ⊢
    linarith
  · push_cast
    linarith

/-- On a grid of sixteen further places the nearer neighbour of a double reads back. -/
theorem gridPoint_of_fine (tie : Tie) (h : Regular m e) (hm : 0 < m) {q : Int}
    (hq : (10 : ℚ) ^ q * 10 ^ 16 ≤ m * 2 ^ e) : (gridPoint tie m e q).isSome = true := by
  obtain ⟨hle, hlt⟩ := floorPoint_bounds m e q
  obtain ⟨hbelow, habove⟩ := fine_lt h hq
  have hp : (0 : ℚ) < 2 ^ (e - 2) := by positivity
  have hb : (0 : ℚ) ≤ below m e * 2 ^ (e - 2) := by positivity
  rw [← quarters] at hle hlt
  apply gridPoint_isSome
  rw [inside_iff hm, inside_iff hm]
  push_cast
  -- One of the two neighbours is at most half a step away.
  rcases le_total ((4 * m : ℚ) * 2 ^ (e - 2) - floorPoint m e q * 10 ^ q) (10 ^ q / 2) with hn | hn
  · left
    have hlow : ((4 * m : ℚ) - below m e) * 2 ^ (e - 2) < floorPoint m e q * 10 ^ q := by linarith
    have hhigh : (floorPoint m e q : ℚ) * 10 ^ q < (4 * m + 2) * 2 ^ (e - 2) := by linarith
    exact ⟨hlow.le, hhigh.le, fun _ => ⟨hlow, hhigh⟩⟩
  · right
    have hlow : ((4 * m : ℚ) - below m e) * 2 ^ (e - 2) < (floorPoint m e q + 1) * 10 ^ q := by
      linarith
    have hhigh : ((floorPoint m e q : ℚ) + 1) * 10 ^ q < (4 * m + 2) * 2 ^ (e - 2) := by linarith
    exact ⟨hlow.le, hhigh.le, fun _ => ⟨hlow, hhigh⟩⟩

theorem digitCount_pos (n : Nat) : 0 < digitCount n := Nat.length_toDigits_pos

theorem pow_le_of_digitCount {n : Nat} (h : 0 < n) : 10 ^ (digitCount n - 1) ≤ n := by
  by_cases hd : digitCount n = 1
  · rw [hd]
    exact h
  · have hpos := digitCount_pos n
    have hlen := Nat.length_toDigits_le_iff (b := 10) (n := n) (k := digitCount n - 1) (by decide)
      (by omega)
    rw [← Nat.not_lt, ← hlen]
    exact fun hle => by rw [digitCount] at hle hpos; omega

theorem zpow_le_of_digitCount {n : Nat} (h : 0 < n) : (10 : ℚ) ^ ((digitCount n : Int) - 1) ≤ n := by
  have hpos := digitCount_pos n
  have hle := pow_le_of_digitCount h
  rw [show (digitCount n : Int) - 1 = ((digitCount n - 1 : Nat) : Int) by omega, zpow_natCast]
  exact_mod_cast hle

theorem zpow_le_of_places (h : Regular m e) (hm : 0 < m) (he : e < 0) {places : Nat}
    (hp : 358 ≤ places) :
    (10 : ℚ) ^ ((digitCount (m * Nat.pow 10 places / pow2 (-e)) : Int) - (places + 1)) ≤
      m * 2 ^ e := by
  have hleast := h.least
  rw [leastExponent] at hleast
  have hz : e.toNat = 0 := by omega
  have h2 := pow2_eq e
  rw [show pow2 e = 1 by rw [pow2, hz], Nat.cast_one] at h2
  have hbig : pow2 (-e) ≤ m * Nat.pow 10 places := by
    calc pow2 (-e) ≤ 2 ^ (3 * places) := Nat.pow_le_pow_right (by decide) (by omega)
      _ = (2 ^ 3) ^ places := Nat.pow_mul 2 3 places
      _ ≤ Nat.pow 10 places := Nat.pow_le_pow_left (by decide) places
      _ ≤ m * Nat.pow 10 places := Nat.le_mul_of_pos_left _ hm
  have hle := zpow_le_of_digitCount (Nat.div_pos hbig (pow2_pos (-e)))
  have hdiv := Nat.div_mul_le_self (m * Nat.pow 10 places) (pow2 (-e))
  generalize m * Nat.pow 10 places / pow2 (-e) = n at hle hdiv ⊢
  have hn : (n : ℚ) * pow2 (-e) ≤ m * 10 ^ places := by exact_mod_cast hdiv
  have hpos : (0 : ℚ) < pow2 (-e) := by exact_mod_cast pow2_pos (-e)
  have hval : (m : ℚ) * 2 ^ e * pow2 (-e) = m := by rw [mul_assoc, ← h2, mul_one]
  rw [show (digitCount n : Int) - (places + 1) = (digitCount n - 1) - places by ring,
    zpow_sub₀ (by norm_num), div_le_iff₀ (by positivity), zpow_natCast]
  refine hle.trans ?_
  rw [← mul_le_mul_iff_left₀ hpos]
  calc (n : ℚ) * pow2 (-e) ≤ m * 10 ^ places := hn
    _ = (m : ℚ) * 2 ^ e * pow2 (-e) * 10 ^ places := by rw [hval]
    _ = (m : ℚ) * 2 ^ e * 10 ^ places * pow2 (-e) := by ring

theorem zpow_leadingExponent_le (h : Regular m e) (hm : 0 < m) :
    (10 : ℚ) ^ leadingExponent m e ≤ m * 2 ^ e := by
  rw [leadingExponent]
  split
  · rename_i he
    have hz : (-e).toNat = 0 := by omega
    have h2 := pow2_eq e
    rw [show pow2 (-e) = 1 by rw [pow2, hz], Nat.cast_one, mul_one] at h2
    have hle := zpow_le_of_digitCount (Nat.mul_pos hm (pow2_pos e))
    rw [Nat.cast_mul, h2] at hle
    exact hle
  · exact zpow_le_of_places h hm (by omega) (by decide)

theorem dropZeros_value (n : Nat) (q : Int) :
    ((dropZeros n q).digits : ℚ) * 10 ^ (dropZeros n q).exponent = n * 10 ^ q := by
  fun_induction dropZeros n q with
  | case1 n q h ih =>
      have hn : n = n / 10 * 10 := by omega
      rw [ih, zpow_add_one₀ (by norm_num)]
      conv_rhs => rw [hn]
      push_cast
      ring
  | case2 n q h => rfl

/-- The shortest digits of a double round to it. -/
theorem rounds_shortest (tie : Tie) (h : Regular m e) (hm : 0 < m) :
    Rounds m e ((shortest tie m e).digits * 10 ^ (shortest tie m e).exponent) := by
  rw [shortest]
  generalize hattempt : (fun k : Nat => (gridPoint tie m e (leadingExponent m e - k)).map fun c =>
    dropZeros c (leadingExponent m e - k)) = attempt
  have hlast : (attempt 16).isSome = true := by
    rw [← hattempt, Option.isSome_map]
    apply gridPoint_of_fine tie h hm
    rw [← zpow_natCast, ← zpow_add₀ (by norm_num)]
    convert zpow_leadingExponent_le h hm using 2
    push_cast
    ring
  have hsome : ((List.range 17).findSome? attempt).isSome = true := by
    rw [List.findSome?_isSome_iff]
    exact ⟨16, by simp, hlast⟩
  obtain ⟨s, hs⟩ := Option.isSome_iff_exists.mp hsome
  simp only [hs, Option.getD_some]
  obtain ⟨k, -, hk⟩ := List.exists_of_findSome?_eq_some hs
  rw [← hattempt, Option.map_eq_some_iff] at hk
  obtain ⟨c, hc, rfl⟩ := hk
  rw [dropZeros_value]
  exact (inside_iff hm e _ c).mp (inside_of_gridPoint hc)

theorem rounds_pos (hm : 0 < m) (h : Rounds m e v) : 0 < v := by
  have hb : (below m e : ℚ) ≤ 2 := by exact_mod_cast below_le m e
  have hcast : (1 : ℚ) ≤ m := by exact_mod_cast hm
  refine lt_of_lt_of_le ?_ h.low
  have hp : (0 : ℚ) < 2 ^ (e - 2) := by positivity
  exact mul_pos (by linarith) hp

theorem not_rounds_of_mantissa_lt (hlt : m < m') (hv : Rounds m e v) : ¬ Rounds m' e v := by
  intro hv'
  have hb : (below m' e : ℚ) ≤ 2 := by exact_mod_cast below_le m' e
  have hstep : ((4 * m : ℚ) + 2) * 2 ^ (e - 2) ≤ (4 * m' - below m' e) * 2 ^ (e - 2) := by
    have hcast : (m : ℚ) + 1 ≤ m' := by exact_mod_cast hlt
    gcongr
    linarith
  rcases Nat.mod_two_eq_zero_or_one m with heven | hodd
  · rcases Nat.mod_two_eq_zero_or_one m' with heven' | hodd'
    · have hcast : (m : ℚ) + 2 ≤ m' := by exact_mod_cast (show m + 2 ≤ m' by omega)
      have hfar : ((4 * m : ℚ) + 2) * 2 ^ (e - 2) < (4 * m' - below m' e) * 2 ^ (e - 2) := by
        gcongr
        linarith
      linarith [hv.high, hv'.low]
    · linarith [hv.high, (hv'.odd hodd').1]
  · linarith [(hv.odd hodd).2, hv'.low]

theorem Rounds.normal_le (hm : mantissaUnit ≤ m) (hleast : leastExponent ≤ e) (hlt : e < e')
    (hv : Rounds m e' v) :
    (4 * 9007199254740992 - 2 : ℚ) * 2 ^ (e - 2) ≤ v := by
  rw [mantissaUnit] at hm
  have hpow : 2 * (2 : ℚ) ^ (e - 2) ≤ 2 ^ (e' - 2) := by
    calc 2 * (2 : ℚ) ^ (e - 2) = 2 ^ (e - 2 + 1) := by rw [zpow_add_one₀ (by norm_num)]; ring
      _ ≤ 2 ^ (e' - 2) := zpow_le_zpow_right₀ (by norm_num) (by omega)
  have hquarter : (2 * 9007199254740992 - 1 : ℚ) ≤ 4 * m - below m e' := by
    have hnat : 2 * 9007199254740992 + below m e' ≤ 4 * m + 1 := by
      rw [below]
      split
      · omega
      · rename_i hne
        rw [mantissaUnit] at hne
        omega
    have hcast : ((2 * 9007199254740992 + below m e' : Nat) : ℚ) ≤ (4 * m + 1 : Nat) := by
      exact_mod_cast hnat
    push_cast at hcast
    linarith
  calc (4 * 9007199254740992 - 2 : ℚ) * 2 ^ (e - 2)
      = (2 * 9007199254740992 - 1) * (2 * 2 ^ (e - 2)) := by ring
    _ ≤ (4 * m - below m e') * 2 ^ (e' - 2) := by gcongr
    _ ≤ v := hv.low

theorem Rounds.lt_of_lt (hm : m < 2 * mantissaUnit) (hv : Rounds m e v) :
    v < (4 * 9007199254740992 - 2) * 2 ^ (e - 2) := by
  have hm : m < 9007199254740992 := hm
  have hp : (0 : ℚ) < 2 ^ (e - 2) := by positivity
  rcases Nat.mod_two_eq_zero_or_one m with heven | hodd
  · have hcast : (m : ℚ) + 2 ≤ 9007199254740992 := by
      exact_mod_cast (show m + 2 ≤ 9007199254740992 by omega)
    refine lt_of_le_of_lt hv.high ?_
    gcongr
    linarith
  · have hcast : (m : ℚ) + 1 ≤ 9007199254740992 := by exact_mod_cast hm
    refine lt_of_lt_of_le (hv.odd hodd).2 ?_
    gcongr
    linarith

theorem rounds_apart (h : Regular m e) (h' : Regular m' e') (hv : Rounds m e v)
    (hv' : Rounds m' e' v) : ¬ ((e = e' ∧ m < m') ∨ e < e') := by
  rintro (⟨rfl, hlt⟩ | hlt)
  · exact not_rounds_of_mantissa_lt hlt hv hv'
  · have hleast := h.least
    have hnormal : mantissaUnit ≤ m' := h'.normal.resolve_right (by omega)
    exact absurd (hv'.normal_le hnormal hleast hlt) (not_le.mpr (hv.lt_of_lt h.lt))

theorem rounds_unique (h : Regular m e) (h' : Regular m' e') (hv : Rounds m e v)
    (hv' : Rounds m' e' v) : m = m' ∧ e = e' := by
  have hne := rounds_apart h h' hv hv'
  have hne' := rounds_apart h' h hv' hv
  omega

end Parley.Decimal
