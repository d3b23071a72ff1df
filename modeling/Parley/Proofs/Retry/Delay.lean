import Mathlib.Tactic.Ring
import Parley.Retry

namespace Parley.Retry

def plus? (a b : UInt64) : Option UInt64 :=
  if a.toNat + b.toNat < UInt64.size then some (a + b) else none

def minus? (a b : UInt64) : Option UInt64 := if b.toNat ≤ a.toNat then some (a - b) else none

def times? (a b : UInt64) : Option UInt64 :=
  if a.toNat * b.toNat < UInt64.size then some (a * b) else none

/-- A word moved to the left, if it is moved by less than its length and no bit is lost. -/
def moved? (a k : UInt64) : Option UInt64 :=
  if k.toNat < 64 ∧ a.toNat * 2 ^ k.toNat < UInt64.size then some (a <<< k) else none

def rest? (a b : UInt64) : Option UInt64 := if b = 0 then none else some (a % b)

variable {a b : UInt64} {m n : Nat}

theorem plus?_spec (ha : a.toNat = m) (hb : b.toNat = n) (h : m + n < UInt64.size) :
    plus? a b = some (a + b) ∧ (a + b).toNat = m + n := by
  subst ha hb
  exact ⟨if_pos h, (UInt64.toNat_add a b).trans (Nat.mod_eq_of_lt h)⟩

theorem minus?_spec (ha : a.toNat = m) (hb : b.toNat = n) (h : n ≤ m) :
    minus? a b = some (a - b) ∧ (a - b).toNat = m - n := by
  subst ha hb
  exact ⟨if_pos h, UInt64.toNat_sub_of_le a b (UInt64.le_iff_toNat_le.mpr h)⟩

theorem times?_spec (ha : a.toNat = m) (hb : b.toNat = n) (h : m * n < UInt64.size) :
    times? a b = some (a * b) ∧ (a * b).toNat = m * n := by
  subst ha hb
  exact ⟨if_pos h, (UInt64.toNat_mul a b).trans (Nat.mod_eq_of_lt h)⟩

theorem moved?_spec (ha : a.toNat = m) (hb : b.toNat = n) (hn : n < 64)
    (h : m * 2 ^ n < UInt64.size) :
    moved? a b = some (a <<< b) ∧ (a <<< b).toNat = m * 2 ^ n := by
  subst ha hb
  refine ⟨if_pos ⟨hn, h⟩, ?_⟩
  rw [UInt64.toNat_shiftLeft, Nat.mod_eq_of_lt hn, Nat.shiftLeft_eq]
  exact Nat.mod_eq_of_lt h

theorem rest?_spec (ha : a.toNat = m) (hb : b.toNat = n) (h : 0 < n) :
    rest? a b = some (a % b) ∧ (a % b).toNat = m % n := by
  subst ha hb
  refine ⟨if_neg ?_, UInt64.toNat_mod a b⟩
  rintro rfl
  exact absurd h (lt_irrefl 0)

theorem toNat_min (a b : UInt64) : (min a b).toNat = min a.toNat b.toNat := by
  change (if a ≤ b then a else b).toNat = _
  split <;> rename_i h <;> rw [UInt64.le_iff_toNat_le] at h <;> omega

namespace Config

variable (c : Config) (attempt : UInt32) (quarter : UInt64)

/-- The delay before spreading, if no step of its computation overflows. The product with the base
is one that stops at the greatest word. -/
def capped? : Option UInt64 := do
  let factor ← moved? 1 (min attempt 10).toUInt64
  some (min (saturatingMul c.baseMillis factor) c.maxMillis)

def offset? : Option UInt64 := do
  rest? (← plus? (← times? attempt.toUInt64 7) 3) (← plus? (← times? quarter 2) 1)

def delay? : Option UInt64 := do
  let d ← c.capped? attempt
  let quarter := d / 4
  if 0 < quarter then plus? (← minus? d quarter) (← offset? attempt quarter) else some d

/-- The delay before spreading, as a number without bounds. -/
def cap : Nat := min (c.baseMillis.toNat * 2 ^ min attempt.toNat 10) c.maxMillis.toNat

theorem toNat_saturatingMul (a b : UInt64) :
    (saturatingMul a b).toNat = min (a.toNat * b.toNat) (UInt64.size - 1) := by
  rw [saturatingMul]
  split
  · rename_i h
    rw [(times?_spec rfl rfl h).2, UInt64.size]
    omega
  · change 18446744073709551615 = min _ 18446744073709551615
    omega

theorem moved?_one : moved? 1 (min attempt 10).toUInt64 = some (1 <<< (min attempt 10).toUInt64) ∧
    ((1 : UInt64) <<< (min attempt 10).toUInt64).toNat = 2 ^ min attempt.toNat 10 := by
  have hk : (min attempt 10).toUInt64.toNat = min attempt.toNat 10 := by
    change (if attempt ≤ 10 then attempt else 10).toNat = min attempt.toNat (10 : UInt32).toNat
    split <;> rename_i h <;> rw [UInt32.le_iff_toNat_le] at h <;> omega
  have hpow : 2 ^ min attempt.toNat 10 ≤ 2 ^ 10 := Nat.pow_le_pow_right (by decide) (by omega)
  have hspec := moved?_spec (show (1 : UInt64).toNat = 1 from rfl) hk (by omega)
  rw [Nat.one_mul] at hspec
  exact hspec (hpow.trans_lt (by decide))

/-- A product that stops at the greatest word is cut off by the maximum all the same. -/
theorem capped?_eq : c.capped? attempt = some (c.capped attempt) ∧
    (c.capped attempt).toNat = c.cap attempt := by
  obtain ⟨hmoved, hfactor⟩ := moved?_one attempt
  have hmax := c.maxMillis.toNat_lt_size
  refine ⟨by rw [capped?, hmoved]; rfl, ?_⟩
  rw [capped, toNat_min, toNat_saturatingMul, hfactor, cap]
  omega

theorem offset?_eq (h : quarter.toNat ≤ UInt64.size / 4) :
    offset? attempt quarter = some ((attempt.toUInt64 * 7 + 3) % (quarter * 2 + 1)) ∧
      ((attempt.toUInt64 * 7 + 3) % (quarter * 2 + 1)).toNat =
        (attempt.toNat * 7 + 3) % (quarter.toNat * 2 + 1) := by
  have hattempt := attempt.toNat_lt_size
  rw [UInt32.size] at hattempt
  have hsize : UInt64.size = 18446744073709551616 := rfl
  obtain ⟨htimes, hproduct⟩ := times?_spec attempt.toNat_toUInt64
    (show (7 : UInt64).toNat = 7 from rfl) (by omega)
  obtain ⟨hplus, hsum⟩ := plus?_spec hproduct (show (3 : UInt64).toNat = 3 from rfl) (by omega)
  obtain ⟨htwice, hdouble⟩ := times?_spec (a := quarter) rfl
    (show (2 : UInt64).toNat = 2 from rfl) (by omega)
  obtain ⟨hnext, hrange⟩ := plus?_spec hdouble (show (1 : UInt64).toNat = 1 from rfl) (by omega)
  simp only [offset?, htimes, hplus, htwice, hnext, Option.bind_eq_bind, Option.bind_some]
  exact rest?_spec hsum hrange (Nat.succ_pos _)

theorem delay?_eq : c.delay? attempt = some (c.delay attempt) ∧
    (c.delay attempt).toNat = c.cap attempt - c.cap attempt / 4 +
      (attempt.toNat * 7 + 3) % (c.cap attempt / 4 * 2 + 1) := by
  obtain ⟨hcapped, hcap⟩ := c.capped?_eq attempt
  have hlt := (c.capped attempt).toNat_lt_size
  have hattempt := attempt.toNat_lt_size
  rw [hcap, UInt64.size] at hlt
  rw [UInt32.size] at hattempt
  have hquarter : (c.capped attempt / 4).toNat = c.cap attempt / 4 := by
    rw [UInt64.toNat_div, hcap]
    rfl
  obtain ⟨hoffset, hvalue⟩ := offset?_eq attempt (c.capped attempt / 4)
    (by rw [hquarter, UInt64.size]; omega)
  rw [hquarter] at hvalue
  obtain ⟨hminus, hless⟩ := minus?_spec hcap hquarter (Nat.div_le_self _ _)
  simp only [delay?, hcapped, hminus, hoffset, Option.bind_eq_bind, Option.bind_some, delay]
  split
  · -- Two quarters may be too much for a word. But an offset is no more than the number that it is
    -- the rest of, which 35 bits hold, so where the cap is near the greatest word it is far less.
    have hsmall := Nat.mod_le (attempt.toNat * 7 + 3) (c.cap attempt / 4 * 2 + 1)
    exact plus?_spec hless hvalue (by rw [UInt64.size]; omega)
  · rename_i h
    rw [UInt64.lt_iff_toNat_lt, hquarter] at h
    have hzero : c.cap attempt / 4 = 0 := Nat.eq_zero_of_not_pos h
    refine ⟨rfl, ?_⟩
    rw [hzero, hcap, Nat.zero_mul, Nat.zero_add, Nat.mod_one, Nat.sub_zero, Nat.add_zero]

/-- No step of the computation leaves the words, and a delay is within a quarter of the cap. -/
theorem delay_within_quarter : c.delay? attempt = some (c.delay attempt) ∧
    c.cap attempt - c.cap attempt / 4 ≤ (c.delay attempt).toNat ∧
    (c.delay attempt).toNat ≤ c.cap attempt + c.cap attempt / 4 := by
  obtain ⟨hsteps, hvalue⟩ := c.delay?_eq attempt
  have hoffset := Nat.mod_lt (attempt.toNat * 7 + 3)
    (show 0 < c.cap attempt / 4 * 2 + 1 from Nat.succ_pos _)
  refine ⟨hsteps, ?_, ?_⟩
  · rw [hvalue]
    exact Nat.le_add_right _ _
  · omega

end Config

end Parley.Retry
