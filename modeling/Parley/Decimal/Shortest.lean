import Parley.Decimal.Binary

namespace Parley.Decimal

inductive Tie
  | toEven
  | up
  deriving DecidableEq

structure Scientific where
  digits : Nat
  exponent : Int
  deriving DecidableEq

def digitCount (n : Nat) : Nat := (Nat.toDigits 10 n).length

def leadingExponent (m : Nat) (e : Int) : Int :=
  if 0 ≤ e then (digitCount (m * pow2 e) : Int) - 1
  else (digitCount (m * Nat.pow 10 400 / pow2 (-e)) : Int) - 401

/-- The point of the grid `10 ^ q` that reads back as `m * 2 ^ e`: a neighbour of the value
inside the interval that rounds to it, the nearer one if both are. -/
def gridPoint (tie : Tie) (m : Nat) (e q : Int) : Option Nat :=
  let scaled k := k * pow2 (e - 2) * pow10 (-q)
  let unit := pow10 q * pow2 (2 - e)
  let below := if m = mantissaUnit ∧ leastExponent < e then 1 else 2
  let low := scaled (4 * m - below)
  let value := scaled (4 * m)
  let high := scaled (4 * m + 2)
  let inside k :=
    if m % 2 = 0 then decide (low ≤ k * unit ∧ k * unit ≤ high)
    else decide (low < k * unit ∧ k * unit < high)
  let c := value / unit
  match inside c, inside (c + 1) with
  | true, false => some c
  | false, true => some (c + 1)
  | false, false => none
  | true, true =>
    let down := value - c * unit
    let up := (c + 1) * unit - value
    if down < up then some c
    else if up < down then some (c + 1)
    else match tie with
      | .up => some (c + 1)
      | .toEven => some (if c % 2 = 0 then c else c + 1)

def dropZeros (n : Nat) (q : Int) : Scientific :=
  if 0 < n ∧ n % 10 = 0 then dropZeros (n / 10) (q + 1) else ⟨n, q⟩
termination_by n
decreasing_by omega

/-- The fewest digits that read back as `m * 2 ^ e`, and of those the nearest. -/
def shortest (tie : Tie) (m : Nat) (e : Int) : Scientific :=
  let top := leadingExponent m e
  let attempt (k : Nat) := (gridPoint tie m e (top - k)).map fun c => dropZeros c (top - k)
  ((List.range 17).findSome? attempt).getD ⟨0, 0⟩

end Parley.Decimal
