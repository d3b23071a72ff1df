namespace Parley.Decimal

/-- What a double stands for: a finite one is `mantissa * 2 ^ exponent` with its sign. -/
inductive Shape
  | nan
  | infinite (negative : Bool)
  | finite (negative : Bool) (mantissa : Nat) (exponent : Int)
  deriving DecidableEq

def mantissaUnit : Nat := 0x10000000000000

def leastExponent : Int := -1074

def Shape.ofFloat (x : Float) : Shape :=
  let bits := x.toBits.toNat
  let negative := 0x8000000000000000 ≤ bits
  let field := bits / mantissaUnit % 2048
  let fraction := bits % mantissaUnit
  if field = 2047 then if fraction = 0 then .infinite negative else .nan
  else if field = 0 then .finite negative fraction leastExponent
  else .finite negative (mantissaUnit + fraction) (field - 1075)

def pow2 (e : Int) : Nat := Nat.pow 2 e.toNat

def pow10 (e : Int) : Nat := Nat.pow 10 e.toNat

/-- The nearest integer, a half away from zero; the sign of a zero is kept. -/
def roundHalfAway (x : Float) : Float :=
  match Shape.ofFloat x with
  | .finite negative m e =>
    if 0 ≤ e then x
    else
      let unit := pow2 (-e)
      let n := Float.ofNat ((2 * m + unit) / (2 * unit))
      if negative then -n else n
  | _ => x

def roundHundredths (x : Float) : Float := roundHalfAway (x * 100.0) / 100.0

end Parley.Decimal
