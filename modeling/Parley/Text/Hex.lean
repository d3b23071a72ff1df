namespace Parley.Text

def hexDigits : List Char := "0123456789abcdef".toList

def hexDigit (n : Nat) : Char := hexDigits.getD (n % 16) '0'

def hexDigitUpper (n : Nat) : Char := (hexDigit n).toUpper

/-- The value of a hexadecimal digit of either case. -/
def hexValue? (c : Char) : Option Nat :=
  if '0' ≤ c ∧ c ≤ '9' then some (c.toNat - '0'.toNat)
  else if 'a' ≤ c ∧ c ≤ 'f' then some (c.toNat - 'a'.toNat + 10)
  else if 'A' ≤ c ∧ c ≤ 'F' then some (c.toNat - 'A'.toNat + 10)
  else none

/-- Two lower-case digits for each byte. -/
def hexOfBytes (bytes : List UInt8) : String :=
  String.ofList (bytes.flatMap fun b => [hexDigit (b.toNat / 16), hexDigit b.toNat])

theorem hexDigit_mod (n : Nat) : hexDigit n = hexDigit (n % 16) := by
  rw [hexDigit, hexDigit, Nat.mod_mod]

theorem hexValue?_hexDigit : ∀ n < 16, hexValue? (hexDigit n) = some n := by decide

theorem hexValue?_hexDigitUpper : ∀ n < 16, hexValue? (hexDigitUpper n) = some n := by decide

end Parley.Text
