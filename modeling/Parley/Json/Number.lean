import Parley.Decimal.Layout

namespace Parley

/-- A number of a document: an integer of 64 bits, signed or not, or a double. -/
inductive Number
  | int (value : Int)
  | float (value : Float)
  deriving DecidableEq

namespace Number

def ofNat (n : Nat) : Number := .int n

def toFloat : Number → Float
  | .int (.ofNat n) => Float.ofNat n
  | .int (.negSucc n) => -Float.ofNat (n + 1)
  | .float x => x

def render : Number → List Char
  | .int i => Decimal.integerText i
  | .float x => Decimal.documentText x

structure Literal where
  negative : Bool
  whole : List Nat
  fraction : Option (List Nat)
  exponent : Option (Bool × List Nat)
  deriving DecidableEq

def significandLimit : Nat := 0x10000000000000000

def exponentLimit : Nat := 0x80000000

/-- Extends a significand by digits until one no longer fits; the digits left out follow. -/
def absorb (significand : Nat) : List Nat → Nat × List Nat
  | [] => (significand, [])
  | d :: ds =>
    if significand * 10 + d < significandLimit then absorb (significand * 10 + d) ds
    else (significand, d :: ds)

def natOfDigits (ds : List Nat) : Nat := ds.foldl (fun n d => n * 10 + d) 0

def tenTo (k : Nat) : Float := Float.ofScientific 1 false k

/-- A significand times a power of ten, by one product or by quotients of at most `10 ^ 308`
each, every one rounded to a double. Too large a value is none. -/
def scale (x : Float) (e : Int) : Option Float :=
  if 0 ≤ e then
    if e ≤ 308 then
      let y := x * tenTo e.toNat
      if y.isInf then none else some y
    else if x == 0 then some x else none
  else if -308 ≤ e then some (x / tenTo (-e).toNat)
  else if x == 0 then some x
  else scale (x / tenTo 308) (e + 308)
termination_by (-e).toNat
decreasing_by omega

namespace Literal

def isInteger (l : Literal) : Bool := l.fraction.isNone && l.exponent.isNone

def sign (l : Literal) (x : Float) : Float := if l.negative then -x else x

/-- Significand and power of ten before the written exponent: digits that do not fit are
dropped, and those of the whole part still count as places. -/
def significand (l : Literal) : Nat × Int :=
  let (s, dropped) := absorb 0 l.whole
  let digits := l.fraction.getD []
  let (s', unread) := absorb s digits
  (s', (dropped.length : Int) - (digits.length - unread.length))

def toFloat? (l : Literal) : Option Float :=
  let (s, places) := l.significand
  match l.exponent with
  | none => (scale (Float.ofNat s) places).map l.sign
  | some (down, ds) =>
    let e := natOfDigits ds
    if exponentLimit ≤ e then
      if s ≠ 0 ∧ ¬ down then none else some (l.sign 0)
    else (scale (Float.ofNat s) (if down then places - e else places + e)).map l.sign

/-- The number that is written, or none if it is beyond every double. Integers that fit are
kept as such; minus zero is a double. -/
def value? (l : Literal) : Option Number :=
  match l.isInteger, absorb 0 l.whole with
  | true, (n, []) =>
    if l.negative then
      if n = 0 ∨ 0x8000000000000000 < n then some (.float (l.sign (Float.ofNat n)))
      else some (.int (-n))
    else some (.int n)
  | _, _ => l.toFloat?.map .float

def splitDigits (cs : List Char) : List Nat × List Char :=
  ((cs.takeWhile Char.isDigit).map fun c => c.toNat - '0'.toNat, cs.dropWhile Char.isDigit)

def readWhole : List Char → Option (List Nat × List Char)
  | '0' :: rest => some ([0], rest)
  | cs =>
    match splitDigits cs with
    | ([], _) => none
    | split => some split

def readFraction : List Char → Option (Option (List Nat) × List Char)
  | '.' :: rest =>
    match splitDigits rest with
    | ([], _) => none
    | (ds, rest) => some (some ds, rest)
  | cs => some (none, cs)

def readExponentDigits (down : Bool) (cs : List Char) : Option (Option (Bool × List Nat)) :=
  match splitDigits cs with
  | (d :: ds, []) => some (some (down, d :: ds))
  | _ => none

def readExponent : List Char → Option (Option (Bool × List Nat))
  | [] => some none
  | c :: rest =>
    if c = 'e' ∨ c = 'E' then
      match rest with
      | '+' :: rest => readExponentDigits false rest
      | '-' :: rest => readExponentDigits true rest
      | rest => readExponentDigits false rest
    else none

def readUnsigned (negative : Bool) (cs : List Char) : Option Literal :=
  match readWhole cs with
  | none => none
  | some (whole, rest) =>
    match readFraction rest with
    | none => none
    | some (fraction, rest) => (readExponent rest).map (⟨negative, whole, fraction, ·⟩)

/-- Reads all of a text as a number: no plus sign, no leading zeros, digits on both sides of
a point. -/
def read : List Char → Option Literal
  | '-' :: rest => readUnsigned true rest
  | cs => readUnsigned false cs

end Literal

end Number

end Parley
