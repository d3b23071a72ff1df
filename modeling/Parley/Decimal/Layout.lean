import Parley.Decimal.Shortest

namespace Parley.Decimal

def digitsOf (n : Nat) : List Char := Nat.toDigits 10 n

def natText (n : Nat) : String := String.ofList (digitsOf n)

def zeros (n : Int) : List Char := List.replicate n.toNat '0'

def signed (negative : Bool) (cs : List Char) : List Char := if negative then '-' :: cs else cs

def integerText (i : Int) : List Char := signed (i < 0) (digitsOf i.natAbs)

/-- Positional digits; `fraction` is written after an integer. -/
def positional (fraction : List Char) (s : Scientific) : List Char :=
  let ds := digitsOf s.digits
  if 0 ≤ s.exponent then ds ++ zeros s.exponent ++ fraction
  else
    let point := (ds.length : Int) + s.exponent
    if 0 < point then ds.take point.toNat ++ '.' :: ds.drop point.toNat
    else '0' :: '.' :: zeros (-point) ++ ds

def exponential (s : Scientific) : List Char :=
  let ds := digitsOf s.digits
  let lead := (ds.length : Int) - 1 + s.exponent
  ds.take 1 ++ (if ds.length = 1 then [] else '.' :: ds.drop 1) ++
    'e' :: (if lead < 0 then '-' else '+') :: digitsOf lead.natAbs

/-- A float in a document: positional while the leading digit stands between `10 ^ -5` and
`10 ^ 15`, and always with a point or an exponent. What is not finite has no number. -/
def documentText (x : Float) : List Char :=
  match Shape.ofFloat x with
  | .finite negative 0 _ => signed negative "0.0".toList
  | .finite negative m e =>
    let s := shortest .toEven m e
    let lead := (digitCount s.digits : Int) - 1 + s.exponent
    signed negative
      (if -5 ≤ lead ∧ lead ≤ 15 then positional ['.', '0'] s else exponential s)
  | _ => "null".toList

def unboundedText : Shape → Option (List Char)
  | .nan => some "NaN".toList
  | .infinite negative => some (signed negative "inf".toList)
  | .finite .. => none

/-- A float inside a sentence: never an exponent, and an integer without a point. -/
def plainText (x : Float) : String :=
  match Shape.ofFloat x with
  | .finite negative 0 _ => String.ofList (signed negative ['0'])
  | .finite negative m e => String.ofList (signed negative (positional [] (shortest .up m e)))
  | s => String.ofList ((unboundedText s).getD [])

def roundHalfEven (num den : Nat) : Nat :=
  let q := num / den
  let r := num % den
  if 2 * r < den then q
  else if den < 2 * r then q + 1
  else if q % 2 = 0 then q else q + 1

def placesText (places n : Nat) : List Char :=
  if places = 0 then digitsOf n
  else
    let ds := digitsOf (n % Nat.pow 10 places)
    digitsOf (n / Nat.pow 10 places) ++ '.' :: (zeros (places - ds.length : Int) ++ ds)

/-- The exact value rounded to a fixed number of places; the sign of a zero is kept. -/
def fixedText (places : Nat) (x : Float) : String :=
  match Shape.ofFloat x with
  | .finite negative m e =>
    let n := roundHalfEven (m * pow2 e * Nat.pow 10 places) (pow2 (-e))
    String.ofList (signed negative (placesText places n))
  | s => String.ofList ((unboundedText s).getD [])

end Parley.Decimal
