namespace Parley.Time

/-- A day of the proleptic Gregorian calendar. -/
structure Date where
  year : Int
  month : Nat
  day : Nat
  deriving DecidableEq

def isLeap (year : Int) : Bool := year % 4 = 0 && (year % 100 != 0 || year % 400 = 0)

def monthLengths (year : Int) : List Nat :=
  [31, if isLeap year then 29 else 28, 31, 30, 31, 30, 31, 31, 30, 31, 30, 31]

def daysInMonth (year : Int) (month : Nat) : Nat := (monthLengths year).getD (month - 1) 0

def daysBeforeYear (year : Int) : Int :=
  365 * year + (year + 3) / 4 - (year + 99) / 100 + (year + 399) / 400

def daysBeforeMonth (year : Int) (month : Nat) : Nat :=
  ((monthLengths year).take (month - 1)).foldr (· + ·) 0

/-- Days since the first of January of the year zero. -/
def Date.toDays (d : Date) : Int :=
  daysBeforeYear d.year + daysBeforeMonth d.year d.month + d.day - 1

def Date.valid (d : Date) : Bool :=
  1 ≤ d.month && d.month ≤ 12 && 1 ≤ d.day && d.day ≤ daysInMonth d.year d.month

def monthOf : List Nat → Nat → Nat → Nat × Nat
  | [], month, rest => (month, rest + 1)
  | length :: lengths, month, rest =>
    if rest < length then (month, rest + 1) else monthOf lengths (month + 1) (rest - length)

def yearOf (days : Int) : Int :=
  let guess := days * 400 / 146097
  if daysBeforeYear (guess + 1) ≤ days then guess + 1
  else if days < daysBeforeYear guess then guess - 1
  else guess

def Date.ofDays (days : Int) : Date :=
  let year := yearOf days
  let (month, day) := monthOf (monthLengths year) 1 (days - daysBeforeYear year).toNat
  ⟨year, month, day⟩

end Parley.Time
