import Parley.Time.Instant
import Parley.Decimal.Layout

namespace Parley.Time

def padded (width n : Nat) : List Char :=
  let ds := Decimal.digitsOf n
  Decimal.zeros (width - ds.length : Int) ++ ds

/-- Four digits for the years 0 to 9999, any other year with a sign. -/
def yearText (year : Int) : List Char :=
  if 0 ≤ year ∧ year ≤ 9999 then padded 4 year.toNat
  else (if year < 0 then '-' else '+') :: padded 4 year.natAbs

/-- A fraction of a second in the fewest of 0, 3, 6 and 9 digits. -/
def fractionText (nano : Nat) : List Char :=
  if nano = 0 then []
  else if nano % 1000000 = 0 then '.' :: padded 3 (nano / 1000000)
  else if nano % 1000 = 0 then '.' :: padded 6 (nano / 1000)
  else '.' :: padded 9 nano

def Instant.render (zone : List Char) (t : Instant) : List Char :=
  let d := t.date
  let leap := t.nano / nanosPerSecond
  yearText d.year ++ '-' :: padded 2 d.month ++ '-' :: padded 2 d.day ++
    'T' :: padded 2 (t.second / 3600) ++ ':' :: padded 2 (t.second / 60 % 60) ++
    ':' :: padded 2 (t.second % 60 + leap) ++ fractionText (t.nano % nanosPerSecond) ++ zone

/-- The form of a field that holds a time. -/
def Instant.stamp (t : Instant) : String := String.ofList (t.render ['Z'])

/-- The form of a time inside free content, with the zone as an offset. -/
def Instant.offsetStamp (t : Instant) : String := String.ofList (t.render "+00:00".toList)

end Parley.Time
