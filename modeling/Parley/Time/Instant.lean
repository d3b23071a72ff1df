import Parley.Time.Calendar

namespace Parley.Time

def secondsPerDay : Nat := 86400

def nanosPerSecond : Nat := 1000000000

/-- A moment in UTC. A leap second is written as further nanoseconds of the second before
it, which then reach up to two seconds. -/
structure Instant where
  day : Int
  second : Nat
  nano : Nat
  deriving DecidableEq

namespace Instant

def leastYear : Int := -262143

def greatestYear : Int := 262142

def inRange (day : Int) : Bool :=
  Date.toDays ⟨leastYear, 1, 1⟩ ≤ day && day ≤ Date.toDays ⟨greatestYear, 12, 31⟩

def date (t : Instant) : Date := Date.ofDays t.day

def le (a b : Instant) : Bool :=
  a.day < b.day ||
    (a.day = b.day && (a.second < b.second || (a.second = b.second && a.nano ≤ b.nano)))

/-- Whole seconds of the day from `a` to `b`; a leap second counts for the one of them that
stands later in the day. -/
def daySeconds (a b : Instant) : Int :=
  let between := (b.second : Int) - a.second
  if a.second < b.second ∧ nanosPerSecond ≤ a.nano then between + 1
  else if b.second < a.second ∧ nanosPerSecond ≤ b.nano then between - 1
  else between

def nanosSince (b a : Instant) : Int :=
  ((b.day - a.day) * secondsPerDay + daySeconds a b) * nanosPerSecond + (b.nano - a.nano)

/-- Milliseconds from `a` to `b`, a part of one dropped. -/
def millisSince (b a : Instant) : Int := Int.tdiv (b.nanosSince a) 1000000

/-- A moment told by a clock that stands `offset` seconds before UTC. -/
def ofLocal? (date : Date) (second nano : Nat) (offset : Int) : Option Instant :=
  let total := (second : Int) - offset
  let day := date.toDays + total / secondsPerDay
  if inRange date.toDays && inRange day then
    some ⟨day, (total % secondsPerDay).toNat, nano⟩
  else none

end Instant

end Parley.Time
