import Parley.Time.Instant
import Parley.Text.Blank

namespace Parley.Time

structure Parts where
  date : Date
  hour : Nat
  minute : Nat
  second : Nat
  nano : Nat
  offset : Int

/-- The moment, if its date and time of day exist; the second 60 is a leap second. -/
def Parts.toInstant? (p : Parts) : Option Instant :=
  if p.date.valid && p.hour < 24 && p.minute < 60 && p.second ≤ 60 &&
      p.offset.natAbs < secondsPerDay then
    let leap := p.second = 60
    Instant.ofLocal? p.date (p.hour * 3600 + p.minute * 60 + if leap then 59 else p.second)
      (p.nano + if leap then nanosPerSecond else 0) p.offset
  else none

def digitValue (c : Char) : Nat := c.toNat - '0'.toNat

def natOf (cs : List Char) : Nat := cs.foldl (fun n c => n * 10 + digitValue c) 0

def leadingDigits : Nat → List Char → List Char
  | most + 1, c :: rest => if c.isDigit then c :: leadingDigits most rest else []
  | _, _ => []

def number (least most : Nat) (cs : List Char) : Option (Nat × List Char) :=
  let ds := leadingDigits most cs
  if least ≤ ds.length then some (natOf ds, cs.drop ds.length) else none

def exactly (c : Char) : List Char → Option (List Char)
  | [] => none
  | d :: rest => if d = c then some rest else none

/-- A fraction after a point, to nine digits; further digits are passed over. -/
def fraction : List Char → Option (Nat × List Char)
  | '.' :: rest =>
    let ds := leadingDigits 9 rest
    if ds = [] then none
    else some (natOf ds * Nat.pow 10 (9 - ds.length), rest.dropWhile Char.isDigit)
  | cs => some (0, cs)

def separator : List Char → Option (List Char)
  | c :: rest => if c = 'T' ∨ c = 't' ∨ c = ' ' then some rest else none
  | [] => none

/-- An offset of a sign, two digits of hours, what `between` passes over, and two of minutes;
or the letter Z. -/
def zone (between : List Char → Option (List Char)) : List Char → Option (Int × List Char)
  | [] => none
  | c :: rest =>
    if c = 'Z' ∨ c = 'z' then some (0, rest)
    else if c = '+' ∨ c = '-' ∨ c = '\u2212' then
      match number 2 2 rest with
      | none => none
      | some (hours, rest) =>
        match (between rest).bind (number 2 2) with
        | none => none
        | some (minutes, rest) =>
          if minutes < 60 then
            let seconds : Int := hours * 3600 + minutes * 60
            some (if c = '+' then seconds else -seconds, rest)
          else none
    else none

/-- Reads the strict form: two-digit fields, a year of four digits, and nothing after the
zone. -/
def readStrict (text : String) : Option Instant := do
  let (year, cs) ← number 4 4 text.toList
  let cs ← exactly '-' cs
  let (month, cs) ← number 2 2 cs
  let cs ← exactly '-' cs
  let (day, cs) ← number 2 2 cs
  let cs ← separator cs
  let (hour, cs) ← number 2 2 cs
  let cs ← exactly ':' cs
  let (minute, cs) ← number 2 2 cs
  let cs ← exactly ':' cs
  let (second, cs) ← number 2 2 cs
  let (nano, cs) ← fraction cs
  let (offset, cs) ← zone (exactly ':') cs
  if cs = [] then Parts.toInstant? ⟨⟨year, month, day⟩, hour, minute, second, nano, offset⟩
  else none

/-- A year of up to four digits, or of any number of digits after a sign. -/
def looseYear (cs : List Char) : Option (Int × List Char) :=
  match Text.skipBlanks cs with
  | '-' :: rest => (number 1 rest.length rest).map fun (n, cs) => (-n, cs)
  | '+' :: rest => (number 1 rest.length rest).map fun (n, cs) => (n, cs)
  | cs => (number 1 4 cs).map fun (n, cs) => (n, cs)

def looseNumber (cs : List Char) : Option (Nat × List Char) := number 1 2 (Text.skipBlanks cs)

def looseMark (c : Char) (cs : List Char) : Option (List Char) := exactly c (Text.skipBlanks cs)

def looseZone (cs : List Char) : Option (Int × List Char) :=
  let cs := Text.skipBlanks cs
  if (cs.take 3).map Char.toUpper = ['U', 'T', 'C'] then some (0, cs.drop 3)
  else zone (fun cs => some (cs.dropWhile fun c => c = ':' || Text.isBlank c)) cs

/-- Reads the loose form: fields of one or two digits, blanks before each part, and `UTC` for
a zone. -/
def readLoose (text : String) : Option Instant := do
  let (year, cs) ← looseYear text.toList
  let cs ← looseMark '-' cs
  let (month, cs) ← looseNumber cs
  let cs ← looseMark '-' cs
  let (day, cs) ← looseNumber cs
  let cs ← separator cs
  let (hour, cs) ← looseNumber cs
  let cs ← looseMark ':' cs
  let (minute, cs) ← looseNumber cs
  let cs ← looseMark ':' cs
  let (second, cs) ← looseNumber cs
  let (nano, cs) ← fraction cs
  let (offset, cs) ← looseZone cs
  if (Text.skipBlanks cs).isEmpty then
    Parts.toInstant? ⟨⟨year, month, day⟩, hour, minute, second, nano, offset⟩
  else none

end Parley.Time
