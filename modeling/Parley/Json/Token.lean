import Parley.Json.Number
import Parley.Text.Hex

namespace Parley.Json

/-- A token of a document. A text whose escapes name half of a surrogate pair has no
characters. -/
inductive Token
  | openArray
  | closeArray
  | openObject
  | closeObject
  | comma
  | colon
  | null
  | bool (value : Bool)
  | number (literal : Number.Literal)
  | text (value : Option String)
  deriving DecidableEq

namespace Token

/-- The text read so far between two quotes, last character first; `high` is a first half of
a surrogate pair that waits for its second. -/
structure Quoted where
  chars : List Char := []
  high : Option Nat := none
  sound : Bool := true

namespace Quoted

def settle (q : Quoted) : Quoted := ⟨q.chars, none, q.sound && q.high.isNone⟩

def push (q : Quoted) (c : Char) : Quoted := { q.settle with chars := c :: q.chars }

def isHigh (n : Nat) : Bool := 0xD800 ≤ n && n < 0xDC00

def isLow (n : Nat) : Bool := 0xDC00 ≤ n && n < 0xE000

def pushUnit (q : Quoted) (n : Nat) : Quoted :=
  if isHigh n then { q.settle with high := some n }
  else if isLow n then
    match q.high with
    | some h =>
      let c := Char.ofNat (0x10000 + (h - 0xD800) * 0x400 + (n - 0xDC00))
      ⟨c :: q.chars, none, q.sound⟩
    | none => { q with sound := false }
  else q.push (Char.ofNat n)

def value (q : Quoted) : Option String :=
  if q.settle.sound then some (String.ofList q.chars.reverse) else none

end Quoted

inductive Mode
  | between
  | word (chars : List Char)
  | number (chars : List Char)
  | quoted (text : Quoted)
  | escaped (text : Quoted)
  | unit (text : Quoted) (count value : Nat)

/-- Tokens already read, last first, and the one being read. -/
structure Scan where
  tokens : List Token := []
  mode : Mode := .between

def isSpace (c : Char) : Bool := c = ' ' ∨ c = '\t' ∨ c = '\n' ∨ c = '\r'

def isNumberChar (c : Char) : Bool := c.isDigit ∨ c = '-' ∨ c = '+' ∨ c = '.' ∨ c = 'e' ∨ c = 'E'

def ofWord (chars : List Char) : Option Token :=
  if chars = "null".toList then some .null
  else if chars = "true".toList then some (.bool true)
  else if chars = "false".toList then some (.bool false)
  else none

def punctuation (c : Char) : Option Token :=
  if c = '[' then some .openArray
  else if c = ']' then some .closeArray
  else if c = '\x7b' then some .openObject
  else if c = '\x7d' then some .closeObject
  else if c = ',' then some .comma
  else if c = ':' then some .colon
  else none

def unescape (c : Char) : Option Char :=
  if c = '"' ∨ c = '\\' ∨ c = '/' then some c
  else if c = 'b' then some (Char.ofNat 8)
  else if c = 'f' then some (Char.ofNat 12)
  else if c = 'n' then some '\n'
  else if c = 'r' then some '\r'
  else if c = 't' then some '\t'
  else none

def start (tokens : List Token) (c : Char) : Option Scan :=
  if isSpace c then some ⟨tokens, .between⟩
  else if c = '"' then some ⟨tokens, .quoted ⟨[], none, true⟩⟩
  else if c = '-' ∨ c.isDigit then some ⟨tokens, .number [c]⟩
  else if c.isLower then some ⟨tokens, .word [c]⟩
  else (punctuation c).map fun t => ⟨t :: tokens, .between⟩

/-- Ends a word or a number; a text that is still open has no end. -/
def finish (s : Scan) : Option (List Token) :=
  match s.mode with
  | .between => some s.tokens
  | .word chars => (ofWord chars.reverse).map (· :: s.tokens)
  | .number chars => (Number.Literal.read chars.reverse).map (.number · :: s.tokens)
  | _ => none

def next (s : Scan) (c : Char) : Option Scan :=
  match s.mode with
  | .between => start s.tokens c
  | .word chars =>
    if c.isLower then some ⟨s.tokens, .word (c :: chars)⟩
    else (finish s).bind (start · c)
  | .number chars =>
    if isNumberChar c then some ⟨s.tokens, .number (c :: chars)⟩
    else (finish s).bind (start · c)
  | .quoted q =>
    if c = '"' then some ⟨.text q.value :: s.tokens, .between⟩
    else if c = '\\' then some ⟨s.tokens, .escaped q⟩
    else if c.toNat < 32 then none
    else some ⟨s.tokens, .quoted (q.push c)⟩
  | .escaped q =>
    if c = 'u' then some ⟨s.tokens, .unit q 0 0⟩
    else (unescape c).map fun c => ⟨s.tokens, .quoted (q.push c)⟩
  | .unit q count value =>
    (Text.hexValue? c).map fun d =>
      if count = 3 then ⟨s.tokens, .quoted (q.pushUnit (value * 16 + d))⟩
      else ⟨s.tokens, .unit q (count + 1) (value * 16 + d)⟩

def scan (cs : List Char) : Option (List Token) :=
  ((cs.foldlM next ⟨[], .between⟩).bind finish).map List.reverse

end Token

end Parley.Json
