import Parley.Text.Blank
import Parley.Text.Hex

namespace Parley.Broker

/-- What a token of a subject cannot hold, and the mark of an escape itself. -/
def isReserved (c : Char) : Bool :=
  c = '.' || c = '*' || c = '>' || c = '%' || Text.isBlank c

def escapeByte (b : UInt8) : List Char :=
  ['%', Text.hexDigitUpper (b.toNat / 16), Text.hexDigitUpper b.toNat]

def escape (c : Char) : List Char :=
  if isReserved c then (String.utf8EncodeChar c).flatMap escapeByte else [c]

def token (tenant : String) : List Char := tenant.toList.flatMap escape

def tokenBytes : List Char → Option (List UInt8)
  | [] => some []
  | '%' :: a :: b :: rest =>
    match Text.hexValue? a, Text.hexValue? b, tokenBytes rest with
    | some a, some b, some bytes => some (UInt8.ofNat (a * 16 + b) :: bytes)
    | _, _, _ => none
  | c :: rest =>
    if c = '%' then none else (tokenBytes rest).map (String.utf8EncodeChar c ++ ·)

def tokenTenant? (token : List Char) : Option String :=
  (tokenBytes token).bind fun bytes => String.fromUTF8? ⟨bytes.toArray⟩

end Parley.Broker
