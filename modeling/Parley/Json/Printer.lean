import Parley.Json.Basic
import Parley.Text.Hex

namespace Parley.Json

def escape (c : Char) : List Char :=
  if c = '"' then ['\\', '"']
  else if c = '\\' then ['\\', '\\']
  else if c.toNat = 8 then ['\\', 'b']
  else if c.toNat = 12 then ['\\', 'f']
  else if c = '\n' then ['\\', 'n']
  else if c = '\r' then ['\\', 'r']
  else if c = '\t' then ['\\', 't']
  else if c.toNat < 32 then
    ['\\', 'u', '0', '0', Text.hexDigit (c.toNat / 16), Text.hexDigit c.toNat]
  else [c]

def quoted (s : String) : List Char := '"' :: (s.toList.flatMap escape ++ ['"'])

mutual

def render : Json → List Char
  | .null => "null".toList
  | .bool true => "true".toList
  | .bool false => "false".toList
  | .num n => n.render
  | .str s => quoted s
  | .arr [] => ['[', ']']
  | .arr (v :: rest) => '[' :: (render v ++ renderItems rest)
  | .obj [] => ['\x7b', '\x7d']
  | .obj ((key, v) :: rest) => '\x7b' :: (quoted key ++ ':' :: (render v ++ renderMembers rest))

def renderItems : List Json → List Char
  | [] => [']']
  | v :: rest => ',' :: (render v ++ renderItems rest)

def renderMembers : List (String × Json) → List Char
  | [] => ['\x7d']
  | (key, v) :: rest => ',' :: (quoted key ++ ':' :: (render v ++ renderMembers rest))

end

/-- The one text of a value: compact, and with the keys of every object sorted. -/
def canonical (v : Json) : String := String.ofList v.sorted.render

def escapeBreak (c : Char) : List Char :=
  if c.toNat = 0x85 then "\\u0085".toList
  else if c.toNat = 0x2028 then "\\u2028".toList
  else if c.toNat = 0x2029 then "\\u2029".toList
  else [c]

def line (v : Json) : String := String.ofList (v.canonical.toList.flatMap escapeBreak)

end Parley.Json
