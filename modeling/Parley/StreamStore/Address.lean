import Parley.StreamStore.Config
import Parley.Text.Hex

namespace Parley.StreamStore

namespace Address

def schemes : List String := ["redis", "rediss", "redis+unix", "unix"]

/-- Blanks and control characters around an address do not count, nor line breaks and tabs
inside it. -/
def cleaned (text : String) : List Char :=
  let outside (cs : List Char) := cs.dropWhile fun c => c.toNat ≤ 32
  (outside (outside text.toList).reverse).reverse.filter fun c => c ∉ ['\t', '\n', '\r']

def scheme? (cs : List Char) : Option (String × List Char) :=
  let (name, rest) := cs.span fun c => c.isAlphanum || c = '+' || c = '-' || c = '.'
  match name, rest with
  | c :: _, ':' :: rest =>
    if c.isAlpha then some ((String.ofList name).toLower, rest) else none
  | _, _ => none

def afterUser (authority : List Char) : Bool × List Char :=
  if '@' ∈ authority then (true, (authority.reverse.takeWhile (· ≠ '@')).reverse)
  else (false, authority)

/-- Splits a host from what follows it; a colon between brackets belongs to the host. -/
def splitHost (inside : Bool) : List Char → List Char × List Char
  | [] => ([], [])
  | c :: rest =>
    if c = ':' ∧ ¬ inside then ([], c :: rest)
    else
      let (host, rest) := splitHost (c = '[' || (inside && c ≠ ']')) rest
      (c :: host, rest)

def isByte (cs : List Char) : Bool :=
  cs.length ≤ 3 && cs ≠ [] && cs.all Char.isDigit && (cs = ['0'] || cs.head? ≠ some '0') &&
    (String.ofList cs).toNat?.any (· ≤ 255)

/-- How many groups of an IPv6 address a part of it fills, if it can stand there; only the
last part may be an IPv4 address. -/
def groupCount (isLast : Bool) (part : List Char) : Option Nat :=
  if part ≠ [] ∧ part.length ≤ 4 ∧ part.all fun c => (Text.hexValue? c).isSome then some 1
  else
    let bytes := part.splitOn '.'
    if isLast ∧ bytes.length = 4 ∧ bytes.all isByte then some 2 else none

def countGroups : List (List Char) → Option Nat
  | [] => some 0
  | [part] => groupCount true part
  | part :: rest =>
    match groupCount false part, countGroups rest with
    | some n, some m => some (n + m)
    | _, _ => none

def splitGap : List Char → Option (List Char × List Char)
  | ':' :: ':' :: rest => some ([], rest)
  | c :: rest => (splitGap rest).map fun (a, b) => (c :: a, b)
  | [] => none

def groups (cs : List Char) : Option Nat := if cs = [] then some 0 else countGroups (cs.splitOn ':')

/-- Eight groups, or fewer with one gap. -/
def isNumeric (cs : List Char) : Bool :=
  match splitGap cs with
  | none => groups cs = some 8
  | some (a, b) =>
    '.' ∉ a &&
      match groups a, groups b with
      | some n, some m => n + m ≤ 7
      | _, _ => false

def forbidden : List Char :=
  [Char.ofNat 0, '\t', '\n', '\r', ' ', '#', '/', ':', '<', '>', '?', '@', '[', '\\', ']', '^', '|']

def isHost : List Char → Bool
  | '[' :: rest => rest.getLast? = some ']' && isNumeric rest.dropLast
  | cs => cs.all (· ∉ forbidden)

def isEndpoint (cs : List Char) : Bool :=
  cs.all Char.isDigit && cs.foldl (fun n c => n * 10 + (c.toNat - '0'.toNat)) 0 ≤ 65535

/-- User, host and endpoint number. A user or a number needs a host. -/
def isAuthority (cs : List Char) : Bool :=
  let (hasUser, rest) := afterUser cs
  let (host, rest) := splitHost false rest
  isHost host && isEndpoint rest.tail && (host ≠ [] || (!hasUser && rest = []))

def isReadable (text : String) : Bool :=
  match scheme? (cleaned text) with
  | none => false
  | some (scheme, '/' :: '/' :: rest) =>
    schemes.contains scheme && isAuthority (rest.takeWhile fun c => c ∉ ['/', '?', '#'])
  | some (scheme, _) => schemes.contains scheme

end Address

def Config.checkUrl (c : Config) : Except Error Unit :=
  if Address.isReadable c.url then .ok ()
  else
    .error (.config ("Invalid Redis URL '" ++ c.url ++
      "': Redis URL did not parse- InvalidClientConfig"))

inductive Contact
  | refused (reason : String)
  | silent
  | ready
  deriving DecidableEq

def Config.connect (c : Config) (contact : Contact) : Except Error Unit := do
  c.checkUrl
  match contact with
  | .refused reason => .error (.connection (c.url ++ ": " ++ reason))
  | .silent =>
    .error (.timeout
      ("connecting to " ++ c.url ++ " after " ++ Decimal.natText c.connectMillis ++ "ms"))
  | .ready => return ()

end Parley.StreamStore
