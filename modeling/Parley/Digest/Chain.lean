import Parley.Digest.Sha256
import Parley.Json.Printer

namespace Parley

structure Chain where
  last : String
  deriving DecidableEq

namespace Chain

def genesis : String := String.ofList (List.replicate 64 '0')

def start : Chain := ⟨genesis⟩

def link (previous : String) (details : Json) : String := previous ++ ":" ++ details.canonical

def utf8 (s : String) : List UInt8 := s.toUTF8.toList

def hash (previous : String) (details : Json) : String :=
  Text.hexOfBytes (Digest.sha256 (utf8 (link previous details)))

def add (c : Chain) (details : Json) : Chain := ⟨hash c.last details⟩

def hashes (c : Chain) : List Json → List String
  | [] => []
  | v :: rest => (c.add v).last :: (c.add v).hashes rest

def matchesFrom (previous : String) : List Json → List String → Bool
  | [], [] => true
  | v :: values, h :: rest =>
    let next := hash previous v
    next = h && matchesFrom next values rest
  | _, _ => false

/-- Whether hashes are those that the values get in a new chain. -/
def verify (values : List Json) (hashes : List String) : Bool := matchesFrom genesis values hashes

end Chain

end Parley
