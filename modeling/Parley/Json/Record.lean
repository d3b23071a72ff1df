import Parley.Json.Doc
import Parley.Json.Printer

namespace Parley

namespace Doc

def bool? : Doc → Option Bool
  | .bool b => some b
  | _ => none

def str? : Doc → Option String
  | .str s => s
  | _ => none

def float? : Doc → Option Float
  | .num (some n) => some n.toFloat
  | _ => none

def int? (least greatest : Int) : Doc → Option Int
  | .num (some (.int i)) => if least ≤ i ∧ i ≤ greatest then some i else none
  | _ => none

def nat? (bits : Nat) (d : Doc) : Option Nat := (d.int? 0 (Nat.pow 2 bits - 1)).map Int.toNat

def word64? (d : Doc) : Option Int := d.int? (-0x8000000000000000) 0x7FFFFFFFFFFFFFFF

def list? (item : Doc → Option α) : Doc → Option (List α)
  | .arr items => items.mapM item
  | _ => none

def optional? (value : Doc → Option α) : Doc → Option (Option α)
  | .null => some none
  | d => (value d).map some

/-- A map from texts; of a key given twice the last value counts. -/
def entries? (key : String → Option κ) (value : Doc → Option α) : Doc → Option (List (κ × α))
  | .obj members =>
    members.mapM fun (k, d) =>
      match k.bind key, value d with
      | some k, some v => some (k, v)
      | _, _ => none
  | _ => none

def fields? (depth : Nat) : Doc → Option Fields
  | .obj members => membersToJson? (depthLimit - depth) members
  | _ => none

/-- One of a closed set of words, alone or as the key of a null. -/
def word? (words : String → Option α) : Doc → Option α
  | .str s => s.bind words
  | .obj [(key, .null)] => key.bind words
  | _ => none

def member? (name : String) : Doc → Option Doc
  | .obj members => members.lookup (some name)
  | _ => none

def change (names : List String) (f : Doc → Doc) : Doc → Doc
  | .obj members => .obj (members.map fun m => if m.1.any names.contains then (m.1, f m.2) else m)
  | d => d

def set (d : Doc) (name : String) (value : Doc) : Doc :=
  match d with
  | .obj members => .obj (members.filter (fun m => m.1 ≠ some name) ++ [(some name, value)])
  | d => d

mutual

def mapText (f : String → String) : Doc → Doc
  | .str s => .str (s.map f)
  | .arr items => .arr (mapTextItems f items)
  | .obj members => .obj (mapTextMembers f members)
  | d => d

def mapTextItems (f : String → String) : List Doc → List Doc
  | [] => []
  | d :: rest => d.mapText f :: mapTextItems f rest

def mapTextMembers (f : String → String) :
    List (Option String × Doc) → List (Option String × Doc)
  | [] => []
  | (key, d) :: rest => (key, d.mapText f) :: mapTextMembers f rest

end

mutual

/-- Drops each member that a later one of the same key replaces. -/
def latest : Doc → Doc
  | .arr items => .arr (latestItems items)
  | .obj members => .obj (latestMembers members)
  | d => d

def latestItems : List Doc → List Doc
  | [] => []
  | d :: rest => d.latest :: latestItems rest

def latestMembers : List (Option String × Doc) → List (Option String × Doc)
  | [] => []
  | (key, d) :: rest =>
    if rest.any fun m => m.1 = key then latestMembers rest
    else (key, d.latest) :: latestMembers rest

end

end Doc

abbrev Record := List (String × Doc)

namespace Record

def ofMembers? (names : List String) : List (Option String × Doc) → Option Record
  | [] => some []
  | (none, _) :: _ => none
  | (some key, d) :: rest =>
    match ofMembers? names rest with
    | none => none
    | some parts =>
      if key ∉ names then some parts
      else if parts.any fun p => p.1 = key then none
      else some ((key, d) :: parts)

/-- A record is an object, where other keys are passed over and no name is given twice, or an
array of the parts in order. -/
def ofDoc? (names : List String) : Doc → Option Record
  | .obj members => ofMembers? names members
  | .arr items => if items.length ≤ names.length then some (names.zip items) else none
  | _ => none

def need (r : Record) (name : String) (value : Doc → Option α) : Option α :=
  (r.lookup name).bind value

def get (r : Record) (name : String) (value : Doc → Option α) (default : α) : Option α :=
  match r.lookup name with
  | none => some default
  | some d => value d

def find (r : Record) (name : String) (value : Doc → Option α) : Option (Option α) :=
  r.get name (Doc.optional? value) none

end Record

class Coded (α : Type) where
  encode : α → Json
  decode : Doc → Option α

export Coded (encode decode)

def decodeText [Coded α] (text : String) : Option α := (Doc.parse text).bind Coded.decode

def encodeText [Coded α] (value : α) : String := (Coded.encode value).canonical

end Parley
