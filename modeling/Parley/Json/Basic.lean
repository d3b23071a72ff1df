import Parley.Json.Number

namespace Parley

/-- A value of a document. Members of an object stand in any order. -/
inductive Json
  | null
  | bool (value : Bool)
  | num (value : Number)
  | str (value : String)
  | arr (items : List Json)
  | obj (members : List (String × Json))

/-- A free map of a document, by ascending key and with one value for each key. -/
abbrev Fields := List (String × Json)

namespace Fields

def insert (key : String) (value : Json) : Fields → Fields
  | [] => [(key, value)]
  | (k, v) :: rest =>
    if key < k then (key, value) :: (k, v) :: rest
    else if key = k then (key, value) :: rest
    else (k, v) :: insert key value rest

def insertNew (key : String) (value : Json) : Fields → Fields
  | [] => [(key, value)]
  | (k, v) :: rest =>
    if key < k then (key, value) :: (k, v) :: rest
    else if key = k then (k, v) :: rest
    else (k, v) :: insertNew key value rest

def find? (key : String) (fields : Fields) : Option Json := fields.lookup key

def erase (key : String) (fields : Fields) : Fields := fields.filter fun m => m.1 ≠ key

end Fields

namespace Json

def nat (n : Nat) : Json := .num (.int n)

def int (i : Int) : Json := .num (.int i)

/-- What is not finite has no number and is written as null. -/
def float (x : Float) : Json := if x.isFinite then .num (.float x) else .null

def strings (texts : List String) : Json := .arr (texts.map .str)

def record (members : List (String × Option Json)) : Json :=
  .obj (members.filterMap fun (key, value) => value.map (key, ·))

def fields : Json → Fields
  | .obj members => members
  | _ => []

def field? (key : String) : Json → Option Json
  | .obj members => members.lookup key
  | _ => none

def str? : Json → Option String
  | .str s => some s
  | _ => none

def arr? : Json → Option (List Json)
  | .arr items => some items
  | _ => none

/-- Null, false, zero, and whatever is empty, do not hold. -/
def holds : Json → Bool
  | .null => false
  | .bool b => b
  | .num n => n.toFloat != 0
  | .str s => s ≠ ""
  | .arr items => !items.isEmpty
  | .obj members => !members.isEmpty

mutual

/-- Sorts the members of every object; of a key given twice the last value counts. -/
def sorted : Json → Json
  | .arr items => .arr (sortedItems items)
  | .obj members => .obj (sortedMembers members)
  | v => v

def sortedItems : List Json → List Json
  | [] => []
  | v :: rest => v.sorted :: sortedItems rest

def sortedMembers : List (String × Json) → Fields
  | [] => []
  | (key, v) :: rest => Fields.insertNew key v.sorted (sortedMembers rest)

end

mutual

def mapText (f : String → String) : Json → Json
  | .str s => .str (f s)
  | .arr items => .arr (mapTextItems f items)
  | .obj members => .obj (mapTextMembers f members)
  | v => v

def mapTextItems (f : String → String) : List Json → List Json
  | [] => []
  | v :: rest => v.mapText f :: mapTextItems f rest

def mapTextMembers (f : String → String) : List (String × Json) → List (String × Json)
  | [] => []
  | (key, v) :: rest => (f key, v.mapText f) :: mapTextMembers f rest

end

end Json

end Parley
