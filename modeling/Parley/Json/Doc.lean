import Parley.Json.Basic
import Parley.Json.Token

namespace Parley

/-- A document as it is written: members in order and with repetitions, and numbers and texts
that have no value kept as such, so that a reader can pass over what it has no use for. -/
inductive Doc
  | null
  | bool (value : Bool)
  | num (value : Option Number)
  | str (value : Option String)
  | arr (items : List Doc)
  | obj (members : List (Option String × Doc))

namespace Doc

open Json (Token)

inductive Frame
  | items (done : List Doc)
  | members (done : List (Option String × Doc))
  | member (key : Option String) (done : List (Option String × Doc))

inductive Focus
  | value
  | firstItem
  | firstKey
  | key
  | colon (key : Option String)
  | after (doc : Doc)

structure Cursor where
  focus : Focus
  frames : List Frame

def ofScalar : Token → Option Doc
  | .null => some .null
  | .bool b => some (.bool b)
  | .number l => some (.num l.value?)
  | .text s => some (.str s)
  | _ => none

def opened (frames : List Frame) : Token → Option Cursor
  | .openArray => some ⟨.firstItem, .items [] :: frames⟩
  | .openObject => some ⟨.firstKey, .members [] :: frames⟩
  | t => (ofScalar t).map (⟨.after ·, frames⟩)

def next (c : Cursor) (t : Token) : Option Cursor :=
  match c.focus, c.frames, t with
  | .firstItem, .items [] :: frames, .closeArray => some ⟨.after (.arr []), frames⟩
  | .firstKey, .members [] :: frames, .closeObject => some ⟨.after (.obj []), frames⟩
  | .firstItem, frames, t => opened frames t
  | .value, frames, t => opened frames t
  | .firstKey, frames, .text key => some ⟨.colon key, frames⟩
  | .key, frames, .text key => some ⟨.colon key, frames⟩
  | .colon key, .members done :: frames, .colon => some ⟨.value, .member key done :: frames⟩
  | .after d, .items done :: frames, .comma => some ⟨.value, .items (d :: done) :: frames⟩
  | .after d, .items done :: frames, .closeArray =>
    some ⟨.after (.arr (d :: done).reverse), frames⟩
  | .after d, .member key done :: frames, .comma =>
    some ⟨.key, .members ((key, d) :: done) :: frames⟩
  | .after d, .member key done :: frames, .closeObject =>
    some ⟨.after (.obj ((key, d) :: done).reverse), frames⟩
  | _, _, _ => none

def complete : Cursor → Option Doc
  | ⟨.after d, []⟩ => some d
  | _ => none

def ofTokens? (tokens : List Token) : Option Doc :=
  (tokens.foldlM next ⟨.value, []⟩).bind complete

def parse (text : String) : Option Doc := (Token.scan text.toList).bind ofTokens?

mutual

/-- The value of a document nested at most `depth` deep: each text has characters, each
number is within the doubles, and the last of several members of one key counts. -/
def toJson? (depth : Nat) : Doc → Option Json
  | .null => some .null
  | .bool b => some (.bool b)
  | .num n => n.map .num
  | .str s => s.map .str
  | .arr items =>
    match depth with
    | 0 => none
    | depth + 1 => (itemsToJson? depth items).map .arr
  | .obj members =>
    match depth with
    | 0 => none
    | depth + 1 => (membersToJson? depth members).map .obj

def itemsToJson? (depth : Nat) : List Doc → Option (List Json)
  | [] => some []
  | d :: rest =>
    match toJson? depth d, itemsToJson? depth rest with
    | some v, some vs => some (v :: vs)
    | _, _ => none

def membersToJson? (depth : Nat) : List (Option String × Doc) → Option Fields
  | [] => some []
  | (key, d) :: rest =>
    match key, toJson? depth d, membersToJson? depth rest with
    | some key, some v, some vs => some (Fields.insertNew key v vs)
    | _, _, _ => none

end

mutual

def ofJson : Json → Doc
  | .null => .null
  | .bool b => .bool b
  | .num n => .num (some n)
  | .str s => .str (some s)
  | .arr items => .arr (ofItems items)
  | .obj members => .obj (ofMembers members)

def ofItems : List Json → List Doc
  | [] => []
  | v :: rest => ofJson v :: ofItems rest

def ofMembers : List (String × Json) → List (Option String × Doc)
  | [] => []
  | (key, v) :: rest => (some key, ofJson v) :: ofMembers rest

end

def depthLimit : Nat := 127

end Doc

def Json.parse (text : String) : Option Json := (Doc.parse text).bind (Doc.toJson? Doc.depthLimit)

end Parley
