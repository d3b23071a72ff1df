import Parley.Policy.Decision

namespace Parley.Policy

/-- The policies that tenants have set; any other tenant has the standard one. -/
structure Gate where
  configs : Table String Config

namespace Gate

def empty : Gate := ⟨Table.empty⟩

def config (g : Gate) (tenant : String) : Config := (g.configs.find? tenant).getD .standard

def effectiveThreshold (g : Gate) (tenant agent : String) : Float :=
  (g.config tenant).effectiveThreshold agent

def decide (g : Gate) (tenant : String) (r : Request) : Decision := (g.config tenant).decide r

def put (g : Gate) (tenant : String) (c : Config) : Gate := ⟨g.configs.set tenant c⟩

inductive Op
  | setConfig (tenant : String) (config : Config)
  | setMode (tenant : String) (mode : Mode)
  | setThreshold (tenant : String) (threshold : Float)
  | load (configs : Table String Config)

def flawIn (tenant : String) (f : Config.Flaw) : Error :=
  .config ("tenant '" ++ tenant ++ "': " ++ f.toError.message)

def checkAll : List (String × Config) → Except Error Unit
  | [] => .ok ()
  | (tenant, c) :: rest =>
    match c.check with
    | .error f => .error (flawIn tenant f)
    | .ok () => checkAll rest

/-- Carries out one change, or none of it. -/
def step (g : Gate) : Op → Except Error Gate
  | .setConfig tenant c =>
    match c.check with
    | .error f => .error f.toError
    | .ok () => .ok (g.put tenant c)
  | .setMode tenant mode => .ok (g.put tenant { g.config tenant with mode })
  | .setThreshold tenant threshold =>
    match Config.checkThreshold threshold with
    | .error f => .error f.toError
    | .ok () => .ok (g.put tenant { g.config tenant with threshold })
  | .load configs =>
    match checkAll configs.entries with
    | .error e => .error e
    | .ok () => .ok ⟨configs⟩

def after (g : Gate) (op : Op) : Gate := (g.step op).toOption.getD g

def run (ops : List Op) : Gate := ops.foldl after empty

def encodeAll (configs : Table String Config) : Json :=
  .obj (configs.entries.map fun e => (e.1, encode e.2))

def decodeAll (d : Doc) : Option (Table String Config) :=
  (d.entries? some decode).map Table.ofList

def exportText (g : Gate) : String := (encodeAll g.configs).canonical

def ofText? (text : String) : Option (Table String Config) := (Doc.parse text).bind decodeAll

end Gate

end Parley.Policy
