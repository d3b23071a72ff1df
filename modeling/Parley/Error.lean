namespace Parley

inductive Error
  | invalidMessage (text : String)
  | delivery (target reason : String)
  | config (text : String)
  | connection (text : String)
  | stream (text : String)
  | consumer (text : String)
  | ack (text : String)
  | serialization (text : String)
  | notFound (text : String)
  | timeout (text : String)
  | provider (text : String)
  deriving DecidableEq

namespace Error

def message : Error → String
  | invalidMessage text => "Invalid message: " ++ text
  | delivery target reason => "Failed to deliver message to '" ++ target ++ "': " ++ reason
  | config text => "Configuration error: " ++ text
  | connection text => "Connection error: " ++ text
  | stream text => "Stream error: " ++ text
  | consumer text => "Consumer error: " ++ text
  | ack text => "Failed to acknowledge message: " ++ text
  | serialization text => "Serialization error: " ++ text
  | notFound text => "Not found: " ++ text
  | timeout text => "Operation timed out: " ++ text
  | provider text => "Provider error: " ++ text

/-- Whether the same call may succeed later. -/
def isTransient : Error → Bool
  | connection _ | stream _ | timeout _ | provider _ => true
  | _ => false

end Error

end Parley
