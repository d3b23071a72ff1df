import Parley.Error
import Parley.Vocabulary

namespace Parley

inductive ErrorKind
  | invalidMessage
  | delivery
  | config
  | connection
  | stream
  | consumer
  | ack
  | serialization
  | notFound
  | timeout
  | provider
  deriving DecidableEq

instance : Vocabulary ErrorKind where
  all := [.invalidMessage, .delivery, .config, .connection, .stream, .consumer, .ack,
    .serialization, .notFound, .timeout, .provider]
  word
    | .invalidMessage => "InvalidMessage"
    | .delivery => "Delivery"
    | .config => "Config"
    | .connection => "Connection"
    | .stream => "Stream"
    | .consumer => "Consumer"
    | .ack => "Ack"
    | .serialization => "Serialization"
    | .notFound => "NotFound"
    | .timeout => "Timeout"
    | .provider => "Provider"

def Error.kind : Error → ErrorKind
  | invalidMessage _ => .invalidMessage
  | delivery .. => .delivery
  | config _ => .config
  | connection _ => .connection
  | stream _ => .stream
  | consumer _ => .consumer
  | ack _ => .ack
  | serialization _ => .serialization
  | notFound _ => .notFound
  | timeout _ => .timeout
  | provider _ => .provider

/-- An error of a kind; only that of a delivery has a target. -/
def ErrorKind.error (kind : ErrorKind) (target text : String) : Error :=
  match kind with
  | invalidMessage => .invalidMessage text
  | delivery => .delivery target text
  | config => .config text
  | connection => .connection text
  | stream => .stream text
  | consumer => .consumer text
  | ack => .ack text
  | serialization => .serialization text
  | notFound => .notFound text
  | timeout => .timeout text
  | provider => .provider text

end Parley
