import Parley.Broker.Subject
import Parley.Vocabulary

namespace Parley.Broker

inductive Storage
  | file
  | memory
  deriving DecidableEq

instance : Vocabulary Storage where
  all := [.file, .memory]
  word
    | .file => "file"
    | .memory => "memory"

/-- The broker to use, and the limits of the stream kept there. Zero is no limit. -/
structure Config where
  url : String
  streamName : String
  subjectRoot : String
  storage : Storage
  maxMessages : Int
  maxAgeSeconds : Nat
  connectSeconds : Nat
  requestSeconds : Nat
  token : Option String
  deriving DecidableEq

namespace Config

def standard : Config :=
  ⟨"nats://127.0.0.1:4222", "A3S_DIALOGUE", "dialogue", .file, 1000000, 0, 5, 10, none⟩

def subject (c : Config) (tenant : String) : String :=
  c.subjectRoot ++ "." ++ String.ofList (Broker.token tenant)

def subjects (c : Config) : List String := [c.subjectRoot ++ ".>"]

instance : Coded Config where
  encode c := .record
    [("url", some (.str c.url)),
      ("streamName", some (.str c.streamName)),
      ("subjectPrefix", some (.str c.subjectRoot)),
      ("storage", some (encode c.storage)),
      ("maxMessages", some (.int c.maxMessages)),
      ("maxAgeSecs", some (.nat c.maxAgeSeconds)),
      ("connectTimeoutSecs", some (.nat c.connectSeconds)),
      ("requestTimeoutSecs", some (.nat c.requestSeconds)),
      ("token", c.token.map .str)]
  decode d := do
    let r ← Record.ofDoc? ["url", "streamName", "subjectPrefix", "storage", "maxMessages",
      "maxAgeSecs", "connectTimeoutSecs", "requestTimeoutSecs", "token"] d
    return {
      url := ← r.get "url" Doc.str? standard.url
      streamName := ← r.get "streamName" Doc.str? standard.streamName
      subjectRoot := ← r.get "subjectPrefix" Doc.str? standard.subjectRoot
      storage := ← r.get "storage" decode standard.storage
      maxMessages := ← r.get "maxMessages" Doc.word64? standard.maxMessages
      maxAgeSeconds := ← r.get "maxAgeSecs" (Doc.nat? 64) standard.maxAgeSeconds
      connectSeconds := ← r.get "connectTimeoutSecs" (Doc.nat? 64) standard.connectSeconds
      requestSeconds := ← r.get "requestTimeoutSecs" (Doc.nat? 64) standard.requestSeconds
      token := ← r.find "token" Doc.str? }

end Config

end Parley.Broker
