import Parley.Retry

namespace Parley.StreamStore

/-- The server of the streams, how keys are named there, and the bounds of what is read and
kept at once. -/
structure Config where
  url : String
  keyRoot : String
  groupRoot : String
  readCount : Nat
  blockMillis : Nat
  retry : Retry.Config
  connectMillis : Nat
  connectRetries : Nat
  cachedThreads : Nat
  cachedMessages : Nat
  deriving DecidableEq

namespace Config

def standard : Config :=
  ⟨"redis://127.0.0.1:6379", "dialogue", "cg", 100, 0, Retry.Config.standard, 5000, 3, 1000, 200⟩

/-- The stream of what a tenant sent or received. -/
def tenantKey (c : Config) (tenant : String) : String := c.keyRoot ++ ":" ++ tenant

def threadKey (c : Config) (thread : String) : String := c.keyRoot ++ ":thread:" ++ thread

def group (c : Config) (tenant : String) : String := c.groupRoot ++ ":" ++ tenant

def messagesKey (c : Config) : String := c.keyRoot ++ ":messages"

def approvalsKey (c : Config) : String := c.keyRoot ++ ":approvals"

instance : Coded Config where
  encode c := .obj
    [("url", .str c.url), ("keyPrefix", .str c.keyRoot), ("groupPrefix", .str c.groupRoot),
      ("readCount", .nat c.readCount), ("blockMs", .nat c.blockMillis), ("retry", encode c.retry),
      ("connectTimeoutMs", .nat c.connectMillis), ("connectRetries", .nat c.connectRetries),
      ("cacheMaxThreads", .nat c.cachedThreads), ("cacheMaxMessages", .nat c.cachedMessages)]
  decode d := do
    let r ← Record.ofDoc? ["url", "keyPrefix", "groupPrefix", "readCount", "blockMs", "retry",
      "connectTimeoutMs", "connectRetries", "cacheMaxThreads", "cacheMaxMessages"] d
    return {
      url := ← r.get "url" Doc.str? standard.url
      keyRoot := ← r.get "keyPrefix" Doc.str? standard.keyRoot
      groupRoot := ← r.get "groupPrefix" Doc.str? standard.groupRoot
      readCount := ← r.get "readCount" (Doc.nat? 64) standard.readCount
      blockMillis := ← r.get "blockMs" (Doc.nat? 64) standard.blockMillis
      retry := ← r.get "retry" decode standard.retry
      connectMillis := ← r.get "connectTimeoutMs" (Doc.nat? 64) standard.connectMillis
      connectRetries := ← r.get "connectRetries" (Doc.nat? 64) standard.connectRetries
      cachedThreads := ← r.get "cacheMaxThreads" (Doc.nat? 64) standard.cachedThreads
      cachedMessages := ← r.get "cacheMaxMessages" (Doc.nat? 64) standard.cachedMessages }

end Config

end Parley.StreamStore
