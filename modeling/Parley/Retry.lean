import Parley.Error
import Parley.Json.Record

namespace Parley.Retry

structure Config where
  maxRetries : UInt32
  baseMillis : UInt64
  maxMillis : UInt64
  deriving DecidableEq

namespace Config

def standard : Config := ⟨3, 200, 5000⟩

def disabled : Config := { standard with maxRetries := 0 }

def greatestWord : UInt64 := 0xFFFFFFFFFFFFFFFF

def saturatingMul (a b : UInt64) : UInt64 :=
  if a.toNat * b.toNat < 0x10000000000000000 then a * b else greatestWord

/-- The delay before spreading: doubled with each attempt up to the tenth, and capped. -/
def capped (c : Config) (attempt : UInt32) : UInt64 :=
  min (saturatingMul c.baseMillis (1 <<< (min attempt 10).toUInt64)) c.maxMillis

/-- The delay after an attempt, spread over a quarter to either side. -/
def delay (c : Config) (attempt : UInt32) : UInt64 :=
  let d := c.capped attempt
  let quarter := d / 4
  if 0 < quarter then d - quarter + (attempt.toUInt64 * 7 + 3) % (quarter * 2 + 1) else d

instance : Coded Config where
  encode c := .obj
    [("maxRetries", .nat c.maxRetries.toNat), ("baseDelayMs", .nat c.baseMillis.toNat),
      ("maxDelayMs", .nat c.maxMillis.toNat)]
  decode d := do
    let r ← Record.ofDoc? ["maxRetries", "baseDelayMs", "maxDelayMs"] d
    return ⟨(← r.get "maxRetries" (Doc.nat? 32) standard.maxRetries.toNat).toUInt32,
      (← r.get "baseDelayMs" (Doc.nat? 64) standard.baseMillis.toNat).toUInt64,
      (← r.get "maxDelayMs" (Doc.nat? 64) standard.maxMillis.toNat).toUInt64⟩

end Config

inductive Outcome (α : Type)
  | success (value : α)
  | retryable (error : Error)
  | fatal (error : Error)

def Outcome.ofExcept : Except Error α → Outcome α
  | .ok v => .success v
  | .error e => if e.isTransient then .retryable e else .fatal e

/-- The attempts are counted in a word, as the retries are. -/
def gaveUp (c : Config) (target : String) (e : Error) : Error :=
  .delivery target
    ("gave up after " ++ Decimal.natText (c.maxRetries + 1).toNat ++ " attempts: " ++ e.message)

variable {σ α : Type}

/-- Attempts from number `attempt` on, of which `left` may still follow it. -/
def attemptFrom (c : Config) (target : String) (call : Nat → σ → Outcome α × σ)
    (sleep : Nat → σ → σ) (attempt : Nat) : Nat → σ → Except Error α × σ
  | left, s =>
    match call attempt s with
    | (.success v, s) => (.ok v, s)
    | (.fatal e, s) => (.error e, s)
    | (.retryable e, s) =>
      match left with
      | 0 => (.error (gaveUp c target e), s)
      | left + 1 =>
        let s := sleep (c.delay attempt.toUInt32).toNat s
        attemptFrom c target call sleep (attempt + 1) left s

def run (c : Config) (target : String) (call : Nat → σ → Outcome α × σ) (sleep : Nat → σ → σ)
    (s : σ) : Except Error α × σ :=
  attemptFrom c target call sleep 0 c.maxRetries.toNat s

end Parley.Retry
