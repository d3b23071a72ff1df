import Parley.Message.Codec

namespace Parley

open Time (Instant)

namespace Quality

structure Weights where
  completeness : Float
  evidence : Float
  depth : Float
  timeliness : Float
  deriving DecidableEq

def Weights.standard : Weights := ⟨0.35, 0.25, 0.25, 0.15⟩

def Weights.sum (w : Weights) : Float := w.completeness + w.evidence + w.depth + w.timeliness

inductive WeightFlaw
  | notNonNegative
  | allZero
  deriving DecidableEq

def WeightFlaw.toError : WeightFlaw → Error
  | notNonNegative => .config "Quality weights must be finite and non-negative"
  | allZero => .config "Quality weights must not all be zero"

def Weights.check (w : Weights) : Except WeightFlaw Unit :=
  if [w.completeness, w.evidence, w.depth, w.timeliness].any fun x => !x.isFinite || x < 0.0 then
    .error .notNonNegative
  else if w.sum ≤ 0.0 then .error .allZero
  else .ok ()

structure Breakdown where
  completeness : Float
  evidence : Float
  depth : Float
  timeliness : Float
  overall : Float
  deriving DecidableEq

structure Result where
  score : Float
  breakdown : Breakdown
  issues : List String
  deriving DecidableEq

/-- An evaluator of answers. Past its deadline an answer loses timeliness evenly over
`grace` milliseconds. -/
structure Evaluator where
  weights : Weights
  grace : Int
  deriving DecidableEq

def standardGrace : Int := 48 * 3600 * 1000

def Evaluator.standard : Evaluator := ⟨Weights.standard, standardGrace⟩

def Evaluator.ofWeights (w : Weights) : Except WeightFlaw Evaluator :=
  match w.check with
  | .error f => .error f
  | .ok () => .ok ⟨w, standardGrace⟩

def ofInt (i : Int) : Float := (Number.int i).toFloat

def atMost (x bound : Float) : Float := if x.isNaN || bound < x then bound else x

def atLeast (x bound : Float) : Float := if x.isNaN || x < bound then bound else x

/-- Into the unit interval; what is not a number stays so. -/
def clamp (x : Float) : Float := if x < 0.0 then 0.0 else if 1.0 < x then 1.0 else x

def isQuestion (m : Message) : Bool := m.kind = .question

def questionLength (thread : List Message) : Nat :=
  (thread.filter isQuestion).foldr (fun m n => m.content.length + n) 0

/-- Half the length of the answer against that of the questions, at most one. -/
def completeness (answer : Message) (thread : List Message) : Float :=
  let asked := questionLength thread
  if asked = 0 then 0.5
  else atMost (Float.ofNat answer.content.length / Float.ofNat asked * 0.5) 1.0

def promisesEvidence (answer : Message) : Bool :=
  ((answer.structured.find? "evidence_to_attach").map Json.holds).getD false

def referenceCount (answer : Message) : Nat :=
  (((answer.structured.find? "referenced_documents").bind Json.arr?).map List.length).getD 0

/-- Attached evidence counts in full, promised and referenced evidence in part. -/
def evidence (answer : Message) : Float :=
  if answer.attachments ≠ [] then 1.0
  else if promisesEvidence answer then 0.7
  else if 0 < referenceCount answer then
    atMost (0.5 + Float.ofNat (referenceCount answer) * 0.1) 0.7
  else 0.3

def depth (answer : Message) : Float := atMost (Float.ofNat answer.content.length / 100.0) 1.0

def threadDeadline (thread : List Message) : Option Instant := do
  let question ← thread.reverse.find? isQuestion
  let value ← question.structured.find? "deadline"
  Time.readStrict (← value.str?)

def timeliness (grace : Int) (answer : Message) (thread : List Message)
    (deadline : Option Instant) : Float :=
  match deadline.or (threadDeadline thread) with
  | none => 1.0
  | some d =>
    if answer.sentAt.le d then 1.0
    else if grace ≤ 0 then 0.0
    else atLeast (1.0 - ofInt (answer.sentAt.millisSince d) / ofInt grace) 0.0

def coverageIssue : String := "Answer does not sufficiently cover the question"

def evidenceIssue : String := "Supporting evidence is missing"

def depthIssue : String := "Answer is too short or lacks detail"

def lateIssue : String := "Answer was submitted after the deadline"

/-- Rates an answer against its thread. A given deadline stands before that of the thread. -/
def Evaluator.evaluate (e : Evaluator) (answer : Message) (thread : List Message)
    (deadline : Option Instant) : Result :=
  let c := Quality.completeness answer thread
  let v := Quality.evidence answer
  let d := Quality.depth answer
  let t := Quality.timeliness e.grace answer thread deadline
  let w := e.weights
  let weighted := c * w.completeness + v * w.evidence + d * w.depth + t * w.timeliness
  let overall := Decimal.roundHundredths (clamp (weighted / w.sum))
  let issues :=
    ([(c, coverageIssue), (v, evidenceIssue), (d, depthIssue), (t, lateIssue)].filter
      fun p => p.1 < 0.5).map Prod.snd
  let r := Decimal.roundHundredths
  ⟨overall, ⟨r c, r v, r d, r t, overall⟩, issues⟩

end Quality

open Quality

instance : Coded Weights where
  encode w := .obj
    [("completeness", .float w.completeness), ("evidenceSufficiency", .float w.evidence),
      ("contentDepth", .float w.depth), ("timeliness", .float w.timeliness)]
  decode d := do
    let r ← Record.ofDoc? ["completeness", "evidenceSufficiency", "contentDepth", "timeliness"] d
    return ⟨← r.need "completeness" Doc.float?, ← r.need "evidenceSufficiency" Doc.float?,
      ← r.need "contentDepth" Doc.float?, ← r.need "timeliness" Doc.float?⟩

instance : Coded Breakdown where
  encode b := .obj
    [("completeness", .float b.completeness), ("contentDepth", .float b.depth),
      ("evidenceSufficiency", .float b.evidence), ("overall", .float b.overall),
      ("timeliness", .float b.timeliness)]
  decode d := do
    let r ← Record.ofDoc?
      ["completeness", "evidenceSufficiency", "contentDepth", "timeliness", "overall"] d
    return ⟨← r.need "completeness" Doc.float?, ← r.need "evidenceSufficiency" Doc.float?,
      ← r.need "contentDepth" Doc.float?, ← r.need "timeliness" Doc.float?,
      ← r.need "overall" Doc.float?⟩

instance : Coded Result where
  encode q := .obj
    [("score", .float q.score), ("breakdown", encode q.breakdown), ("issues", .strings q.issues)]
  decode d := do
    let r ← Record.ofDoc? ["score", "breakdown", "issues"] d
    return ⟨← r.need "score" Doc.float?, ← r.need "breakdown" decode,
      ← r.need "issues" (Doc.list? Doc.str?)⟩

end Parley
