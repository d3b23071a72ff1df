import Parley.Message.Codec

namespace Parley

/-- What keeps messages: the calls it answers, each of which may fail and may change its
state. -/
structure Backend (σ : Type) where
  name : String
  append : Message → σ → Except Error Unit × σ
  thread : String → σ → Except Error (List Message) × σ
  tenant : String → σ → Except Error (List Message) × σ
  find : String → σ → Except Error (Option Message) × σ
  decide : String → Approval → σ → Except Error Bool × σ
  health : σ → Except Error Bool × σ

namespace Backend

inductive Op
  | append (m : Message)
  | thread (id : String)
  | tenant (id : String)
  | find (id : String)
  | decide (id : String) (approval : Approval)

inductive Answer
  | done
  | messages (list : List Message)
  | message (found : Option Message)
  | known (known : Bool)

def map (f : α → β) (r : Except Error α × σ) : Except Error β × σ := (r.1.map f, r.2)

def run (b : Backend σ) (s : σ) : Op → Except Error Answer × σ
  | .append m => map (fun _ => .done) (b.append m s)
  | .thread id => map .messages (b.thread id s)
  | .tenant id => map .messages (b.tenant id s)
  | .find id => map .message (b.find id s)
  | .decide id a => map .known (b.decide id a s)

def runAll (b : Backend σ) (s : σ) : List Op → List (Except Error Answer) × σ
  | [] => ([], s)
  | op :: rest =>
    let (answer, s) := b.run s op
    let (answers, s) := b.runAll s rest
    (answer :: answers, s)

end Backend

end Parley
