import Parley.StreamStore.Line

namespace Parley.StreamStore

/-- A number of commands that fail, known by a request they make. -/
structure Fault where
  request : String
  failure : Failure
  times : Nat
  deriving DecidableEq

namespace Fault

def concerns (command : Command) (f : Fault) : Bool :=
  0 < f.times && command.requests.any fun words => words.head? = some f.request

/-- Uses up one time of the first fault that concerns a command. -/
def spend (command : Command) : List Fault → List Fault
  | [] => []
  | f :: rest =>
    if f.concerns command then { f with times := f.times - 1 } :: rest else f :: spend command rest

def weather : Weather (List Fault) := fun command faults =>
  match faults.find? (concerns command) with
  | none => (.answered, faults)
  | some f => (.refused f.failure, spend command faults)

end Fault

end Parley.StreamStore
