namespace Parley

/-- The ids seen last, at most `capacity` of them: as a set, and in the order they came. -/
structure Deduplicator where
  seen : List String
  order : List String
  capacity : Nat

namespace Deduplicator

/-- At least one id is remembered. -/
def new (capacity : Nat) : Deduplicator := ⟨[], [], max capacity 1⟩

def standard : Deduplicator := new 10000

def makeRoom (d : Deduplicator) : Deduplicator :=
  if d.order.length = d.capacity then
    match d.order with
    | oldest :: rest => { d with seen := d.seen.filter (· ≠ oldest), order := rest }
    | [] => d
  else d

def remember (d : Deduplicator) (id : String) : Deduplicator :=
  { d with seen := id :: d.seen, order := d.order ++ [id] }

/-- Whether an id is new to the window, which then remembers it. -/
def firstSeen (d : Deduplicator) (id : String) : Bool × Deduplicator :=
  if id ∈ d.seen then (false, d) else (true, d.makeRoom.remember id)

def size (d : Deduplicator) : Nat := d.order.length

end Deduplicator

end Parley
