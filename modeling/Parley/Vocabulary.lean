import Parley.Json.Record

namespace Parley

class Vocabulary (α : Type) where
  all : List α
  word : α → String

namespace Vocabulary

variable {α : Type} [Vocabulary α]

def ofWord? (s : String) : Option α := all.find? fun a => word a = s

instance : Coded α where
  encode a := .str (word a)
  decode := Doc.word? ofWord?

theorem word_of_ofWord? {s : String} {a : α} (h : ofWord? s = some a) : word a = s := by
  simpa using List.find?_some h

theorem ofWord?_word {a : α} (mem : a ∈ all) (inj : ∀ b ∈ all, word b = word a → b = a) :
    ofWord? (word a) = some a := by
  cases h : ofWord? (α := α) (word a) with
  | none => exact absurd (decide_eq_true rfl) (List.find?_eq_none.1 h a mem)
  | some b => rw [inj b (List.mem_of_find?_eq_some h) (word_of_ofWord? h)]

end Vocabulary

end Parley
