import Parley.Message.Codec
import Parley.Proofs.Json.Written
import Parley.Proofs.Time.Stamp

namespace Parley

theorem bind_of_eq_some {α β : Type} {o : Option α} {a : α} (h : o = some a) (f : α → Option β) :
    o.bind f = f a := by
  rw [h, Option.bind_some]

namespace Doc

def rereadFloat : Option Float → Option (Option Float)
  | none => some none
  | some x => Doc.optional? Doc.float? (Json.float x).written

theorem written_float_eq {x : Float} {n : Number} (h : x.isFinite = true)
    (hn : (Number.Literal.read (Number.float x).render).bind Number.Literal.value? = some n) :
    n = .float n.toFloat := by
  obtain ⟨negative, m, k, hx⟩ := Decimal.ofFloat_of_isFinite h
  obtain ⟨l, hl, -, hi, -⟩ := Number.Literal.read_documentText hx
  rw [show (Number.float x).render = Decimal.documentText x from rfl, hl, Option.bind_some,
    Number.Literal.value?, hi] at hn
  obtain ⟨y, -, rfl⟩ := Option.map_eq_some_iff.mp hn
  rfl

theorem rereadFloat_of_not_isFinite {x : Float} (h : ¬ x.isFinite = true) :
    rereadFloat (some x) = some none := by
  rw [rereadFloat, Json.float, if_neg h]
  rfl

theorem rereadFloat_eq_self_iff (c : Option Float) :
    rereadFloat c = some c ↔ ∀ x ∈ c, (Number.float x).Kept := by
  cases c with
  | none => exact ⟨nofun, fun _ => rfl⟩
  | some x =>
      simp only [Option.mem_def, Option.some.injEq, forall_eq']
      constructor
      · intro h
        by_cases hx : x.isFinite = true
        · rw [rereadFloat, Json.float, if_pos hx, Json.written] at h
          cases hn : (Number.Literal.read (Number.float x).render).bind Number.Literal.value? with
          | none =>
              rw [hn] at h
              cases h
          | some n =>
              rw [hn] at h
              have hx' : n.toFloat = x := Option.some.inj (Option.some.inj h)
              rw [Number.Kept, hn, written_float_eq hx hn, hx']
        · rw [rereadFloat_of_not_isFinite hx] at h
          cases h
      · intro h
        rw [rereadFloat, Json.float, if_pos h.isFinite, Json.written, h]
        rfl

end Doc

namespace Record

variable {r : Record}

theorem need_str {name text : String} (h : r.lookup name = some (.str (some text))) :
    r.need name Doc.str? = some text := by
  rw [Record.need, h]
  rfl

theorem need_stamp {name : String} {t : Time.Instant}
    (h : r.lookup name = some (.str (some t.stamp))) (ht : t.Valid) : r.need name decode = some t := by
  rw [Record.need, h, Option.bind_some]
  simp only [decode, Doc.str?, Option.bind_some]
  exact Time.readLoose_stamp ht

theorem get_fields {name : String} {fields : Fields} (hf : Json.ProperMembers fields)
    (h : r.lookup name = some (Json.obj fields).sorted.written) :
    r.get name (Doc.fields? 2) [] = Doc.membersToJson? 125 (Json.writtenMembers fields) := by
  rw [(show Json.Proper (.obj fields) from hf).sorted_eq] at h
  rw [Record.get, h]
  rfl

theorem find_float {name : String} {c : Option Float}
    (h : r.lookup name = (c.map Json.float).map fun v => v.sorted.written) :
    r.find name Doc.float? = Doc.rereadFloat c := by
  rw [Record.find, Record.get, h]
  cases c with
  | none => rfl
  | some x =>
      rw [Option.map_some, Option.map_some, Json.sorted_float]
      rfl

theorem need_word {α : Type} [Vocabulary α] {name : String} {a : α}
    (h : r.lookup name = some (encode a).sorted.written)
    (ha : Vocabulary.ofWord? (Vocabulary.word a) = some a) : r.need name decode = some a := by
  rw [need, h]
  exact ha

theorem get_bool {name : String} {b : Bool} {default : Bool} (h : r.lookup name = some (.bool b)) :
    r.get name Doc.bool? default = some b := by
  rw [get, h]
  rfl

theorem find_eq_some {α : Type} {name : String} {o : Option α} {put : α → Json}
    {value : Doc → Option α}
    (h : r.lookup name = (o.map put).map fun v => v.sorted.written)
    (hv : ∀ a ∈ o, Doc.optional? value (put a).sorted.written = some (some a)) :
    r.find name value = some o := by
  rw [find, get, h]
  cases o with
  | none => rfl
  | some a => exact hv a rfl

theorem find_str {name : String} {o : Option String}
    (h : r.lookup name = (o.map Json.str).map fun v => v.sorted.written) :
    r.find name Doc.str? = some o :=
  find_eq_some h fun _ _ => rfl

theorem find_stamp {name : String} {o : Option Time.Instant}
    (h : r.lookup name = (o.map encode).map fun v => v.sorted.written) (ho : ∀ t ∈ o, t.Valid) :
    r.find name decode = some o := by
  refine find_eq_some h ?_
  intro t ht
  rw [show (encode t).sorted.written = .str (some t.stamp) from rfl]
  simp only [Doc.optional?, decode, Doc.str?, Option.bind_some]
  rw [Time.readLoose_stamp (ho t ht), Option.map_some]

theorem find_word {α : Type} [Vocabulary α] {name : String} {o : Option α}
    (h : r.lookup name = (o.map encode).map fun v => v.sorted.written)
    (ho : ∀ a ∈ o, Vocabulary.ofWord? (Vocabulary.word a) = some a) :
    r.find name decode = some o := by
  refine find_eq_some h ?_
  intro a ha
  change (Vocabulary.ofWord? (Vocabulary.word a)).map some = _
  rw [ho a ha, Option.map_some]

theorem nat?_written {n : Nat} (h : n < 2 ^ 64) : Doc.nat? 64 (Json.nat n).written = some n := by
  have hkept : (Number.int n).Kept := Number.kept_int ⟨by omega, by omega⟩
  rw [Json.nat, Json.written, hkept]
  simp only [Doc.nat?, Doc.int?]
  rw [if_pos ⟨by omega, by norm_num; omega⟩]
  rfl

theorem find_nat {name : String} {o : Option Nat}
    (h : r.lookup name = (o.map Json.nat).map fun v => v.sorted.written)
    (ho : ∀ n ∈ o, n < 2 ^ 64) : r.find name (Doc.nat? 64) = some o := by
  refine find_eq_some h ?_
  intro n hn
  exact congrArg (Option.map some) (nat?_written (ho n hn))

end Record

end Parley
