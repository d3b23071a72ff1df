import Mathlib.Data.List.Basic
import Parley.Json.Basic

namespace Parley.Fields

theorem lookup_cons {β : Type} (k : String) (v : β) (rest : List (String × β)) (i : String) :
    ((k, v) :: rest).lookup i = if i = k then some v else rest.lookup i := by
  by_cases h : i = k
  · subst h
    rw [List.lookup_cons_self, if_pos rfl]
  · rw [List.lookup_cons, beq_false_of_ne h, if_neg h]

theorem mem_of_lookup {β : Type} {k : String} {v : β} {l : List (String × β)}
    (h : l.lookup k = some v) : (k, v) ∈ l := by
  obtain ⟨before, after, rfl, -⟩ := List.lookup_eq_some_iff.mp h
  simp

theorem lookup_of_mem {β : Type} {k : String} {v : β} {l : List (String × β)}
    (h : (l.map Prod.fst).Nodup) (hm : (k, v) ∈ l) : l.lookup k = some v := by
  induction l with
  | nil => cases hm
  | cons p l ih =>
      obtain ⟨i, w⟩ := p
      rw [List.map_cons, List.nodup_cons] at h
      rw [lookup_cons]
      rcases List.mem_cons.mp hm with heq | hin
      · obtain ⟨rfl, rfl⟩ := Prod.mk.inj heq
        rw [if_pos rfl]
      · rw [if_neg, ih h.2 hin]
        rintro rfl
        exact h.1 (List.mem_map.mpr ⟨_, hin, rfl⟩)

theorem find?_insert (key : String) (value : Json) (fields : Fields) (k : String) :
    (fields.insert key value).find? k = if k = key then some value else fields.find? k := by
  induction fields with
  | nil => exact lookup_cons key value [] k
  | cons field fields ih =>
      obtain ⟨i, v⟩ := field
      simp only [find?, insert] at ih ⊢
      split
      · exact lookup_cons key value _ k
      · split
        · rename_i h
          subst h
          rw [lookup_cons, lookup_cons]
          split <;> rfl
        · rename_i h
          rw [lookup_cons, lookup_cons, ih]
          by_cases hk : k = i
          · subst hk
            rw [if_pos rfl, if_neg (Ne.symm h), if_pos rfl]
          · rw [if_neg hk, if_neg hk]

end Parley.Fields
