namespace Parley

/-- A finite map that keeps the order in which its keys were first set. -/
structure Table (κ α : Type) where
  entries : List (κ × α)

namespace Table

variable {κ α : Type} [DecidableEq κ]

def empty : Table κ α := ⟨[]⟩

instance : Inhabited (Table κ α) := ⟨⟨[]⟩⟩

def valueIn (key : κ) : List (κ × α) → Option α
  | [] => none
  | (k, v) :: rest => if k = key then some v else valueIn key rest

def find? (t : Table κ α) (key : κ) : Option α := valueIn key t.entries

def keys (t : Table κ α) : List κ := t.entries.map Prod.fst

def values (t : Table κ α) : List α := t.entries.map Prod.snd

def setIn (key : κ) (value : α) : List (κ × α) → List (κ × α)
  | [] => [(key, value)]
  | (k, v) :: rest => if k = key then (key, value) :: rest else (k, v) :: setIn key value rest

def set (t : Table κ α) (key : κ) (value : α) : Table κ α := ⟨setIn key value t.entries⟩

def erase (t : Table κ α) (key : κ) : Table κ α := ⟨t.entries.filter fun e => e.1 ≠ key⟩

/-- Of a key given twice the last value counts. -/
def ofList (entries : List (κ × α)) : Table κ α :=
  entries.foldl (fun t e => t.set e.1 e.2) empty

theorem valueIn_setIn (key k : κ) (value : α) (es : List (κ × α)) :
    valueIn k (setIn key value es) = if k = key then some value else valueIn k es := by
  induction es with
  | nil => grind [setIn, valueIn]
  | cons e es ih => grind [setIn, valueIn]

theorem find?_set (t : Table κ α) (key k : κ) (value : α) :
    (t.set key value).find? k = if k = key then some value else t.find? k :=
  valueIn_setIn key k value t.entries

theorem valueIn_filter_ne (key k : κ) (es : List (κ × α)) :
    valueIn k (es.filter fun e => e.1 ≠ key) = if k = key then none else valueIn k es := by
  induction es with
  | nil => simp [valueIn]
  | cons e es ih => grind [valueIn]

theorem find?_erase (t : Table κ α) (key k : κ) :
    (t.erase key).find? k = if k = key then none else t.find? k :=
  valueIn_filter_ne key k t.entries

theorem valueIn_isSome_iff {k : κ} {es : List (κ × α)} :
    (valueIn k es).isSome ↔ k ∈ es.map Prod.fst := by
  induction es with
  | nil => simp [valueIn]
  | cons e es ih => grind [valueIn]

theorem mem_of_valueIn {key : κ} {value : α} {es : List (κ × α)} (h : valueIn key es = some value) :
    (key, value) ∈ es := by
  induction es with
  | nil => cases h
  | cons e es ih => grind [valueIn]

theorem mem_setIn {key : κ} {value : α} {es : List (κ × α)} {e : κ × α}
    (h : e ∈ setIn key value es) : e = (key, value) ∨ e ∈ es := by
  induction es with
  | nil => exact .inl (List.mem_singleton.mp h)
  | cons e' es ih => grind [setIn]

theorem mem_keys_setIn (key k : κ) (value : α) (es : List (κ × α)) :
    k ∈ (setIn key value es).map Prod.fst ↔ k = key ∨ k ∈ es.map Prod.fst := by
  induction es with
  | nil => simp [setIn]
  | cons e es ih => grind [setIn]

theorem nodup_keys_setIn {key : κ} {value : α} {es : List (κ × α)}
    (h : (es.map Prod.fst).Nodup) : ((setIn key value es).map Prod.fst).Nodup := by
  induction es with
  | nil => simp [setIn]
  | cons e es ih =>
    have := mem_keys_setIn key e.1 value es
    rw [List.map_cons, List.nodup_cons] at h
    by_cases hk : e.1 = key
    · subst hk; simpa [setIn] using h
    · have hs : setIn key value (e :: es) = e :: setIn key value es := by simp [setIn, hk]
      rw [hs, List.map_cons, List.nodup_cons]
      exact ⟨fun hm => (this.1 hm).elim hk h.1, ih h.2⟩

end Table

end Parley
