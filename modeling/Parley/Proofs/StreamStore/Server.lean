import Mathlib.Logic.Function.Basic
import Parley.StreamStore.Server

namespace Parley.StreamStore.Server

def fieldsAt (s : Server) (key : String) : Except String (List (List (String × String))) :=
  (s.streamAt key).map fun t => t.entries.map Entry.fields

def valuesAt (s : Server) (key : String) : Except String (String → Option String) :=
  (s.hashAt key).map Table.find?

variable {s : Server} {key k : String} {fields : List (String × String)}
  {said : List (List (String × String))} {values : String → Option String}

theorem streamAt_put_stream (s : Server) (key k : String) (t : Stream) :
    (s.put key (.stream t)).streamAt k = if k = key then .ok t else s.streamAt k := by
  rw [streamAt, put, Table.find?_set]
  by_cases hk : k = key
  · rw [if_pos hk, if_pos hk]
  · rw [if_neg hk, if_neg hk]
    rfl

theorem hashAt_put_stream (hk : k ≠ key) (s : Server) (t : Stream) :
    (s.put key (.stream t)).hashAt k = s.hashAt k := by
  rw [hashAt, put, Table.find?_set, if_neg hk]
  rfl

theorem streamAt_put_hash (hk : k ≠ key) (s : Server) (h : Table String String) :
    (s.put key (.hash h)).streamAt k = s.streamAt k := by
  rw [streamAt, put, Table.find?_set, if_neg hk]
  rfl

theorem hashAt_put_hash (s : Server) (key k : String) (h : Table String String) :
    (s.put key (.hash h)).hashAt k = if k = key then .ok h else s.hashAt k := by
  rw [hashAt, put, Table.find?_set]
  by_cases hk : k = key
  · rw [if_pos hk, if_pos hk]
  · rw [if_neg hk, if_neg hk]
    rfl

theorem fieldsAt_empty (key : String) : empty.fieldsAt key = .ok [] := rfl

/-- What has entries is no hash. -/
theorem valuesAt_of_fieldsAt (h : s.fieldsAt key = .ok (fields :: said)) :
    s.valuesAt key = .error wrongType := by
  rw [fieldsAt, streamAt] at h
  rw [valuesAt, hashAt]
  cases hc : s.contents.find? key with
  | none =>
      rw [hc] at h
      cases h
  | some content =>
      rw [hc] at h
      cases content with
      | stream t => rfl
      | hash h' => cases h

theorem range_eq (s : Server) (key : String) :
    (s.range key).map (List.map Entry.fields) = s.fieldsAt key := by
  rw [range, fieldsAt]
  cases s.streamAt key <;> rfl

theorem has_eq (s : Server) (key field : String) :
    s.has key field = (s.valuesAt key).map fun values => (values field).isSome := by
  rw [has, valuesAt]
  cases s.hashAt key <;> rfl

theorem get_eq (s : Server) (key field : String) :
    s.get key field = (s.valuesAt key).map fun values => values field := by
  rw [get, valuesAt]
  cases s.hashAt key <;> rfl

theorem getAll_eq (s : Server) (key : String) (fields : List String) :
    s.getAll key fields = (s.valuesAt key).map fields.map := by
  rw [getAll, valuesAt]
  cases s.hashAt key <;> rfl

theorem add_fieldsAt (h : s.fieldsAt key = .ok said) (fields : List (String × String))
    (k : String) : (s.add key fields).2.fieldsAt k =
      if k = key then .ok (said ++ [fields]) else s.fieldsAt k := by
  rw [fieldsAt] at h
  cases ht : s.streamAt key with
  | error e =>
      rw [ht] at h
      cases h
  | ok t =>
      rw [ht] at h
      obtain rfl := Except.ok.inj h
      have hput := streamAt_put_stream s key k
        { t with entries := t.entries ++ [⟨s.numbered + 1, fields⟩] }
      rw [add, ht]
      change Except.map _ (streamAt (s.put key _) k) = _
      rw [hput]
      split
      · simp [Except.map]
      · rfl

theorem add_valuesAt (hk : k ≠ key) (s : Server) (fields : List (String × String)) :
    (s.add key fields).2.valuesAt k = s.valuesAt k := by
  rw [add]
  cases s.streamAt key with
  | error e => rfl
  | ok t => exact congrArg (Except.map Table.find?) (hashAt_put_stream hk s _)

theorem set_fst (h : s.valuesAt key = .ok values) (field value : String) :
    (s.set key field value).1 = .ok () := by
  rw [valuesAt] at h
  rw [set]
  cases ht : s.hashAt key with
  | error e =>
      rw [ht] at h
      cases h
  | ok t => rfl

theorem set_snd_of_error {e : String} (h : s.valuesAt key = .error e) (field value : String) :
    (s.set key field value).2 = s := by
  rw [valuesAt] at h
  rw [set]
  cases ht : s.hashAt key with
  | error e => rfl
  | ok t =>
      rw [ht] at h
      cases h

theorem set_valuesAt (h : s.valuesAt key = .ok values) (field value : String) (k : String) :
    (s.set key field value).2.valuesAt k =
      if k = key then .ok (Function.update values field (some value)) else s.valuesAt k := by
  rw [valuesAt] at h
  cases ht : s.hashAt key with
  | error e =>
      rw [ht] at h
      cases h
  | ok t =>
      rw [ht] at h
      obtain rfl := Except.ok.inj h
      rw [set, ht]
      change Except.map _ (hashAt (s.put key _) k) = _
      rw [hashAt_put_hash]
      split
      · refine congrArg Except.ok ?_
        funext i
        rw [Table.find?_set, Function.update_apply]
      · rfl

theorem set_fieldsAt (hk : k ≠ key) (s : Server) (field value : String) :
    (s.set key field value).2.fieldsAt k = s.fieldsAt k := by
  rw [set]
  cases s.hashAt key with
  | error e => rfl
  | ok t => exact congrArg (Except.map _) (streamAt_put_hash hk s _)

def additions (fields : List (String × String)) (keys : List String) : List Write :=
  keys.map fun key => .add key fields

theorem additions_fieldsAt (keys : List String) (fields : List (String × String))
    (h : ∀ key ∈ keys, ∃ said, s.fieldsAt key = .ok said) (hk : s.fieldsAt k = .ok said) :
    (s.transaction (additions fields keys)).2.fieldsAt k =
      .ok (said ++ List.replicate (keys.count k) fields) := by
  induction keys generalizing s said with
  | nil => exact hk.trans (by rw [List.count_nil, List.replicate_zero, List.append_nil])
  | cons key keys ih =>
      rw [List.forall_mem_cons] at h
      obtain ⟨said', hkey⟩ := h.1
      have hadd := add_fieldsAt hkey fields
      change ((s.add key fields).2.transaction (additions fields keys)).2.fieldsAt k = _
      have hrest : ∀ key' ∈ keys, ∃ said, (s.add key fields).2.fieldsAt key' = .ok said := by
        intro key' hmem
        rw [hadd]
        split
        · exact ⟨_, rfl⟩
        · exact h.2 key' hmem
      by_cases heq : k = key
      · subst heq
        obtain rfl := Except.ok.inj (hkey.symm.trans hk)
        rw [ih hrest ((hadd k).trans (if_pos rfl)), List.count_cons_self, List.replicate_succ,
          List.append_assoc, List.singleton_append]
      · rw [ih hrest (((hadd k).trans (if_neg heq)).trans hk),
          List.count_cons_of_ne (Ne.symm heq)]

theorem additions_valuesAt {keys : List String} (hk : k ∉ keys) (s : Server)
    (fields : List (String × String)) :
    (s.transaction (additions fields keys)).2.valuesAt k = s.valuesAt k := by
  induction keys generalizing s with
  | nil => rfl
  | cons key keys ih =>
      rw [List.mem_cons, not_or] at hk
      exact (ih hk.2 _).trans (add_valuesAt hk.1 s fields)

theorem transaction_append (s : Server) (ws ws' : List Write) :
    (s.transaction (ws ++ ws')).2 = ((s.transaction ws).2.transaction ws').2 := by
  induction ws generalizing s with
  | nil => rfl
  | cons w ws ih => exact ih _

end Parley.StreamStore.Server
