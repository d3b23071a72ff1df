import Mathlib.Data.String.Basic
import Parley.Proofs.Json.Canonical
import Parley.Proofs.Json.Fields

namespace Parley

/-- An integer that 64 bits hold, signed or not, or a finite double. -/
def Number.Representable : Number → Prop
  | .int i => -0x8000000000000000 ≤ i ∧ i < 0x10000000000000000
  | .float x => x.isFinite = true

theorem Number.Representable.finite {n : Number} (h : n.Representable) : n.Finite := by
  cases n with
  | int i => trivial
  | float x => exact h

theorem Fields.find?_insertNew {key : String} {fields : Fields} (h : fields.find? key = none)
    (value : Json) (k : String) :
    (fields.insertNew key value).find? k = if k = key then some value else fields.find? k := by
  induction fields with
  | nil => exact lookup_cons key value [] k
  | cons field fields ih =>
      obtain ⟨i, v⟩ := field
      simp only [find?, insertNew] at h ih ⊢
      rw [lookup_cons] at h
      split
      · exact lookup_cons key value _ k
      · split
        · rename_i hi
          rw [if_pos hi] at h
          cases h
        · rename_i hi
          rw [if_neg hi] at h
          rw [lookup_cons, lookup_cons, ih h]
          by_cases hk : k = i
          · subst hk
            rw [if_pos rfl, if_neg (Ne.symm hi), if_pos rfl]
          · rw [if_neg hk, if_neg hk]

namespace Json

mutual

/-- A value as the data type of documents has it: its numbers are representable, and the keys of
every object ascend. -/
def Proper : Json → Prop
  | .num n => n.Representable
  | .arr items => ProperItems items
  | .obj members => ProperMembers members
  | _ => True

def ProperItems : List Json → Prop
  | [] => True
  | v :: rest => v.Proper ∧ ProperItems rest

def ProperMembers : List (String × Json) → Prop
  | [] => True
  | (key, v) :: rest => (∀ m ∈ rest, key < m.1) ∧ v.Proper ∧ ProperMembers rest

end

mutual

theorem Proper.finite : {v : Json} → v.Proper → v.Finite
  | .num _, h => Number.Representable.finite h
  | .arr _, h => ProperItems.finite h
  | .obj _, h => ProperMembers.finite h
  | .null, _ | .bool _, _ | .str _, _ => trivial

theorem ProperItems.finite : {items : List Json} → ProperItems items → FiniteItems items
  | [], _ => trivial
  | _ :: _, h => ⟨h.1.finite, ProperItems.finite h.2⟩

theorem ProperMembers.finite : {members : List (String × Json)} → ProperMembers members →
    FiniteMembers members
  | [], _ => trivial
  | (_, _) :: _, h => ⟨h.2.1.finite, ProperMembers.finite h.2.2⟩

end

theorem mem_insertNew {key : String} {v : Json} {fields : Fields} {m : String × Json}
    (h : m ∈ fields.insertNew key v) : m = (key, v) ∨ m ∈ fields := by
  induction fields with
  | nil => exact .inl (List.mem_singleton.mp h)
  | cons f fields ih =>
      rw [Fields.insertNew] at h
      split at h
      · exact List.mem_cons.mp h
      · split at h
        · exact .inr h
        · rcases List.mem_cons.mp h with rfl | h
          · exact .inr List.mem_cons_self
          · exact (ih h).imp_right (List.mem_cons_of_mem f)

def Ascending (fields : Fields) : Prop := fields.Pairwise fun a b => a.1 < b.1

theorem ascending_insertNew {key : String} {v : Json} {fields : Fields} (h : Ascending fields) :
    Ascending (fields.insertNew key v) := by
  induction fields with
  | nil => exact List.pairwise_singleton _ _
  | cons f fields ih =>
      obtain ⟨k, w⟩ := f
      obtain ⟨hlt, hrest⟩ := List.pairwise_cons.mp h
      rw [Fields.insertNew]
      split
      · rename_i hk
        refine List.pairwise_cons.mpr ⟨?_, h⟩
        intro m hm
        rcases List.mem_cons.mp hm with rfl | hm
        · exact hk
        · exact lt_trans hk (hlt m hm)
      · split
        · exact h
        · rename_i hnlt hne
          refine List.pairwise_cons.mpr ⟨?_, ih hrest⟩
          intro m hm
          rcases mem_insertNew hm with rfl | hm
          · exact lt_of_le_of_ne (not_lt.mp hnlt) (Ne.symm hne)
          · exact hlt m hm

theorem properMembers_iff {members : List (String × Json)} :
    ProperMembers members ↔ Ascending members ∧ ∀ m ∈ members, m.2.Proper := by
  induction members with
  | nil => exact ⟨fun _ => ⟨.nil, List.forall_mem_nil _⟩, fun _ => trivial⟩
  | cons m members ih =>
      obtain ⟨key, v⟩ := m
      rw [ProperMembers, ih, List.forall_mem_cons]
      constructor
      · rintro ⟨hlt, hv, hasc, hrest⟩
        exact ⟨List.pairwise_cons.mpr ⟨hlt, hasc⟩, hv, hrest⟩
      · rintro ⟨hasc, hv, hrest⟩
        obtain ⟨hlt, hasc⟩ := List.pairwise_cons.mp hasc
        exact ⟨hlt, hv, hasc, hrest⟩

theorem mem_insert {key : String} {v : Json} {fields : Fields} {m : String × Json}
    (h : m ∈ fields.insert key v) : m = (key, v) ∨ m ∈ fields := by
  induction fields with
  | nil => exact .inl (List.mem_singleton.mp h)
  | cons f fields ih =>
      rw [Fields.insert] at h
      split at h
      · exact List.mem_cons.mp h
      · split at h
        · exact (List.mem_cons.mp h).imp_right (List.mem_cons_of_mem f)
        · rcases List.mem_cons.mp h with rfl | h
          · exact .inr List.mem_cons_self
          · exact (ih h).imp_right (List.mem_cons_of_mem f)

theorem keys_insert (key : String) (v : Json) (fields : Fields) :
    (fields.insert key v).map Prod.fst = (fields.insertNew key v).map Prod.fst := by
  induction fields with
  | nil => rfl
  | cons f fields ih =>
      rw [Fields.insert, Fields.insertNew]
      split
      · rfl
      · split
        · rename_i hk
          rw [List.map_cons, List.map_cons, hk]
        · rw [List.map_cons, List.map_cons, ih]

theorem ascending_insert {key : String} {v : Json} {fields : Fields} (h : Ascending fields) :
    Ascending (fields.insert key v) := by
  have hnew : Ascending (fields.insertNew key v) := ascending_insertNew h
  rw [Ascending, ← List.pairwise_map] at hnew ⊢
  rwa [keys_insert]

theorem properMembers_insert {key : String} {v : Json} (hv : v.Proper) {fields : Fields}
    (h : ProperMembers fields) : ProperMembers (fields.insert key v) := by
  rw [properMembers_iff] at h ⊢
  refine ⟨ascending_insert h.1, ?_⟩
  intro m hm
  rcases mem_insert hm with rfl | hm
  · exact hv
  · exact h.2 m hm

theorem insertNew_of_lt {key : String} {fields : Fields} (h : ∀ m ∈ fields, key < m.1)
    (value : Json) : fields.insertNew key value = (key, value) :: fields := by
  cases fields with
  | nil => rfl
  | cons m fields => rw [Fields.insertNew, if_pos (h m (by simp))]

mutual

theorem Proper.sorted_eq : {v : Json} → v.Proper → v.sorted = v
  | .arr _, h => congrArg Json.arr (ProperItems.sorted_eq h)
  | .obj _, h => congrArg Json.obj (ProperMembers.sorted_eq h)
  | .null, _ | .bool _, _ | .num _, _ | .str _, _ => rfl

theorem ProperItems.sorted_eq : {items : List Json} → ProperItems items →
    sortedItems items = items
  | [], _ => rfl
  | _ :: _, h => congrArg₂ List.cons h.1.sorted_eq (ProperItems.sorted_eq h.2)

theorem ProperMembers.sorted_eq : {members : List (String × Json)} → ProperMembers members →
    sortedMembers members = members
  | [], _ => rfl
  | (key, v) :: rest, h => by
      rw [sortedMembers, ProperMembers.sorted_eq h.2.2, h.2.1.sorted_eq, insertNew_of_lt h.1]

end

theorem finiteMembers_iff {members : List (String × Json)} :
    FiniteMembers members ↔ ∀ m ∈ members, m.2.Finite := by
  induction members with
  | nil => exact ⟨fun _ => List.forall_mem_nil _, fun _ => trivial⟩
  | cons m members ih => rw [FiniteMembers, ih, List.forall_mem_cons]

theorem finiteMembers_insertNew {key : String} {v : Json} (hv : v.Finite) {fields : Fields}
    (h : FiniteMembers fields) : FiniteMembers (fields.insertNew key v) := by
  rw [finiteMembers_iff] at h ⊢
  intro m hm
  rcases mem_insertNew hm with rfl | hm
  · exact hv
  · exact h m hm

mutual

theorem sorted_finite : {v : Json} → v.Finite → v.sorted.Finite
  | .arr _, h => sortedItems_finite h
  | .obj _, h => sortedMembers_finite h
  | .num _, h => h
  | .null, _ | .bool _, _ | .str _, _ => trivial

theorem sortedItems_finite : {items : List Json} → FiniteItems items →
    FiniteItems (sortedItems items)
  | [], _ => trivial
  | _ :: _, h => ⟨sorted_finite h.1, sortedItems_finite h.2⟩

theorem sortedMembers_finite : {members : List (String × Json)} → FiniteMembers members →
    FiniteMembers (sortedMembers members)
  | [], _ => trivial
  | (_, _) :: _, h => finiteMembers_insertNew (sorted_finite h.1) (sortedMembers_finite h.2)

end

theorem ascending_sortedMembers (members : List (String × Json)) :
    Ascending (sortedMembers members) := by
  induction members with
  | nil => exact .nil
  | cons m members ih => exact ascending_insertNew ih

theorem Ascending.nodup {fields : Fields} (h : Ascending fields) :
    (fields.map Prod.fst).Nodup := by
  rw [List.Nodup, List.pairwise_map]
  exact h.imp fun hlt => ne_of_lt hlt

theorem canonical_injective {v w : Json} (hv : v.Finite) (hw : w.Finite)
    (h : v.canonical = w.canonical) : v.sorted = w.sorted :=
  render_injective (sorted_finite hv) (sorted_finite hw) (String.ofList_injective h)

theorem find?_sortedMembers {members : List (String × Json)}
    (h : (members.map Prod.fst).Nodup) (key : String) :
    Fields.find? key (sortedMembers members) = (members.lookup key).map sorted := by
  induction members generalizing key with
  | nil => rfl
  | cons m rest ih =>
      obtain ⟨k, v⟩ := m
      rw [List.map_cons, List.nodup_cons] at h
      have hnone : Fields.find? k (sortedMembers rest) = none := by
        rw [ih h.2, Option.map_eq_none_iff, List.lookup_eq_none_iff]
        intro p hp
        rw [bne_iff_ne]
        rintro rfl
        exact h.1 (List.mem_map.mpr ⟨p, hp, rfl⟩)
      rw [sortedMembers, Fields.find?_insertNew hnone, ih h.2, Fields.lookup_cons]
      split <;> rfl

end Json

end Parley
