import Parley.Proofs.Json.Written

namespace Parley

namespace Json

mutual

def doubles : Json → List Float
  | .null | .bool _ | .str _ | .num (.int _) => []
  | .num (.float x) => [x]
  | .arr items => doublesItems items
  | .obj members => doublesMembers members

def doublesItems : List Json → List Float
  | [] => []
  | v :: rest => v.doubles ++ doublesItems rest

def doublesMembers : List (String × Json) → List Float
  | [] => []
  | (_, v) :: rest => v.doubles ++ doublesMembers rest

end

theorem mem_doublesMembers {members : List (String × Json)} {x : Float} :
    x ∈ doublesMembers members ↔ ∃ m ∈ members, x ∈ m.2.doubles := by
  induction members with
  | nil => simp [doublesMembers]
  | cons m members ih => simp [doublesMembers, ih]

theorem keptMembers_iff {depth : Nat} {members : List (String × Json)} :
    KeptMembers depth members ↔ ∀ m ∈ members, m.2.Kept depth := by
  induction members with
  | nil => simp [KeptMembers]
  | cons m members ih => rw [KeptMembers, ih, List.forall_mem_cons]

mutual

theorem Kept.doubles : {v : Json} → {depth : Nat} → v.Kept depth →
    ∀ x ∈ v.doubles, (Number.float x).Kept
  | .null, _, _ | .bool _, _, _ | .str _, _, _ | .num (.int _), _, _ => by
      rw [Json.doubles]
      exact List.forall_mem_nil _
  | .num (.float x), _, h => by
      rw [Json.doubles, List.forall_mem_singleton]
      rwa [Kept] at h
  | .arr _, 0, h | .obj _, 0, h => by
      rw [Kept] at h
      exact h.elim
  | .arr items, depth + 1, h => by
      rw [Kept] at h
      rw [Json.doubles]
      exact KeptItems.doubles h
  | .obj members, depth + 1, h => by
      rw [Kept] at h
      rw [Json.doubles]
      exact KeptMembers.doubles h

theorem KeptItems.doubles : {items : List Json} → {depth : Nat} → KeptItems depth items →
    ∀ x ∈ doublesItems items, (Number.float x).Kept
  | [], _, _ => List.forall_mem_nil _
  | _ :: _, _, h => List.forall_mem_append.mpr ⟨h.1.doubles, KeptItems.doubles h.2⟩

theorem KeptMembers.doubles : {members : List (String × Json)} → {depth : Nat} →
    KeptMembers depth members → ∀ x ∈ doublesMembers members, (Number.float x).Kept
  | [], _, _ => List.forall_mem_nil _
  | _ :: _, _, h => List.forall_mem_append.mpr ⟨h.1.doubles, KeptMembers.doubles h.2⟩

end

end Json

namespace Doc

mutual

/-- A value that was read is nested no deeper than its reader went, and its integers are read as
they are written; so it is kept if its doubles are. -/
theorem kept_of_toJson? : (d : Doc) → d.Sound → (depth : Nat) → (v : Json) →
    toJson? depth d = some v → (∀ x ∈ v.doubles, (Number.float x).Kept) → v.Kept depth
  | .null, _, depth, v, h, _ => by
      rw [toJson?] at h
      obtain rfl := Option.some.inj h
      trivial
  | .bool b, _, depth, v, h, _ => by
      rw [toJson?] at h
      obtain rfl := Option.some.inj h
      trivial
  | .num n, hd, depth, v, h, hx => by
      rw [toJson?] at h
      obtain ⟨k, hk, rfl⟩ := Option.map_eq_some_iff.mp h
      rw [Json.Kept]
      cases hd with
      | num hn =>
          cases k with
          | int i => exact Number.kept_int (hn _ hk)
          | float x =>
              rw [Json.doubles, List.forall_mem_singleton] at hx
              exact hx
  | .str s, _, depth, v, h, _ => by
      rw [toJson?] at h
      obtain ⟨k, hk, rfl⟩ := Option.map_eq_some_iff.mp h
      trivial
  | .arr items, hd, 0, v, h, _ => by
      rw [toJson?] at h
      cases h
  | .arr items, hd, depth + 1, v, h, hx => by
      rw [toJson?] at h
      obtain ⟨vs, hvs, rfl⟩ := Option.map_eq_some_iff.mp h
      rw [Json.doubles] at hx
      cases hd with
      | arr hitems => exact kept_of_itemsToJson? items hitems depth vs hvs hx
  | .obj members, hd, 0, v, h, _ => by
      rw [toJson?] at h
      cases h
  | .obj members, hd, depth + 1, v, h, hx => by
      rw [toJson?] at h
      obtain ⟨fields, hfields, rfl⟩ := Option.map_eq_some_iff.mp h
      rw [Json.doubles] at hx
      rw [Json.Kept, Json.keptMembers_iff]
      cases hd with
      | obj hmembers =>
          intro m hm
          exact kept_of_membersToJson? members hmembers depth fields hfields m hm
            fun x hmem => hx x (Json.mem_doublesMembers.mpr ⟨m, hm, hmem⟩)

theorem kept_of_itemsToJson? : (items : List Doc) → (∀ d ∈ items, d.Sound) → (depth : Nat) →
    (vs : List Json) → itemsToJson? depth items = some vs →
    (∀ x ∈ Json.doublesItems vs, (Number.float x).Kept) → Json.KeptItems depth vs
  | [], _, depth, vs, h, _ => by
      rw [itemsToJson?] at h
      obtain rfl := Option.some.inj h
      trivial
  | d :: rest, hd, depth, vs, h, hx => by
      rw [itemsToJson?] at h
      split at h
      · rename_i v vs' hv hvs'
        obtain rfl := Option.some.inj h
        rw [List.forall_mem_cons] at hd
        rw [Json.doublesItems, List.forall_mem_append] at hx
        exact ⟨kept_of_toJson? d hd.1 depth v hv hx.1,
          kept_of_itemsToJson? rest hd.2 depth vs' hvs' hx.2⟩
      · cases h

/-- A member that a later one of its key replaces is not there, so each member that is there has to
be looked at by itself. -/
theorem kept_of_membersToJson? : (members : List (Option String × Doc)) →
    (∀ m ∈ members, m.2.Sound) → (depth : Nat) → (fields : Fields) →
    membersToJson? depth members = some fields → ∀ m ∈ fields,
      (∀ x ∈ m.2.doubles, (Number.float x).Kept) → m.2.Kept depth
  | [], _, depth, fields, h => by
      rw [membersToJson?] at h
      obtain rfl := Option.some.inj h
      exact List.forall_mem_nil _
  | (none, d) :: rest, _, depth, fields, h => by
      simp only [membersToJson?] at h
      cases h
  | (some key, d) :: rest, hd, depth, fields, h => by
      simp only [membersToJson?] at h
      split at h
      · rename_i k v fields' hk hv hfields'
        obtain rfl := Option.some.inj h
        rw [List.forall_mem_cons] at hd
        intro m hm
        rcases Json.mem_insertNew hm with rfl | hm
        · exact kept_of_toJson? d hd.1 depth v hv
        · exact kept_of_membersToJson? rest hd.2 depth fields' hfields' m hm
      · cases h

end

theorem keptMembers_iff_doubles {members : List (Option String × Doc)}
    (hd : ∀ m ∈ members, m.2.Sound) {depth : Nat} {fields : Fields}
    (h : membersToJson? depth members = some fields) :
    Json.KeptMembers depth fields ↔ ∀ x ∈ Json.doublesMembers fields, (Number.float x).Kept := by
  constructor
  · exact fun hkept => hkept.doubles
  · intro hx
    rw [Json.keptMembers_iff]
    intro m hm
    exact kept_of_membersToJson? members hd depth fields h m hm
      fun x hmem => hx x (Json.mem_doublesMembers.mpr ⟨m, hm, hmem⟩)

end Doc

end Parley
