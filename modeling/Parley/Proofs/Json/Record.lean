import Mathlib.Data.List.Forall2
import Parley.Json.Record
import Parley.Proofs.Json.Reading

namespace Parley

theorem mapM_eq_some_iff {α β : Type} {f : α → Option β} {xs : List α} {ys : List β} :
    xs.mapM f = some ys ↔ List.Forall₂ (fun x y => f x = some y) xs ys := by
  induction xs generalizing ys with
  | nil => rw [List.mapM_nil, Option.pure_def, Option.some.injEq, List.forall₂_nil_left_iff, eq_comm]
  | cons x xs ih =>
      simp only [List.mapM_cons, Option.bind_eq_bind, Option.bind_eq_some_iff, ih, Option.pure_def,
        Option.some.injEq, List.forall₂_cons_left_iff]
      constructor
      · rintro ⟨y, hy, ys, hys, rfl⟩
        exact ⟨y, ys, hy, hys, rfl⟩
      · rintro ⟨y, ys, hy, hys, rfl⟩
        exact ⟨y, hy, ys, hys, rfl⟩

theorem Number.Representable.isFinite_toFloat {n : Number} (h : n.Representable) :
    n.toFloat.isFinite = true := by
  cases n with
  | float x => exact h
  | int i =>
      cases i with
      | ofNat n => exact Decimal.isFinite_ofNat (Int.ofNat_lt.mp h.2)
      | negSucc n =>
          have hlow := h.1
          exact Decimal.isFinite_neg (Decimal.isFinite_ofNat (by omega))

namespace Json

variable {ms ns : List (String × Option Json)}

theorem lookup_record (h : (ms.map Prod.fst).Nodup) (key : String) :
    (ms.filterMap fun (k, v) => v.map (k, ·)).lookup key = (ms.lookup key).join := by
  induction ms with
  | nil => rfl
  | cons m ms ih =>
      obtain ⟨k, v⟩ := m
      rw [List.map_cons, List.nodup_cons] at h
      rw [Fields.lookup_cons]
      cases v with
      | some v =>
          have hcons := Fields.lookup_cons k v
            (ms.filterMap fun (k, v) => v.map (k, ·)) key
          rw [ih h.2] at hcons
          refine hcons.trans ?_
          split <;> rfl
      | none =>
          refine (ih h.2).trans ?_
          split
          · rename_i hk
            subst hk
            have hnone : ms.lookup key = none := by
              rw [List.lookup_eq_none_iff]
              intro p hp
              rw [bne_iff_ne]
              rintro rfl
              exact h.1 (List.mem_map.mpr ⟨p, hp, rfl⟩)
            rw [hnone]
            rfl
          · rfl

theorem keys_record_sublist (ms : List (String × Option Json)) :
    ((ms.filterMap fun (k, v) => v.map (k, ·)).map Prod.fst).Sublist (ms.map Prod.fst) := by
  induction ms with
  | nil => exact .slnil
  | cons m ms ih =>
      obtain ⟨k, v⟩ := m
      cases v with
      | none => exact ih.cons k
      | some v => exact ih.cons_cons k

theorem finite_record (h : ∀ m ∈ ms, ∀ v ∈ m.2, v.Finite) : (record ms).Finite := by
  change FiniteMembers _
  induction ms with
  | nil => trivial
  | cons m ms ih =>
      obtain ⟨k, v⟩ := m
      rw [List.forall_mem_cons] at h
      cases v with
      | none => exact ih h.2
      | some v => exact ⟨h.1 v rfl, ih h.2⟩

/-- Records with one canonical text say the same under every name. -/
theorem lookup_eq_of_canonical (hm : (ms.map Prod.fst).Nodup) (hn : (ns.map Prod.fst).Nodup)
    (hfm : (record ms).Finite) (hfn : (record ns).Finite)
    (h : (record ms).canonical = (record ns).canonical) (key : String) :
    (ms.lookup key).join.map sorted = (ns.lookup key).join.map sorted := by
  have hs := Json.obj.inj (canonical_injective hfm hfn h)
  have hkeys := congrArg (Fields.find? key) hs
  rw [find?_sortedMembers ((keys_record_sublist ms).nodup hm),
    find?_sortedMembers ((keys_record_sublist ns).nodup hn), lookup_record hm,
    lookup_record hn] at hkeys
  exact hkeys

theorem float_injective {x y : Float} (hx : x.isFinite = true) (hy : y.isFinite = true)
    (h : float x = float y) : x = y := by
  rw [float, float, if_pos hx, if_pos hy] at h
  exact Number.float.inj (Json.num.inj h)

theorem sorted_float (x : Float) : (float x).sorted = float x := by
  rw [float]
  split <;> rfl

theorem finite_float (x : Float) : (float x).Finite := by
  rw [float]
  split
  · assumption
  · trivial

end Json

namespace Record

theorem sound_ofMembers? {names : List String} {members : List (Option String × Doc)}
    (hd : ∀ m ∈ members, m.2.Sound) {r : Record} (h : ofMembers? names members = some r) :
    ∀ p ∈ r, p.2.Sound := by
  induction members generalizing r with
  | nil =>
      obtain rfl := Option.some.inj h
      exact List.forall_mem_nil _
  | cons m members ih =>
      obtain ⟨key, d⟩ := m
      rw [List.forall_mem_cons] at hd
      cases key with
      | none => cases h
      | some key =>
          rw [ofMembers?] at h
          split at h
          · cases h
          · rename_i parts hparts
            have hsound := ih hd.2 hparts
            split at h
            · obtain rfl := Option.some.inj h
              exact hsound
            · split at h
              · cases h
              · obtain rfl := Option.some.inj h
                exact List.forall_mem_cons.mpr ⟨hd.1, hsound⟩

theorem sound_ofDoc? {names : List String} {d : Doc} (hd : d.Sound) {r : Record}
    (h : ofDoc? names d = some r) : ∀ p ∈ r, p.2.Sound := by
  cases hd with
  | obj hmembers => exact sound_ofMembers? hmembers h
  | arr hitems =>
      simp only [ofDoc?] at h
      split at h
      · obtain rfl := Option.some.inj h
        intro p hp
        exact hitems p.2 (List.of_mem_zip hp).2
      · cases h
  | _ => cases h

theorem isFinite_of_find {r : Record} (hr : ∀ p ∈ r, p.2.Sound) {name : String} {x : Float}
    (h : r.find name Doc.float? = some (some x)) : x.isFinite = true := by
  rw [find, get] at h
  split at h
  · cases h
  · rename_i d hd
    have hsound : d.Sound := hr _ (Fields.mem_of_lookup hd)
    cases hsound with
    | num hn =>
        rename_i n
        cases n with
        | none => cases h
        | some n =>
            obtain rfl := Option.some.inj (Option.some.inj h)
            exact (hn n rfl).isFinite_toFloat
    | _ => cases h

theorem proper_of_get {r : Record} (hr : ∀ p ∈ r, p.2.Sound) {name : String} {depth : Nat}
    {fields : Fields} (h : r.get name (Doc.fields? depth) [] = some fields) :
    Json.ProperMembers fields := by
  rw [get] at h
  split at h
  · obtain rfl := Option.some.inj h
    trivial
  · rename_i d hd
    have hsound : d.Sound := hr _ (Fields.mem_of_lookup hd)
    cases hsound with
    | obj hmembers => exact Doc.proper_membersToJson? _ hmembers _ _ h
    | _ => cases h

end Record

end Parley
