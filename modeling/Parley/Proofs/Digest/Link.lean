import Mathlib.Data.List.Perm.Basic
import Parley.Proofs.Digest.Chain
import Parley.Proofs.Json.Outline
import Parley.Proofs.Json.Reordered

namespace Parley

namespace Json

variable {fields fields' listed members : List (String × Json)} {u v w : Json}

theorem perm_sortedMembers (h : (fields.map Prod.fst).Nodup) :
    (sortedMembers fields).Perm (fields.map fun m => (m.1, m.2.sorted)) := by
  induction fields with
  | nil => exact .refl _
  | cons m rest ih =>
      obtain ⟨key, v⟩ := m
      rw [List.map_cons, List.nodup_cons] at h
      have hnew : Fields.find? key (sortedMembers rest) = none := by
        rw [find?_sortedMembers h.2, Option.map_eq_none_iff, List.lookup_eq_none_iff]
        intro m hm
        rw [bne_iff_ne]
        rintro rfl
        exact h.1 (List.mem_map.mpr ⟨m, hm, rfl⟩)
      exact (perm_insertNew hnew _).symm.trans ((ih h.2).cons _)

theorem sortedMembers_perm (hn : (fields.map Prod.fst).Nodup) (h : fields.Perm fields') :
    sortedMembers fields = sortedMembers fields' := by
  have hn' : (fields'.map Prod.fst).Nodup := (h.map Prod.fst).nodup_iff.mp hn
  have hperm := (perm_sortedMembers hn).trans
    ((h.map fun m => (m.1, m.2.sorted)).trans (perm_sortedMembers hn').symm)
  refine hperm.eq_of_pairwise ?_ (ascending_sortedMembers fields) (ascending_sortedMembers fields')
  intro a b _ _ hab hba
  exact absurd hba (lt_asymm hab)

mutual

theorem Reordered.sorted_eq : {v w : Json} → Reordered v w → v.Distinct → v.sorted = w.sorted
  | _, _, .null, _ | _, _, .bool _, _ | _, _, .num _, _ | _, _, .str _, _ => rfl
  | _, _, .arr h, hd => congrArg Json.arr (ReorderedItems.sorted_eq h hd)
  | _, _, .obj h hp, hd => by
      have hkeys := h.keys.symm ▸ hd.1
      exact congrArg Json.obj ((ReorderedMembers.sorted_eq h hd.2).trans (sortedMembers_perm hkeys hp))

theorem ReorderedItems.sorted_eq : {vs ws : List Json} → ReorderedItems vs ws → DistinctItems vs →
    sortedItems vs = sortedItems ws
  | _, _, .nil, _ => rfl
  | _, _, .cons hv h, hd => congrArg₂ List.cons (hv.sorted_eq hd.1) (ReorderedItems.sorted_eq h hd.2)

theorem ReorderedMembers.sorted_eq : {vs ws : List (String × Json)} → ReorderedMembers vs ws →
    DistinctMembers vs → sortedMembers vs = sortedMembers ws
  | _, _, .nil, _ => rfl
  | _, _, .cons _ hv h, hd => by
      rw [sortedMembers, sortedMembers, hv.sorted_eq hd.1, ReorderedMembers.sorted_eq h hd.2]

end

/-- Members can be reordered before or after what they hold is. -/
theorem ReorderedMembers.perm (h : ReorderedMembers fields listed) (hp : listed.Perm members) :
    ∃ fields', fields'.Perm fields ∧ ReorderedMembers fields' members := by
  induction hp generalizing fields with
  | nil => exact ⟨fields, .refl _, h⟩
  | cons m _ ih =>
      cases h with
      | cons key hv h =>
          obtain ⟨fields', hfields, h⟩ := ih h
          exact ⟨_ :: fields', hfields.cons _, .cons key hv h⟩
  | swap m m' rest =>
      cases h with
      | cons key hv h =>
          cases h with
          | cons key' hv' h =>
              exact ⟨_, .swap _ _ _, .cons key' hv' (.cons key hv h)⟩
  | trans _ _ ih ih' =>
      obtain ⟨fields', hfields, h⟩ := ih h
      obtain ⟨fields'', hfields', h⟩ := ih' h
      exact ⟨fields'', hfields'.trans hfields, h⟩

mutual

/-- Two values that are one value when reordered are each other's, reordered. -/
theorem Reordered.join : {v w u : Json} → Reordered v u → Reordered w u → Reordered v w
  | _, _, _, .null, .null => .null
  | _, _, _, .bool b, .bool _ => .bool b
  | _, _, _, .num n, .num _ => .num n
  | _, _, _, .str s, .str _ => .str s
  | _, _, _, .arr h, .arr h' => .arr (ReorderedItems.join h h')
  | _, _, _, .obj h hp, .obj h' hp' => by
      obtain ⟨fields, hfields, h'⟩ := h'.perm (hp'.trans hp.symm)
      exact .obj (ReorderedMembers.join h h') hfields

theorem ReorderedItems.join : {vs ws us : List Json} → ReorderedItems vs us →
    ReorderedItems ws us → ReorderedItems vs ws
  | _, _, _, .nil, .nil => .nil
  | _, _, _, .cons hv h, .cons hw h' => .cons (hv.join hw) (ReorderedItems.join h h')

theorem ReorderedMembers.join : {vs ws us : List (String × Json)} → ReorderedMembers vs us →
    ReorderedMembers ws us → ReorderedMembers vs ws
  | _, _, _, .nil, .nil => .nil
  | _, _, _, .cons key hv h, .cons _ hw h' => .cons key (hv.join hw) (ReorderedMembers.join h h')

end

/-- Two values are the same when sorted just if they differ in the order of members only. -/
theorem sorted_eq_iff (hv : v.Distinct) (hw : w.Distinct) :
    v.sorted = w.sorted ↔ Reordered v w := by
  constructor
  · intro h
    have hsorted := reordered_sorted v hv
    rw [h] at hsorted
    exact hsorted.join (reordered_sorted w hw)
  · exact fun h => h.sorted_eq hv

theorem canonical_eq_iff (hv : v.Finite) (hw : w.Finite) : v.canonical = w.canonical ↔
    v.sorted = w.sorted :=
  ⟨canonical_injective hv hw, fun h => by rw [canonical, h, canonical]⟩

end Json

namespace Chain

variable {p p' : String} {v v' : Json}

/-- Wherever texts are cut at a colon, the canonical text after it is one and the same. -/
theorem of_append_colon {left left' : List Char} (hv : v.Finite) (hv' : v'.Finite)
    (h : left ++ ':' :: v.render = left' ++ ':' :: v'.render) : left = left' ∧ v.render = v'.render := by
  rw [List.append_eq_append_iff] at h
  rcases h with ⟨between, rfl, h⟩ | ⟨between, rfl, h⟩
  · cases between with
    | nil => exact ⟨(List.append_nil _).symm, (List.cons.inj h).2⟩
    | cons c between => exact absurd (List.cons.inj h).2 (Json.render_ne_append_colon hv hv' between)
  · cases between with
    | nil => exact ⟨List.append_nil _, (List.cons.inj h).2.symm⟩
    | cons c between => exact absurd (List.cons.inj h).2 (Json.render_ne_append_colon hv' hv between)

theorem canonical_of_link_eq (hv : v.Finite) (hv' : v'.Finite) (h : link p v = link p' v') :
    p = p' ∧ v.canonical = v'.canonical := by
  have hl := congrArg String.toList h
  simp only [link, Json.canonical, String.toList_append, String.toList_ofList, List.append_assoc] at hl
  obtain ⟨hp, hrender⟩ := of_append_colon (Json.sorted_finite hv) (Json.sorted_finite hv') hl
  exact ⟨String.toList_inj.mp hp, by rw [Json.canonical, hrender, Json.canonical]⟩

/-- The linked text says what is linked: the text before, whatever is in it, and the value, but for
the order of members at any depth. So does the canonical text alone. -/
theorem link_eq_iff (p p' : String) (hv : v.Finite) (hv' : v'.Finite) (hd : v.Distinct)
    (hd' : v'.Distinct) :
    (link p v = link p' v' ↔ p = p' ∧ Json.Reordered v v') ∧
      (v.canonical = v'.canonical ↔ Json.Reordered v v') := by
  have hcanonical : v.canonical = v'.canonical ↔ Json.Reordered v v' :=
    (Json.canonical_eq_iff hv hv').trans (Json.sorted_eq_iff hd hd')
  refine ⟨⟨fun h => ?_, ?_⟩, hcanonical⟩
  · obtain ⟨hp, hsame⟩ := canonical_of_link_eq hv hv' h
    exact ⟨hp, hcanonical.mp hsame⟩
  · rintro ⟨rfl, h⟩
    rw [link, hcanonical.mpr h, link]

def nested : Json :=
  .obj [("at:", .obj [("y", .str "\":"), ("x", .num (.int 1))]), ("as", .arr [.null])]

def nestedTurned : Json :=
  .obj [("as", .arr [.null]), ("at:", .obj [("x", .num (.int 1)), ("y", .str "\":")])]

theorem link_eq_iff_nested :
    (nested.Finite ∧ nestedTurned.Finite ∧ nested.Distinct ∧ nestedTurned.Distinct) ∧
      nested.canonical = nestedTurned.canonical ∧ link "0:" nested = link "0:" nestedTurned ∧
      link "0:" nested ≠ link "0" nestedTurned := by
  have hv : nested.Finite := ⟨⟨trivial, trivial, trivial⟩, ⟨trivial, trivial⟩, trivial⟩
  have hv' : nestedTurned.Finite := ⟨⟨trivial, trivial⟩, ⟨trivial, trivial, trivial⟩, trivial⟩
  have hd : nested.Distinct :=
    ⟨by decide, ⟨by decide, trivial, trivial, trivial⟩, ⟨trivial, trivial⟩, trivial⟩
  have hd' : nestedTurned.Distinct :=
    ⟨by decide, ⟨trivial, trivial⟩, ⟨by decide, trivial, trivial, trivial⟩, trivial⟩
  have hinner : Json.Reordered (.obj [("y", .str "\":"), ("x", .num (.int 1))])
      (.obj [("x", .num (.int 1)), ("y", .str "\":")]) :=
    .obj (.cons "y" (.str _) (.cons "x" (.num _) .nil)) (.swap _ _ _)
  have h : Json.Reordered nested nestedTurned :=
    .obj (.cons "at:" hinner (.cons "as" (.arr (.cons .null .nil)) .nil)) (.swap _ _ _)
  refine ⟨⟨hv, hv', hd, hd'⟩, (link_eq_iff "0:" "0:" hv hv' hd hd').2.mpr h,
    (link_eq_iff "0:" "0:" hv hv' hd hd').1.mpr ⟨rfl, h⟩, fun heq => ?_⟩
  exact absurd ((link_eq_iff "0:" "0" hv hv' hd hd').1.mp heq).1 (by decide)

end Chain

end Parley
