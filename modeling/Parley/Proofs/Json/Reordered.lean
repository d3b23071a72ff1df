import Mathlib.Data.List.Perm.Basic
import Parley.Proofs.Json.Parts

namespace Parley

theorem mapM_eq_none {α β : Type} {f : α → Option β} {xs : List α} {x : α} (hx : x ∈ xs)
    (h : f x = none) : xs.mapM f = none := by
  induction xs with
  | nil => cases hx
  | cons y xs ih =>
      rw [List.mapM_cons]
      rcases List.mem_cons.mp hx with rfl | hx
      · rw [h]
        rfl
      · rw [ih hx]
        cases f y <;> rfl

theorem Fields.lookup_of_perm {β : Type} {l l' : List (String × β)} (h : l.Perm l')
    (hn : (l.map Prod.fst).Nodup) (key : String) : l.lookup key = l'.lookup key := by
  have hn' : (l'.map Prod.fst).Nodup := (h.map Prod.fst).nodup_iff.mp hn
  cases hv : l'.lookup key with
  | some v => exact lookup_of_mem hn (h.mem_iff.mpr (mem_of_lookup hv))
  | none =>
      rw [List.lookup_eq_none_iff] at hv ⊢
      exact fun p hp => hv p (h.mem_iff.mp hp)

namespace Json

mutual

/-- A value with the members of its objects in some order. -/
inductive Reordered : Json → Json → Prop
  | null : Reordered .null .null
  | bool (b : Bool) : Reordered (.bool b) (.bool b)
  | num (n : Number) : Reordered (.num n) (.num n)
  | str (s : String) : Reordered (.str s) (.str s)
  | arr {items items' : List Json} (h : ReorderedItems items items') :
    Reordered (.arr items) (.arr items')
  | obj {members listed members' : List (String × Json)} (h : ReorderedMembers members listed)
    (hp : listed.Perm members') : Reordered (.obj members) (.obj members')

inductive ReorderedItems : List Json → List Json → Prop
  | nil : ReorderedItems [] []
  | cons {v v' : Json} {rest rest' : List Json} (hv : Reordered v v')
    (h : ReorderedItems rest rest') : ReorderedItems (v :: rest) (v' :: rest')

inductive ReorderedMembers : List (String × Json) → List (String × Json) → Prop
  | nil : ReorderedMembers [] []
  | cons (key : String) {v v' : Json} {rest rest' : List (String × Json)} (hv : Reordered v v')
    (h : ReorderedMembers rest rest') : ReorderedMembers ((key, v) :: rest) ((key, v') :: rest')

end

mutual

def Distinct : Json → Prop
  | .arr items => DistinctItems items
  | .obj members => (members.map Prod.fst).Nodup ∧ DistinctMembers members
  | _ => True

def DistinctItems : List Json → Prop
  | [] => True
  | v :: rest => v.Distinct ∧ DistinctItems rest

def DistinctMembers : List (String × Json) → Prop
  | [] => True
  | (_, v) :: rest => v.Distinct ∧ DistinctMembers rest

end

theorem distinctMembers_iff {members : List (String × Json)} :
    DistinctMembers members ↔ ∀ m ∈ members, m.2.Distinct := by
  induction members with
  | nil => exact ⟨fun _ => List.forall_mem_nil _, fun _ => trivial⟩
  | cons m members ih => rw [DistinctMembers, ih, List.forall_mem_cons]

theorem distinct_record {ms : List (String × Option Json)} (hn : (ms.map Prod.fst).Nodup)
    (h : ∀ m ∈ ms, ∀ v ∈ m.2, v.Distinct) : (record ms).Distinct := by
  refine ⟨(keys_record_sublist ms).nodup hn, distinctMembers_iff.mpr ?_⟩
  intro m hm
  obtain ⟨m', hm', heq⟩ := List.mem_filterMap.mp hm
  obtain ⟨v, hv, rfl⟩ := Option.map_eq_some_iff.mp heq
  exact h m' hm' v hv

theorem distinct_float (x : Float) : (float x).Distinct := by
  rw [float]
  split <;> trivial

theorem distinct_strings (texts : List String) : (strings texts).Distinct := by
  change DistinctItems _
  induction texts with
  | nil => trivial
  | cons text texts ih => exact ⟨trivial, ih⟩

theorem finite_strings (texts : List String) : (strings texts).Finite := by
  change FiniteItems _
  induction texts with
  | nil => trivial
  | cons text texts ih => exact ⟨trivial, ih⟩

theorem perm_insertNew {key : String} {fields : Fields} (h : fields.find? key = none) (v : Json) :
    ((key, v) :: fields).Perm (fields.insertNew key v) := by
  induction fields with
  | nil => exact .refl _
  | cons f fields ih =>
      obtain ⟨k, w⟩ := f
      rw [Fields.find?, Fields.lookup_cons] at h
      rw [Fields.insertNew]
      split
      · exact .refl _
      · split at h
        · cases h
        · rename_i hne
          rw [if_neg hne]
          exact (List.Perm.swap _ _ _).trans ((ih h).cons (k, w))

mutual

theorem reordered_sorted : (v : Json) → v.Distinct → Reordered v v.sorted
  | .null, _ => .null
  | .bool b, _ => .bool b
  | .num n, _ => .num n
  | .str s, _ => .str s
  | .arr items, h => .arr (reorderedItems_sorted items h)
  | .obj members, h => by
      obtain ⟨listed, hlisted, hp⟩ := reorderedMembers_sorted members h.1 h.2
      exact .obj hlisted hp

theorem reorderedItems_sorted : (items : List Json) → DistinctItems items →
    ReorderedItems items (sortedItems items)
  | [], _ => .nil
  | v :: rest, h => .cons (reordered_sorted v h.1) (reorderedItems_sorted rest h.2)

theorem reorderedMembers_sorted : (members : List (String × Json)) →
    (members.map Prod.fst).Nodup → DistinctMembers members →
    ∃ listed, ReorderedMembers members listed ∧ listed.Perm (sortedMembers members)
  | [], _, _ => ⟨[], .nil, .refl _⟩
  | (key, v) :: rest, hn, h => by
      rw [List.map_cons, List.nodup_cons] at hn
      obtain ⟨listed, hlisted, hp⟩ := reorderedMembers_sorted rest hn.2 h.2
      have hnew : Fields.find? key (sortedMembers rest) = none := by
        rw [find?_sortedMembers hn.2, Option.map_eq_none_iff, List.lookup_eq_none_iff]
        intro p hp
        rw [bne_iff_ne]
        rintro rfl
        exact hn.1 (List.mem_map.mpr ⟨p, hp, rfl⟩)
      exact ⟨(key, v.sorted) :: listed, .cons key (reordered_sorted v h.1) hlisted,
        (hp.cons _).trans (perm_insertNew hnew _)⟩

end

mutual

theorem Reordered.finite : {v w : Json} → Reordered v w → v.Finite → w.Finite
  | _, _, .null, _ | _, _, .bool _, _ | _, _, .str _, _ => trivial
  | _, _, .num _, h => h
  | _, _, .arr hr, h => ReorderedItems.finite hr h
  | _, _, .obj hr hp, h => by
      have hlisted := finiteMembers_iff.mp (ReorderedMembers.finite hr h)
      exact finiteMembers_iff.mpr fun m hm => hlisted m (hp.mem_iff.mpr hm)

theorem ReorderedItems.finite : {vs ws : List Json} → ReorderedItems vs ws → FiniteItems vs →
    FiniteItems ws
  | _, _, .nil, _ => trivial
  | _, _, .cons hv hr, h => ⟨hv.finite h.1, ReorderedItems.finite hr h.2⟩

theorem ReorderedMembers.finite : {vs ws : List (String × Json)} → ReorderedMembers vs ws →
    FiniteMembers vs → FiniteMembers ws
  | _, _, .nil, _ => trivial
  | _, _, .cons _ hv hr, h => ⟨hv.finite h.1, ReorderedMembers.finite hr h.2⟩

end

variable {members listed : List (String × Json)} {w : Json}

theorem ReorderedMembers.keys (h : ReorderedMembers members listed) :
    listed.map Prod.fst = members.map Prod.fst := by
  induction members generalizing listed with
  | nil =>
      cases h
      rfl
  | cons m members ih =>
      cases h with
      | cons key hv h => rw [List.map_cons, List.map_cons, ih h]

theorem ReorderedMembers.lookup (h : ReorderedMembers members listed) (key : String) :
    Option.Rel Reordered (members.lookup key) (listed.lookup key) := by
  induction members generalizing listed with
  | nil =>
      cases h
      exact .none
  | cons m members ih =>
      cases h with
      | cons k hv h =>
          rw [Fields.lookup_cons, Fields.lookup_cons]
          split
          · exact .some hv
          · exact ih h

theorem Reordered.float_eq {x : Float} (h : Reordered (float x) w) : w = float x := by
  by_cases hx : x.isFinite = true
  · rw [float, if_pos hx] at h ⊢
    cases h
    rfl
  · rw [float, if_neg hx] at h ⊢
    cases h
    rfl

theorem Reordered.strings_eq {texts : List String} (h : Reordered (strings texts) w) :
    w = strings texts := by
  cases h with
  | arr h =>
      rename_i items
      rw [strings, arr.injEq]
      induction texts generalizing items with
      | nil =>
          cases h
          rfl
      | cons text texts ih =>
          cases h with
          | cons hv h =>
              cases hv
              rw [List.map_cons, ih h]

/-- However its parts are ordered, a record is read as its parts, reordered. -/
theorem ofDoc?_reordered (names : List String) (ms : List (String × Option Json))
    (hnames : ms.map Prod.fst = names) (hn : names.Nodup) (h : Reordered (record ms) w) :
    ∃ r, Record.ofDoc? names w.written = some r ∧
      ∀ p ∈ ms, Option.Rel (fun v d => ∃ v', Reordered v v' ∧ v'.written = d) p.2
        (r.lookup p.1) := by
  subst hnames
  have hrecord := (keys_record_sublist ms).nodup hn
  cases h with
  | obj h hp =>
      rename_i listed members
      have hlisted : (listed.map Prod.fst).Nodup := h.keys ▸ hrecord
      obtain ⟨r, hr, -, hlookup⟩ := ofMembers?_written (ms.map Prod.fst)
        ((hp.map Prod.fst).nodup_iff.mp hlisted)
      refine ⟨r, hr, ?_⟩
      intro p hmem
      have hrel := h.lookup p.1
      rw [lookup_record hn, Fields.lookup_of_mem hn hmem, Option.join_some,
        Fields.lookup_of_perm hp hlisted] at hrel
      rw [hlookup p.1 (List.mem_map_of_mem hmem)]
      revert hrel
      generalize p.2 = o, members.lookup p.1 = o'
      rintro (hv | _)
      · exact .some ⟨_, hv, rfl⟩
      · exact .none

theorem writtenMembers_eq_map (members : List (String × Json)) :
    writtenMembers members = members.map fun m => (some m.1, m.2.written) := by
  induction members with
  | nil => rfl
  | cons m members ih => exact congrArg _ ih

variable {α β : Type} {value : Doc → Option β} {put : α → Json} {es : List (String × α)}

theorem entries?_reordered (put : α → Json) (rel : α → β → Prop)
    (hv : ∀ e ∈ es, ∀ v, Reordered (put e.2) v → ∃ b, value v.written = some b ∧ rel e.2 b)
    (h : Reordered (.obj (es.map fun e => (e.1, put e.2))) w) :
    ∃ read entries, List.Forall₂ (fun e e' => e'.1 = e.1 ∧ rel e.2 e'.2) es read ∧
      read.Perm entries ∧ Doc.entries? some value w.written = some entries := by
  cases h with
  | obj h hp =>
      rename_i listed members
      -- the induction is on the entries as they were written; their order comes in after it
      suffices hread : ∃ read, List.Forall₂ (fun e e' => e'.1 = e.1 ∧ rel e.2 e'.2) es read ∧
          Doc.entries? some value (.obj (writtenMembers listed)) = some read by
        obtain ⟨read, hrel, hread⟩ := hread
        have hperm : (writtenMembers members).Perm (writtenMembers listed) := by
          rw [writtenMembers_eq_map, writtenMembers_eq_map]
          exact (hp.map _).symm
        obtain ⟨entries, hentries, hpe⟩ := List.perm_comp_forall₂ hperm (mapM_eq_some_iff.mp hread)
        exact ⟨read, entries, hrel, hpe.symm, mapM_eq_some_iff.mpr hentries⟩
      clear hp
      induction es generalizing listed with
      | nil =>
          cases h
          exact ⟨[], .nil, rfl⟩
      | cons e es ih =>
          rw [List.forall_mem_cons] at hv
          cases h with
          | cons key hr h =>
              obtain ⟨b, hb, hrel⟩ := hv.1 _ hr
              obtain ⟨read, hrest, hread⟩ := ih hv.2 h
              refine ⟨(e.1, b) :: read, .cons ⟨rfl, hrel⟩ hrest, ?_⟩
              refine mapM_eq_some_iff.mpr (.cons ?_ (mapM_eq_some_iff.mp hread))
              simp only [Option.bind_some, hb]

theorem ReorderedMembers.exists_of_mem (h : ReorderedMembers members listed)
    {m : String × Json} (hm : m ∈ members) : ∃ v, (m.1, v) ∈ listed ∧ Reordered m.2 v := by
  induction members generalizing listed with
  | nil => cases hm
  | cons m' members ih =>
      cases h with
      | cons key hv h =>
          rcases List.mem_cons.mp hm with rfl | hm
          · exact ⟨_, List.mem_cons_self, hv⟩
          · obtain ⟨v, hmem, hv⟩ := ih h hm
            exact ⟨v, List.mem_cons_of_mem _ hmem, hv⟩

theorem entries?_eq_none {e : String × α} (he : e ∈ es)
    (hnone : ∀ v, Reordered (put e.2) v → value v.written = none)
    (h : Reordered (.obj (es.map fun e => (e.1, put e.2))) w) :
    Doc.entries? some value w.written = none := by
  cases h with
  | obj h hp =>
      rename_i listed members
      obtain ⟨v, hmem, hv⟩ := h.exists_of_mem (List.mem_map_of_mem he)
      have hwritten : (some e.1, v.written) ∈ writtenMembers members := by
        rw [writtenMembers_eq_map]
        exact List.mem_map.mpr ⟨_, hp.mem_iff.mp hmem, rfl⟩
      refine mapM_eq_none hwritten ?_
      simp only [hnone v hv, Option.bind_some]

end Json

end Parley
