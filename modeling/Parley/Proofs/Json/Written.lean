import Parley.Proofs.Json.Record

namespace Parley

open Number (Literal)

namespace Number

/-- A number that is read as it was written. -/
def Kept (n : Number) : Prop := (Literal.read n.render).bind Literal.value? = some n

instance (n : Number) : Decidable n.Kept := inferInstanceAs (Decidable (_ = _))

theorem absorb_eq {ds : List Nat} {s : Nat}
    (h : ds.foldl (fun n d => n * 10 + d) s < significandLimit) :
    absorb s ds = (ds.foldl (fun n d => n * 10 + d) s, []) := by
  induction ds generalizing s with
  | nil => rfl
  | cons d ds ih =>
      have hle (ds : List Nat) (n : Nat) : n ≤ ds.foldl (fun n d => n * 10 + d) n := by
        induction ds generalizing n with
        | nil => exact le_refl n
        | cons d ds ih => exact (show n ≤ n * 10 + d by omega).trans (ih _)
      rw [absorb, if_pos ((hle ds _).trans_lt h), ih h]
      rfl

theorem kept_int {i : Int} (h : (Number.int i).Representable) : (Number.int i).Kept := by
  obtain ⟨hlow, hhigh⟩ := h
  have hdigits : (Literal.values (Decimal.digitsOf i.natAbs)).foldl (fun n d => n * 10 + d) 0 =
      i.natAbs := Literal.natOfDigits_digitsOf i.natAbs
  have habsorb : absorb 0 (Literal.values (Decimal.digitsOf i.natAbs)) = (i.natAbs, []) := by
    rw [absorb_eq, hdigits]
    rw [hdigits, significandLimit]
    omega
  rw [Kept, show render (.int i) = Decimal.integerText i from rfl, Literal.read_integerText,
    Option.bind_some]
  simp only [Literal.value?, Literal.isInteger, Option.isNone_none, Bool.and_self, habsorb]
  by_cases hneg : i < 0
  · rw [decide_eq_true hneg, if_pos rfl, if_neg (by omega), show -(i.natAbs : Int) = i by omega]
  · rw [decide_eq_false hneg, if_neg (by decide), show (i.natAbs : Int) = i by omega]

theorem Kept.isFinite {x : Float} (h : (Number.float x).Kept) : x.isFinite = true := by
  obtain ⟨l, -, hl⟩ := Option.bind_eq_some_iff.mp h
  exact Literal.representable_value? hl

end Number

namespace Json

open Doc (Cursor Frame Focus)

mutual

/-- The document that the text of a value is read as. -/
def written : Json → Doc
  | .null => .null
  | .bool b => .bool b
  | .num n => .num ((Literal.read n.render).bind Literal.value?)
  | .str s => .str (some s)
  | .arr items => .arr (writtenItems items)
  | .obj members => .obj (writtenMembers members)

def writtenItems : List Json → List Doc
  | [] => []
  | v :: rest => v.written :: writtenItems rest

def writtenMembers : List (String × Json) → List (Option String × Doc)
  | [] => []
  | (key, v) :: rest => (some key, v.written) :: writtenMembers rest

end

/-- What may come first in an array is what may come anywhere, but for its end. -/
theorem foldlM_firstItem {v : Json} (h : v.Finite) (frames : List Frame) :
    (tokens v).foldlM Doc.next ⟨.firstItem, .items [] :: frames⟩ =
      (tokens v).foldlM Doc.next ⟨.value, .items [] :: frames⟩ := by
  have hne := @tokens_ne_closeArray v h [] (tokens v).tail
  rw [List.append_nil] at hne
  cases hts : tokens v with
  | nil =>
      have hhead := head?_tokens v []
      rw [hts] at hhead
      cases hhead
  | cons t ts =>
      rw [hts] at hne
      rw [List.foldlM_cons, List.foldlM_cons]
      cases t with
      | closeArray => exact absurd rfl hne
      | _ => rfl

mutual

theorem foldlM_tokens : (v : Json) → v.Finite → (frames : List Frame) →
    (tokens v).foldlM Doc.next ⟨.value, frames⟩ = some ⟨.after v.written, frames⟩
  | .null, _, _ => rfl
  | .bool _, _, _ => rfl
  | .num n, h, frames => by
      obtain ⟨l, hl⟩ := Number.read_render h
      rw [tokens, written, numberToken, hl]
      rfl
  | .str _, _, _ => rfl
  | .arr [], _, _ => rfl
  | .arr (v :: rest), h, frames => by
      have hvalue := foldlM_tokens v h.1 (.items [] :: frames)
      rw [tokens, List.foldlM_cons]
      change (tokens v ++ tokensItems rest).foldlM Doc.next ⟨.firstItem, .items [] :: frames⟩ = _
      rw [List.foldlM_append, foldlM_firstItem h.1, hvalue]
      exact foldlM_tokensItems rest h.2 v.written [] frames
  | .obj [], _, _ => rfl
  | .obj ((key, v) :: rest), h, frames => by
      have hvalue := foldlM_tokens v h.1 (.member (some key) [] :: frames)
      rw [tokens, List.foldlM_cons]
      change (tokens v ++ tokensMembers rest).foldlM Doc.next
        ⟨.value, .member (some key) [] :: frames⟩ = _
      rw [List.foldlM_append, hvalue]
      exact foldlM_tokensMembers rest h.2 (some key) v.written [] frames

theorem foldlM_tokensItems : (items : List Json) → FiniteItems items → (d : Doc) →
    (done : List Doc) → (frames : List Frame) →
    (tokensItems items).foldlM Doc.next ⟨.after d, .items done :: frames⟩ =
      some ⟨.after (.arr ((d :: done).reverse ++ writtenItems items)), frames⟩
  | [], _, d, done, frames => by
      rw [writtenItems, List.append_nil]
      rfl
  | v :: rest, h, d, done, frames => by
      have hvalue := foldlM_tokens v h.1 (.items (d :: done) :: frames)
      rw [tokensItems, List.foldlM_cons]
      change (tokens v ++ tokensItems rest).foldlM Doc.next ⟨.value, .items (d :: done) :: frames⟩ = _
      rw [List.foldlM_append, hvalue]
      change (tokensItems rest).foldlM Doc.next ⟨.after v.written, .items (d :: done) :: frames⟩ = _
      rw [foldlM_tokensItems rest h.2, writtenItems]
      simp

theorem foldlM_tokensMembers : (members : List (String × Json)) → FiniteMembers members →
    (key : Option String) → (d : Doc) → (done : List (Option String × Doc)) →
    (frames : List Frame) →
    (tokensMembers members).foldlM Doc.next ⟨.after d, .member key done :: frames⟩ =
      some ⟨.after (.obj (((key, d) :: done).reverse ++ writtenMembers members)), frames⟩
  | [], _, key, d, done, frames => by
      rw [writtenMembers, List.append_nil]
      rfl
  | (k, v) :: rest, h, key, d, done, frames => by
      have hvalue := foldlM_tokens v h.1 (.member (some k) ((key, d) :: done) :: frames)
      rw [tokensMembers, List.foldlM_cons]
      change (tokens v ++ tokensMembers rest).foldlM Doc.next
        ⟨.value, .member (some k) ((key, d) :: done) :: frames⟩ = _
      rw [List.foldlM_append, hvalue]
      change (tokensMembers rest).foldlM Doc.next
        ⟨.after v.written, .member (some k) ((key, d) :: done) :: frames⟩ = _
      rw [foldlM_tokensMembers rest h.2, writtenMembers]
      simp

end

theorem parse_render {v : Json} (h : v.Finite) :
    Doc.parse (String.ofList v.render) = some v.written := by
  rw [Doc.parse, String.toList_ofList, scan_eq_tokens h, Option.bind_some, Doc.ofTokens?,
    foldlM_tokens v h []]
  rfl

mutual

/-- A value that is read as it was written, at some depth: its numbers are, and it is nested no
deeper. -/
def Kept : Nat → Json → Prop
  | _, .null | _, .bool _ | _, .str _ => True
  | _, .num n => n.Kept
  | 0, .arr _ | 0, .obj _ => False
  | depth + 1, .arr items => KeptItems depth items
  | depth + 1, .obj members => KeptMembers depth members

def KeptItems : Nat → List Json → Prop
  | _, [] => True
  | depth, v :: rest => v.Kept depth ∧ KeptItems depth rest

def KeptMembers : Nat → List (String × Json) → Prop
  | _, [] => True
  | depth, (_, v) :: rest => v.Kept depth ∧ KeptMembers depth rest

end

theorem keys_membersToJson? {depth : Nat} {members : List (String × Json)} {fields : Fields}
    (h : Doc.membersToJson? depth (writtenMembers members) = some fields) :
    ∀ m ∈ fields, m.1 ∈ members.map Prod.fst := by
  induction members generalizing fields with
  | nil =>
      rw [writtenMembers, Doc.membersToJson?] at h
      obtain rfl := Option.some.inj h
      exact List.forall_mem_nil _
  | cons member members ih =>
      obtain ⟨key, v⟩ := member
      simp only [writtenMembers, Doc.membersToJson?] at h
      split at h
      · rename_i k w rest hk _ hrest
        obtain rfl := Option.some.inj h
        obtain rfl := Option.some.inj hk
        intro m hm
        rcases mem_insertNew hm with rfl | hm
        · exact List.mem_cons_self
        · exact List.mem_cons_of_mem key (ih hrest m hm)
      · cases h

mutual

/-- What is written of a value is read as that value just if the value is kept. -/
theorem toJson?_written : (v : Json) → v.Proper → (depth : Nat) →
    (Doc.toJson? depth v.written = some v ↔ v.Kept depth)
  | .null, _, depth => by
      rw [written, Doc.toJson?, Kept]
      simp
  | .bool b, _, depth => by
      rw [written, Doc.toJson?, Kept]
      simp
  | .num n, _, depth => by
      rw [written, Doc.toJson?, Kept, Number.Kept, Option.map_eq_some_iff]
      simp
  | .str s, _, depth => by
      rw [written, Doc.toJson?, Kept]
      simp
  | .arr items, h, 0 => by
      rw [written, Doc.toJson?, Kept]
      simp
  | .arr items, h, depth + 1 => by
      rw [written, Doc.toJson?, Kept, ← itemsToJson?_written items h depth, Option.map_eq_some_iff]
      simp
  | .obj members, h, 0 => by
      rw [written, Doc.toJson?, Kept]
      simp
  | .obj members, h, depth + 1 => by
      rw [written, Doc.toJson?, Kept, ← membersToJson?_written members h depth,
        Option.map_eq_some_iff]
      simp

theorem itemsToJson?_written : (items : List Json) → ProperItems items → (depth : Nat) →
    (Doc.itemsToJson? depth (writtenItems items) = some items ↔ KeptItems depth items)
  | [], _, depth => by
      rw [writtenItems, Doc.itemsToJson?, KeptItems]
      simp
  | v :: rest, h, depth => by
      rw [writtenItems, Doc.itemsToJson?, KeptItems, ← toJson?_written v h.1 depth,
        ← itemsToJson?_written rest h.2 depth]
      split
      · rename_i w ws hw hws
        simp [hw, hws]
      · rename_i hno
        simp only [reduceCtorEq, false_iff, not_and]
        exact fun hv hrest => hno v rest hv hrest

theorem membersToJson?_written : (members : List (String × Json)) → ProperMembers members →
    (depth : Nat) →
    (Doc.membersToJson? depth (writtenMembers members) = some members ↔ KeptMembers depth members)
  | [], _, depth => by
      rw [writtenMembers, Doc.membersToJson?, KeptMembers]
      simp
  | (key, v) :: rest, h, depth => by
      rw [KeptMembers, ← toJson?_written v h.2.1 depth, ← membersToJson?_written rest h.2.2 depth]
      simp only [writtenMembers, Doc.membersToJson?]
      split
      · rename_i k w fields hk hw hfields
        obtain rfl := Option.some.inj hk
        have hlt : ∀ m ∈ fields, key < m.1 := by
          intro m hm
          obtain ⟨m', hm', heq⟩ := List.mem_map.mp (keys_membersToJson? hfields m hm)
          exact heq ▸ h.1 m' hm'
        rw [insertNew_of_lt hlt]
        simp [hw, hfields]
      · rename_i hno
        simp only [reduceCtorEq, false_iff, not_and]
        exact fun hv hrest => hno key v rest rfl hv hrest

end

theorem find?_membersToJson? {depth : Nat} {members : List (String × Json)}
    (h : (members.map Prod.fst).Nodup) {fields : Fields}
    (hf : Doc.membersToJson? depth (writtenMembers members) = some fields) (key : String) :
    fields.find? key = (members.lookup key).bind fun v => Doc.toJson? depth v.written := by
  induction members generalizing fields key with
  | nil =>
      rw [writtenMembers, Doc.membersToJson?] at hf
      obtain rfl := Option.some.inj hf
      rfl
  | cons member members ih =>
      obtain ⟨k, v⟩ := member
      rw [List.map_cons, List.nodup_cons] at h
      simp only [writtenMembers, Doc.membersToJson?] at hf
      split at hf
      · rename_i k' w rest hk hw hrest
        obtain rfl := Option.some.inj hf
        obtain rfl := Option.some.inj hk
        have hnone : rest.find? k = none := by
          rw [ih h.2 hrest, List.lookup_eq_none_iff.mpr, Option.bind_none]
          intro p hp
          rw [bne_iff_ne]
          rintro rfl
          exact h.1 (List.mem_map.mpr ⟨p, hp, rfl⟩)
        rw [Fields.find?_insertNew hnone, ih h.2 hrest, Fields.lookup_cons]
        split
        · exact hw.symm
        · rfl
      · cases hf

theorem isSome_membersToJson? {depth : Nat} {members : List (String × Json)} :
    (Doc.membersToJson? depth (writtenMembers members)).isSome = true ↔
      ∀ m ∈ members, (Doc.toJson? depth m.2.written).isSome = true := by
  induction members with
  | nil => simp [writtenMembers, Doc.membersToJson?]
  | cons m members ih =>
      obtain ⟨key, v⟩ := m
      rw [List.forall_mem_cons, ← ih]
      simp only [writtenMembers, Doc.membersToJson?]
      cases Doc.toJson? depth v.written <;>
        cases Doc.membersToJson? depth (writtenMembers members) <;> simp

theorem ofMembers?_written (names : List String) {fields : Fields}
    (h : (fields.map Prod.fst).Nodup) :
    ∃ r, Record.ofMembers? names (writtenMembers fields) = some r ∧
      (∀ p ∈ r, p.1 ∈ fields.map Prod.fst) ∧
      ∀ name ∈ names, r.lookup name = (fields.lookup name).map written := by
  induction fields with
  | nil => exact ⟨[], rfl, List.forall_mem_nil _, fun _ _ => rfl⟩
  | cons f fields ih =>
      obtain ⟨key, v⟩ := f
      rw [List.map_cons, List.nodup_cons] at h
      obtain ⟨r, hr, hkeys, hlookup⟩ := ih h.2
      rw [writtenMembers, Record.ofMembers?, hr]
      by_cases hmem : key ∈ names
      · have hany : r.any (fun p => p.1 = key) = false := by
          rw [List.any_eq_false]
          intro p hp heq
          rw [decide_eq_true_eq] at heq
          exact h.1 (heq ▸ hkeys p hp)
        refine ⟨(key, v.written) :: r, ?_, ?_, ?_⟩
        · simp only [hmem, not_true, if_false, hany, Bool.false_eq_true]
        · rw [List.map_cons, List.forall_mem_cons]
          exact ⟨List.mem_cons_self, fun p hp => List.mem_cons_of_mem key (hkeys p hp)⟩
        · intro name hname
          rw [Fields.lookup_cons, Fields.lookup_cons, hlookup name hname]
          split <;> rfl
      · refine ⟨r, ?_, fun p hp => List.mem_cons_of_mem key (hkeys p hp), ?_⟩
        · simp only [hmem, not_false_eq_true, if_true]
        · intro name hname
          have hne : name ≠ key := by
            rintro rfl
            exact hmem hname
          rw [hlookup name hname, Fields.lookup_cons, if_neg hne]

theorem ofDoc?_record (names : List String) (ms : List (String × Option Json))
    (h : (ms.map Prod.fst).Nodup) : ∃ r, Record.ofDoc? names (record ms).sorted.written = some r ∧
      ∀ name ∈ names, r.lookup name = (ms.lookup name).join.map fun v => v.sorted.written := by
  have hnodup := (keys_record_sublist ms).nodup h
  obtain ⟨r, hr, -, hlookup⟩ := ofMembers?_written names
    (ascending_sortedMembers (record ms).fields).nodup
  refine ⟨r, hr, ?_⟩
  intro name hname
  have hfind : (sortedMembers (record ms).fields).lookup name =
      ((record ms).fields.lookup name).map sorted := find?_sortedMembers hnodup name
  have hrecord : (record ms).fields.lookup name = (ms.lookup name).join := lookup_record h name
  rw [hlookup name hname, hfind, hrecord, Option.map_map]
  rfl

theorem read_record (names : List String) {ms : List (String × Option Json)}
    (h : (ms.map Prod.fst).Nodup) (hf : (record ms).Finite) :
    ∃ d r, Doc.parse (record ms).canonical = some d ∧ Record.ofDoc? names d = some r ∧
      ∀ name ∈ names, r.lookup name = (ms.lookup name).join.map fun v => v.sorted.written := by
  obtain ⟨r, hr, hlookup⟩ := ofDoc?_record names ms h
  exact ⟨_, r, parse_render (sorted_finite hf), hr, hlookup⟩

theorem ofDoc?_parts (names : List String) (ms : List (String × Option Json))
    (hnames : ms.map Prod.fst = names) (h : names.Nodup) :
    ∃ r, Record.ofDoc? names (record ms).sorted.written = some r ∧
      ∀ p ∈ ms, r.lookup p.1 = p.2.map fun v => v.sorted.written := by
  subst hnames
  obtain ⟨r, hr, hlookup⟩ := ofDoc?_record (ms.map Prod.fst) ms h
  refine ⟨r, hr, ?_⟩
  intro p hp
  rw [hlookup p.1 (List.mem_map_of_mem hp), Fields.lookup_of_mem h hp]
  rfl

theorem read_parts (names : List String) {ms : List (String × Option Json)}
    (hnames : ms.map Prod.fst = names) (h : names.Nodup) (hf : (record ms).Finite) :
    ∃ d r, Doc.parse (record ms).canonical = some d ∧ Record.ofDoc? names d = some r ∧
      ∀ p ∈ ms, r.lookup p.1 = p.2.map fun v => v.sorted.written := by
  obtain ⟨r, hr, hlookup⟩ := ofDoc?_parts names ms hnames h
  exact ⟨_, r, parse_render (sorted_finite hf), hr, hlookup⟩

end Json

end Parley
