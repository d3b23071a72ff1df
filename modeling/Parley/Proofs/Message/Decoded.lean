import Parley.Proofs.Json.Doubles
import Parley.Proofs.Message.Unsorted

namespace Parley

namespace Doc

theorem int?_bounds {least greatest i : Int} {d : Doc} (h : d.int? least greatest = some i) :
    least ≤ i ∧ i ≤ greatest := by
  unfold int? at h
  split at h
  · split at h
    · rename_i hj
      obtain rfl := Option.some.inj h
      exact hj
    · cases h
  · cases h

theorem nat?_lt {bits n : Nat} {d : Doc} (h : d.nat? bits = some n) : n < 2 ^ bits := by
  obtain ⟨i, hi, rfl⟩ := Option.map_eq_some_iff.mp h
  have hbounds := int?_bounds hi
  rw [Nat.pow_eq] at hbounds
  have hpow : 0 < 2 ^ bits := Nat.two_pow_pos bits
  omega

theorem valid_decode {d : Doc} {t : Time.Instant} (h : decode d = some t) : t.Valid := by
  obtain ⟨text, -, ht⟩ := Option.bind_eq_some_iff.mp h
  exact Time.valid_readLoose ht

theorem exists_of_mapM {α β : Type} {f : α → Option β} {xs : List α} {ys : List β}
    (h : xs.mapM f = some ys) : ∀ y ∈ ys, ∃ x, f x = some y := by
  rw [mapM_eq_some_iff] at h
  induction h with
  | nil => exact List.forall_mem_nil _
  | cons hy _ ih => exact List.forall_mem_cons.mpr ⟨⟨_, hy⟩, ih⟩

end Doc

namespace Record

variable {α : Type} {value : Doc → Option α} {r : Record} {name : String}

theorem exists_of_need {a : α} (h : r.need name value = some a) : ∃ d, value d = some a := by
  obtain ⟨d, -, hd⟩ := Option.bind_eq_some_iff.mp h
  exact ⟨d, hd⟩

theorem exists_of_find {a : α} (h : r.find name value = some (some a)) : ∃ d, value d = some a := by
  rw [find, get] at h
  split at h
  · cases h
  · rename_i d hd
    unfold Doc.optional? at h
    split at h
    · cases h
    · obtain ⟨b, hb, hba⟩ := Option.map_eq_some_iff.mp h
      obtain rfl := Option.some.inj hba
      exact ⟨d, hb⟩

theorem exists_of_get {a default : α} (h : r.get name value default = some a) :
    a = default ∨ ∃ d, value d = some a := by
  rw [get] at h
  split at h
  · exact .inl (Option.some.inj h).symm
  · exact .inr ⟨_, h⟩

theorem keptMembers_iff_of_get (hr : ∀ p ∈ r, p.2.Sound) {fields : Fields}
    (h : r.get name (Doc.fields? 2) [] = some fields) :
    Json.KeptMembers 125 fields ↔ ∀ x ∈ Json.doublesMembers fields, (Number.float x).Kept := by
  rw [get] at h
  split at h
  · obtain rfl := Option.some.inj h
    exact ⟨fun _ => List.forall_mem_nil _, fun _ => trivial⟩
  · rename_i d hd
    have hsound : d.Sound := hr _ (Fields.mem_of_lookup hd)
    cases hsound with
    | obj hmembers => exact Doc.keptMembers_iff_doubles hmembers h
    | _ => cases h

end Record

theorem Attachment.size_lt_of_decode {d : Doc} {a : Attachment} (h : decode d = some a) :
    a.sizeBytes < 2 ^ 64 := by
  obtain ⟨r, -, h⟩ := Option.bind_eq_some_iff.mp h
  obtain ⟨name, -, h⟩ := Option.bind_eq_some_iff.mp h
  obtain ⟨type, -, h⟩ := Option.bind_eq_some_iff.mp h
  obtain ⟨hash, -, h⟩ := Option.bind_eq_some_iff.mp h
  obtain ⟨size, hsize, h⟩ := Option.bind_eq_some_iff.mp h
  obtain rfl := Option.some.inj h
  obtain hzero | ⟨d, hd⟩ := Record.exists_of_get hsize
  · change size < 2 ^ 64
    omega
  · exact Doc.nat?_lt hd

theorem Approval.valid_decode {d : Doc} {a : Approval} (h : decode d = some a) :
    a.approvedAt.Valid := by
  obtain ⟨r, -, h⟩ := Option.bind_eq_some_iff.mp h
  obtain ⟨approved, -, h⟩ := Option.bind_eq_some_iff.mp h
  obtain ⟨approvedBy, -, h⟩ := Option.bind_eq_some_iff.mp h
  obtain ⟨approvedAt, hat, h⟩ := Option.bind_eq_some_iff.mp h
  obtain rfl := Option.some.inj h
  obtain ⟨d, hd⟩ := Record.exists_of_need hat
  exact Doc.valid_decode hd

namespace Message

variable {m : Message}

def doubles (m : Message) : List Float :=
  Json.doublesMembers m.structured ++ m.confidence.toList ++ m.quality.toList ++
    Json.doublesMembers m.metadata

theorem sound_decode {d : Doc} (hd : d.Sound) (h : decode d = some m) :
    m.Sound ∧ (m.Lasting ↔ ∀ x ∈ m.doubles, (Number.float x).Kept) := by
  obtain ⟨r, hr, h⟩ := Option.bind_eq_some_iff.mp h
  obtain ⟨id, -, h⟩ := Option.bind_eq_some_iff.mp h
  obtain ⟨sentAt, hsentAt, h⟩ := Option.bind_eq_some_iff.mp h
  obtain ⟨fromTenant, -, h⟩ := Option.bind_eq_some_iff.mp h
  obtain ⟨toTenant, -, h⟩ := Option.bind_eq_some_iff.mp h
  obtain ⟨fromAgent, -, h⟩ := Option.bind_eq_some_iff.mp h
  obtain ⟨toAgent, -, h⟩ := Option.bind_eq_some_iff.mp h
  obtain ⟨kind, -, h⟩ := Option.bind_eq_some_iff.mp h
  obtain ⟨subject, -, h⟩ := Option.bind_eq_some_iff.mp h
  obtain ⟨content, -, h⟩ := Option.bind_eq_some_iff.mp h
  obtain ⟨structured, hstructured, h⟩ := Option.bind_eq_some_iff.mp h
  obtain ⟨project, -, h⟩ := Option.bind_eq_some_iff.mp h
  obtain ⟨parent, -, h⟩ := Option.bind_eq_some_iff.mp h
  obtain ⟨thread, -, h⟩ := Option.bind_eq_some_iff.mp h
  obtain ⟨attachments, hattachments, h⟩ := Option.bind_eq_some_iff.mp h
  obtain ⟨confidence, -, h⟩ := Option.bind_eq_some_iff.mp h
  obtain ⟨quality, -, h⟩ := Option.bind_eq_some_iff.mp h
  obtain ⟨approved, -, h⟩ := Option.bind_eq_some_iff.mp h
  obtain ⟨approvedBy, -, h⟩ := Option.bind_eq_some_iff.mp h
  obtain ⟨approvedAt, happrovedAt, h⟩ := Option.bind_eq_some_iff.mp h
  obtain ⟨escalated, -, h⟩ := Option.bind_eq_some_iff.mp h
  obtain ⟨reason, -, h⟩ := Option.bind_eq_some_iff.mp h
  obtain ⟨processingMillis, hmillis, h⟩ := Option.bind_eq_some_iff.mp h
  obtain ⟨metadata, hmetadata, h⟩ := Option.bind_eq_some_iff.mp h
  obtain rfl := Option.some.inj h
  have hsound := Record.sound_ofDoc? hd hr
  have hkeptStructured := Record.keptMembers_iff_of_get hsound hstructured
  have hkeptMetadata := Record.keptMembers_iff_of_get hsound hmetadata
  constructor
  · refine ⟨?_, ?_, Record.proper_of_get hsound hstructured, Record.proper_of_get hsound hmetadata,
      ?_, ?_⟩
    · obtain ⟨d, hd⟩ := Record.exists_of_need hsentAt
      exact Doc.valid_decode hd
    · rintro t rfl
      obtain ⟨d, hd⟩ := Record.exists_of_find happrovedAt
      exact Doc.valid_decode hd
    · intro a ha
      obtain rfl | ⟨d, hd⟩ := Record.exists_of_get hattachments
      · cases ha
      · cases d with
        | arr items =>
            obtain ⟨d, hd⟩ := Doc.exists_of_mapM hd a ha
            exact Attachment.size_lt_of_decode hd
        | _ => cases hd
    · rintro n rfl
      obtain ⟨d, hd⟩ := Record.exists_of_find hmillis
      exact Doc.nat?_lt hd
  · simp only [doubles, List.forall_mem_append, ← hkeptStructured, ← hkeptMetadata,
      Option.mem_toList]
    constructor
    · intro h
      exact ⟨⟨⟨h.structured, h.confidence⟩, h.quality⟩, h.metadata⟩
    · rintro ⟨⟨⟨hs, hc⟩, hq⟩, hm⟩
      exact ⟨hs, hc, hq, hm⟩

/-- What is read from a text, as a message or as a decision, is read again from its own texts; a
message just if its doubles are read as they are written. -/
theorem decoded_again (text : String) :
    (∀ m : Message, decodeText text = some m →
      ((∀ x ∈ m.doubles, (Number.float x).Kept) ↔
        ∀ own ∈ [unsortedText m, encodeText m], decodeText own = some m)) ∧
    ∀ a : Approval, decodeText text = some a →
      ∀ own ∈ [unsortedText a, encodeText a], decodeText own = some a := by
  constructor
  · intro m h
    obtain ⟨d, hparse, hdecode⟩ := Option.bind_eq_some_iff.mp h
    obtain ⟨hsound, hlasting⟩ := sound_decode (Doc.sound_parse hparse) hdecode
    have hread : decodeText (encodeText m) = some m ↔ ∀ x ∈ m.doubles, (Number.float x).Kept :=
      (reread_eq_self_iff hsound).trans hlasting
    rw [List.forall_mem_cons, List.forall_mem_singleton, decodeText_unsortedText hsound, and_self,
      hread]
  · intro a h
    obtain ⟨d, -, hdecode⟩ := Option.bind_eq_some_iff.mp h
    have hread := Approval.decodeText_encodeText (Approval.valid_decode hdecode)
    rw [List.forall_mem_cons, List.forall_mem_singleton, a.decodeText_unsortedText]
    exact ⟨hread, hread⟩

/-- A message as an array, in a leap second, with a member given twice, integers for doubles, and
parts left out. -/
def looseText : String :=
  "[\"q\",\"2016-12-31 23:59:60.5 +00:00\",\"a\",\"b\",\"c\",null,\"question\",null,\"?\"," ++
    "\x7b\"k\":1,\"k\":[2.5e-1]\x7d,null,null,null,[[\"f\",\"pdf\",\"0\"]],1]"

theorem decoded_again_loose : ∃ m : Message, decodeText looseText = some m ∧
    (∀ x ∈ m.doubles, (Number.float x).Kept) ∧
    ∀ own ∈ [unsortedText m, encodeText m], decodeText own = some m := by
  have hread : (decodeText looseText).any (fun m : Message =>
      m.doubles.all fun x => decide (Number.float x).Kept) = true := by decide +kernel
  obtain ⟨m, hm, hkept⟩ := (Option.any_eq_true _ _).mp hread
  rw [List.all_eq_true] at hkept
  have hkept : ∀ x ∈ m.doubles, (Number.float x).Kept := fun x hx => of_decide_eq_true (hkept x hx)
  exact ⟨m, hm, hkept, ((decoded_again looseText).1 m hm).mp hkept⟩

end Message

end Parley
