import Parley.Proofs.Json.Parts

namespace Parley

open Doc (rereadFloat)
open Record (need_str need_stamp need_word get_bool get_fields find_str find_stamp find_float
  find_word find_nat)

theorem Attachment.decode_written {a : Attachment} (h : a.sizeBytes < 2 ^ 64) :
    decode (encode a).sorted.written = some a := by
  obtain ⟨r, hr, hparts⟩ := Json.ofDoc?_parts ["fileName", "fileType", "fileHash", "fileSizeBytes"]
    [("fileName", some (.str a.fileName)), ("fileType", some (.str a.fileType)),
      ("fileHash", some (.str a.fileHash)), ("fileSizeBytes", some (.nat a.sizeBytes))]
    rfl (by decide)
  simp only [List.forall_mem_cons] at hparts
  obtain ⟨hname, htype, hhash, hsize, -⟩ := hparts
  have hsize : r.get "fileSizeBytes" (Doc.nat? 64) 0 = some a.sizeBytes := by
    rw [Record.get, hsize]
    exact Record.nat?_written h
  refine (bind_of_eq_some hr _).trans ?_
  refine (bind_of_eq_some (need_str hname) _).trans ?_
  refine (bind_of_eq_some (need_str htype) _).trans ?_
  refine (bind_of_eq_some (need_str hhash) _).trans ?_
  exact (bind_of_eq_some hsize _).trans rfl

theorem Kind.ofWord?_word (k : Kind) : Vocabulary.ofWord? (Vocabulary.word k) = some k := by
  cases k <;> decide

theorem Reason.ofWord?_word (k : Reason) : Vocabulary.ofWord? (Vocabulary.word k) = some k := by
  cases k <;> decide

theorem Approval.decodeText_encodeText {a : Approval} (h : a.approvedAt.Valid) :
    decodeText (encodeText a) = some a := by
  have hfinite : (Json.record [("approved", some (.bool a.approved)),
      ("approvedBy", some (.str a.approvedBy)),
      ("approvedAt", some (encode a.approvedAt))]).Finite :=
    ⟨trivial, trivial, trivial, trivial⟩
  obtain ⟨d, r, hparse, hr, hparts⟩ :=
    Json.read_parts ["approved", "approvedBy", "approvedAt"] rfl (by decide) hfinite
  simp only [List.forall_mem_cons] at hparts
  obtain ⟨happroved, happrover, hat, -⟩ := hparts
  have happroved : r.need "approved" Doc.bool? = some a.approved := by
    rw [Record.need, happroved]
    rfl
  have hparse : Doc.parse (encodeText a) = some d := hparse
  rw [decodeText, hparse, Option.bind_some]
  refine (bind_of_eq_some hr _).trans ?_
  refine (bind_of_eq_some happroved _).trans ?_
  refine (bind_of_eq_some (need_str happrover) _).trans ?_
  exact (bind_of_eq_some (need_stamp hat h) _).trans rfl

namespace Message

variable {m m' : Message}

def reread (m : Message) : Option Message := decodeText (encodeText m)

/-- What every message is whose moments, maps and sizes are such as there are. -/
structure Sound (m : Message) : Prop where
  sentAt : m.sentAt.Valid
  approvedAt : ∀ t ∈ m.approvedAt, t.Valid
  structured : Json.ProperMembers m.structured
  metadata : Json.ProperMembers m.metadata
  sizes : ∀ a ∈ m.attachments, a.sizeBytes < 2 ^ 64
  processingMillis : ∀ n ∈ m.processingMillis, n < 2 ^ 64

theorem finite_attachments (list : List Attachment) :
    (Json.arr (list.map encode)).Finite := by
  change Json.FiniteItems _
  induction list with
  | nil => trivial
  | cons a list ih => exact ⟨⟨trivial, trivial, trivial, trivial, trivial⟩, ih⟩

theorem mapM_written {list : List Attachment} (h : ∀ a ∈ list, a.sizeBytes < 2 ^ 64) :
    (Json.writtenItems (Json.sortedItems (list.map encode))).mapM decode = some list := by
  induction list with
  | nil => rfl
  | cons a list ih =>
      rw [List.forall_mem_cons] at h
      rw [List.map_cons, Json.sortedItems, Json.writtenItems, List.mapM_cons,
        Attachment.decode_written h.1, ih h.2]
      rfl

theorem Sound.finite_encode (h : m.Sound) : (encode m).Finite := by
  apply Json.finite_record
  have hoption {α : Type} {o : Option α} {put : α → Json} (hput : ∀ a, (put a).Finite) :
      ∀ v ∈ o.map put, v.Finite := by
    intro v hv
    obtain ⟨a, -, rfl⟩ := Option.map_eq_some_iff.mp hv
    exact hput a
  have happroved : ((m.approved.map Json.bool).getD .null).Finite := by
    cases m.approved <;> trivial
  have htext {o : Option String} : ∀ v ∈ o.map Json.str, v.Finite := hoption fun _ => trivial
  have hfloat {o : Option Float} : ∀ v ∈ o.map Json.float, v.Finite := hoption Json.finite_float
  have hfields {fields : Fields} (hf : Json.ProperMembers fields) : (Json.obj fields).Finite :=
    hf.finite
  simp only [List.forall_mem_cons, Option.mem_def, Option.some.injEq, forall_eq']
  exact ⟨trivial, trivial, trivial, trivial, trivial, htext, trivial, htext, trivial,
    hfields h.structured, htext, htext, htext, finite_attachments _, hfloat, hfloat, happroved,
    htext, hoption fun _ => trivial, trivial, hoption fun _ => trivial, hoption fun _ => trivial,
    hfields h.metadata, List.forall_mem_nil _⟩

theorem get_attachments {r : Record} {name : String} {list : List Attachment}
    (h : r.lookup name = some (Json.arr (list.map encode)).sorted.written)
    (hsizes : ∀ a ∈ list, a.sizeBytes < 2 ^ 64) :
    r.get name (Doc.list? decode) [] = some list := by
  rw [Record.get, h]
  simp only [Json.sorted, Json.written, Doc.list?]
  exact mapM_written hsizes

theorem find_approved {r : Record} {name : String} {o : Option Bool}
    (h : r.lookup name = some ((o.map Json.bool).getD .null).sorted.written) :
    r.find name Doc.bool? = some o := by
  rw [Record.find, Record.get, h]
  cases o <;> rfl

/-- Only the maps and the doubles of a message may be read otherwise than they were. -/
theorem reread_eq (h : m.Sound) : m.reread =
    (Doc.membersToJson? 125 (Json.writtenMembers m.structured)).bind fun structured =>
      (rereadFloat m.confidence).bind fun confidence => (rereadFloat m.quality).bind fun quality =>
        (Doc.membersToJson? 125 (Json.writtenMembers m.metadata)).map fun metadata =>
          { m with
            structured := structured, confidence := confidence, quality := quality
            metadata := metadata } := by
  obtain ⟨d, r, hparse, hr, hparts⟩ := Json.read_parts fieldNames rfl (by decide) h.finite_encode
  simp only [List.forall_mem_cons] at hparts
  obtain ⟨hid, hat, hfrom, hto, hagent, htoAgent, hkind, hsubject, hcontent, hstructured, hproject,
    hparent, hthread, hattachments, hconfidence, hquality, happroved, happrover, happrovedAt,
    hescalated, hreason, hmillis, hmetadata, -⟩ := hparts
  have hparse : Doc.parse (encodeText m) = some d := hparse
  rw [reread, decodeText, hparse, Option.bind_some]
  refine (bind_of_eq_some hr _).trans ?_
  refine (bind_of_eq_some (need_str hid) _).trans ?_
  refine (bind_of_eq_some (need_stamp hat h.sentAt) _).trans ?_
  refine (bind_of_eq_some (need_str hfrom) _).trans ?_
  refine (bind_of_eq_some (need_str hto) _).trans ?_
  refine (bind_of_eq_some (need_str hagent) _).trans ?_
  refine (bind_of_eq_some (find_str htoAgent) _).trans ?_
  refine (bind_of_eq_some (need_word hkind (Kind.ofWord?_word m.kind)) _).trans ?_
  refine (bind_of_eq_some (find_str hsubject) _).trans ?_
  refine (bind_of_eq_some (need_str hcontent) _).trans ?_
  rw [← get_fields h.structured hstructured, ← find_float hconfidence, ← find_float hquality,
    ← get_fields h.metadata hmetadata]
  refine Option.bind_congr fun structured _ => ?_
  refine (bind_of_eq_some (find_str hproject) _).trans ?_
  refine (bind_of_eq_some (find_str hparent) _).trans ?_
  refine (bind_of_eq_some (find_str hthread) _).trans ?_
  refine (bind_of_eq_some (get_attachments hattachments h.sizes) _).trans ?_
  refine Option.bind_congr fun confidence _ => ?_
  refine Option.bind_congr fun quality _ => ?_
  refine (bind_of_eq_some (find_approved happroved) _).trans ?_
  refine (bind_of_eq_some (find_str happrover) _).trans ?_
  refine (bind_of_eq_some (find_stamp happrovedAt h.approvedAt) _).trans ?_
  refine (bind_of_eq_some (get_bool hescalated) _).trans ?_
  refine (bind_of_eq_some (find_word hreason fun a _ => Reason.ofWord?_word a) _).trans ?_
  refine (bind_of_eq_some (find_nat hmillis h.processingMillis) _).trans ?_
  exact (Option.map_eq_bind ..).symm

theorem eq_of_reread (h : m.Sound) (hr : m.reread = some m') : m' = { m with
    structured := m'.structured, confidence := m'.confidence, quality := m'.quality
    metadata := m'.metadata } := by
  rw [reread_eq h, Option.bind_eq_some_iff] at hr
  obtain ⟨structured, -, hr⟩ := hr
  obtain ⟨confidence, -, hr⟩ := Option.bind_eq_some_iff.mp hr
  obtain ⟨quality, -, hr⟩ := Option.bind_eq_some_iff.mp hr
  obtain ⟨metadata, -, rfl⟩ := Option.map_eq_some_iff.mp hr
  rfl

structure Lasting (m : Message) : Prop where
  structured : Json.KeptMembers 125 m.structured
  confidence : ∀ x ∈ m.confidence, (Number.float x).Kept
  quality : ∀ x ∈ m.quality, (Number.float x).Kept
  metadata : Json.KeptMembers 125 m.metadata

theorem reread_eq_self_iff (h : m.Sound) : m.reread = some m ↔ m.Lasting := by
  have hstructured := Json.membersToJson?_written m.structured h.structured 125
  have hconfidence := Doc.rereadFloat_eq_self_iff m.confidence
  have hquality := Doc.rereadFloat_eq_self_iff m.quality
  have hmetadata := Json.membersToJson?_written m.metadata h.metadata 125
  rw [reread_eq h, Option.bind_eq_some_iff]
  constructor
  · rintro ⟨structured, hs, hr⟩
    obtain ⟨confidence, hc, hr⟩ := Option.bind_eq_some_iff.mp hr
    obtain ⟨quality, hq, hr⟩ := Option.bind_eq_some_iff.mp hr
    obtain ⟨metadata, hm, heq⟩ := Option.map_eq_some_iff.mp hr
    obtain rfl : structured = m.structured := congrArg Message.structured heq
    obtain rfl : confidence = m.confidence := congrArg Message.confidence heq
    obtain rfl : quality = m.quality := congrArg Message.quality heq
    obtain rfl : metadata = m.metadata := congrArg Message.metadata heq
    exact ⟨hstructured.mp hs, hconfidence.mp hc, hquality.mp hq, hmetadata.mp hm⟩
  · rintro ⟨hs, hc, hq, hm⟩
    rw [hconfidence.mpr hc, hquality.mpr hq, hmetadata.mpr hm]
    exact ⟨_, hstructured.mpr hs, rfl⟩

end Message

end Parley
