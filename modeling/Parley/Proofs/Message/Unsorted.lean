import Parley.Proofs.Message.Reread

namespace Parley

def unsortedText {α : Type} [Coded α] (a : α) : String := String.ofList (encode a).render

namespace Record

def Same (names : List String) (r r' : Record) : Prop :=
  ∀ name ∈ names, r.lookup name = r'.lookup name

variable {names : List String} {r r' : Record} {name : String} {α : Type}

theorem Same.need (h : Same names r r') (hname : name ∈ names) (value : Doc → Option α) :
    r.need name value = r'.need name value := by
  rw [Record.need, Record.need, h name hname]

theorem Same.get (h : Same names r r') (hname : name ∈ names) (value : Doc → Option α)
    (default : α) : r.get name value default = r'.get name value default := by
  rw [Record.get, Record.get, h name hname]

theorem Same.find (h : Same names r r') (hname : name ∈ names) (value : Doc → Option α) :
    r.find name value = r'.find name value := by
  rw [Record.find, Record.find, h.get hname]

end Record

namespace Json

/-- Sorting the parts of a record does not change what it says under the names whose values have
nothing to sort. -/
theorem ofDoc?_unsorted (names scalars : List String) {v : Json}
    {ms : List (String × Option Json)} (hv : v = record ms) (hnames : ms.map Prod.fst = names)
    (h : names.Nodup) (hsub : scalars ⊆ names)
    (hscalars : ∀ p ∈ ms, p.1 ∈ scalars → ∀ v ∈ p.2, v.sorted = v) :
    ∃ r r', Record.ofDoc? names v.written = some r ∧
      Record.ofDoc? names v.sorted.written = some r' ∧ Record.Same scalars r r' ∧
      ∀ p ∈ ms, r.lookup p.1 = p.2.map written ∧
        r'.lookup p.1 = p.2.map fun v => v.sorted.written := by
  subst hv hnames
  obtain ⟨r, hr, -, hlookup⟩ := ofMembers?_written (ms.map Prod.fst)
    ((keys_record_sublist ms).nodup h)
  obtain ⟨r', hr', hparts'⟩ := ofDoc?_parts (ms.map Prod.fst) ms rfl h
  have hparts : ∀ p ∈ ms, r.lookup p.1 = p.2.map written := by
    intro p hp
    rw [hlookup p.1 (List.mem_map_of_mem hp), lookup_record h, Fields.lookup_of_mem h hp]
    rfl
  refine ⟨r, r', hr, hr', ?_, fun p hp => ⟨hparts p hp, hparts' p hp⟩⟩
  intro name hname
  obtain ⟨p, hp, rfl⟩ := List.mem_map.mp (hsub hname)
  rw [hparts p hp, hparts' p hp]
  refine Option.map_congr fun v hv => ?_
  rw [hscalars p hp hname v hv]

end Json

theorem Attachment.decode_unsorted (a : Attachment) :
    decode (α := Attachment) (encode a).written = decode (encode a).sorted.written := by
  have hrecord : encode a = .record [("fileName", some (.str a.fileName)),
      ("fileType", some (.str a.fileType)), ("fileHash", some (.str a.fileHash)),
      ("fileSizeBytes", some (.nat a.sizeBytes))] := rfl
  obtain ⟨r, r', hr, hr', hsame, -⟩ := Json.ofDoc?_unsorted
    ["fileName", "fileType", "fileHash", "fileSizeBytes"]
    ["fileName", "fileType", "fileHash", "fileSizeBytes"] hrecord rfl (by decide) (by decide)
    (by simp [Json.sorted, Json.nat])
  refine (bind_of_eq_some hr _).trans (Eq.trans ?_ (bind_of_eq_some hr' _).symm)
  simp (disch := decide) only [hsame.need, hsame.get]

theorem Approval.decode_unsorted (a : Approval) :
    decode (α := Approval) (encode a).written = decode (encode a).sorted.written := by
  have hrecord : encode a = .record [("approved", some (.bool a.approved)),
      ("approvedBy", some (.str a.approvedBy)), ("approvedAt", some (encode a.approvedAt))] := rfl
  obtain ⟨r, r', hr, hr', hsame, -⟩ := Json.ofDoc?_unsorted
    ["approved", "approvedBy", "approvedAt"] ["approved", "approvedBy", "approvedAt"] hrecord rfl
    (by decide) (by decide) (by simp [Json.sorted, encode])
  refine (bind_of_eq_some hr _).trans (Eq.trans ?_ (bind_of_eq_some hr' _).symm)
  simp (disch := decide) only [hsame.need]

theorem Approval.decodeText_unsortedText (a : Approval) :
    decodeText (α := Approval) (unsortedText a) = decodeText (encodeText a) := by
  have hfinite : (encode a).Finite := ⟨trivial, trivial, trivial, trivial⟩
  rw [decodeText, decodeText, unsortedText, encodeText, Json.canonical, Json.parse_render hfinite,
    Json.parse_render (Json.sorted_finite hfinite), Option.bind_some, Option.bind_some]
  exact a.decode_unsorted

namespace Message

variable {m : Message}

theorem mapM_unsorted (list : List Attachment) :
    (Json.writtenItems (list.map encode)).mapM (decode (α := Attachment)) =
      (Json.writtenItems (Json.sortedItems (list.map encode))).mapM decode := by
  induction list with
  | nil => rfl
  | cons a list ih =>
      simp only [List.map_cons, Json.sortedItems, Json.writtenItems, List.mapM_cons, ih,
        a.decode_unsorted]

/-- The attachments are the only parts that sorting changes, and they are read the same. -/
theorem decode_unsorted (h : m.Sound) :
    decode (α := Message) (encode m).written = decode (encode m).sorted.written := by
  have happroved : ((m.approved.map Json.bool).getD .null).sorted =
      (m.approved.map Json.bool).getD .null := by
    cases m.approved <;> rfl
  have hnot : "attachments" ∉ fieldNames.erase "attachments" := by decide
  obtain ⟨r, r', hr, hr', hsame, hparts⟩ := Json.ofDoc?_unsorted fieldNames
    (fieldNames.erase "attachments") (v := encode m) rfl rfl (by decide) (by decide)
    (by simp [Json.sorted, encode, Json.nat, Json.sorted_float, h.structured.sorted_eq,
      h.metadata.sorted_eq, happroved, hnot])
  obtain ⟨hunsorted, hsorted⟩ :=
    hparts ("attachments", some (.arr (m.attachments.map encode))) (by simp)
  have hattachments : r.get "attachments" (Doc.list? (decode (α := Attachment))) [] =
      r'.get "attachments" (Doc.list? decode) [] := by
    rw [Record.get, Record.get, hunsorted, hsorted]
    exact mapM_unsorted m.attachments
  refine (bind_of_eq_some hr _).trans (Eq.trans ?_ (bind_of_eq_some hr' _).symm)
  simp (disch := decide) only [hsame.need, hsame.get, hsame.find, hattachments]

theorem decodeText_unsortedText (h : m.Sound) :
    decodeText (α := Message) (unsortedText m) = decodeText (encodeText m) := by
  rw [decodeText, decodeText, unsortedText, encodeText, Json.canonical,
    Json.parse_render h.finite_encode, Json.parse_render (Json.sorted_finite h.finite_encode),
    Option.bind_some, Option.bind_some]
  exact decode_unsorted h

end Message

end Parley
