import Parley.Proofs.Audit.Entry
import Parley.Proofs.Json.Parts

namespace Parley.Audit.Entry

open Doc (rereadFloat rereadFloat_eq_self_iff rereadFloat_of_not_isFinite)
open Record (need_str need_stamp get_fields find_float)

variable {e e' : Entry}

def reread (e : Entry) : Option Entry := decodeText (encodeText e)

def parts (e : Entry) : List (String × Option Json) :=
  e.body ++ [("hash", some (.str e.hash)), ("previousHash", some (.str e.previousHash))]

theorem nodup_parts (e : Entry) : (e.parts.map Prod.fst).Nodup := by
  change ["id", "timestamp", "tenantId", "actor", "action", "resourceType", "resourceId", "details",
    "confidence", "hash", "previousHash"].Nodup
  decide

theorem Sound.finite_parts (h : e.Sound) : (Json.record e.parts).Finite := by
  apply Json.finite_record
  rw [parts, List.forall_mem_append]
  refine ⟨h.finite_body, ?_⟩
  simp only [List.forall_mem_cons, Option.mem_def, Option.some.injEq, forall_eq']
  exact ⟨trivial, trivial, List.forall_mem_nil _⟩

variable {r : Record}

theorem need_actor {name : String} {actor : Actor}
    (h : r.lookup name = some (encode actor).sorted.written) : r.need name decode = some actor := by
  rw [Record.need, h]
  cases actor <;> rfl

theorem need_action {name : String} {action : Action}
    (h : r.lookup name = some (encode action).sorted.written) :
    r.need name decode = some action := by
  rw [Record.need, h]
  change Vocabulary.ofWord? (Vocabulary.word action) = some action
  exact Vocabulary.ofWord?_word (by cases action <;> decide)
    fun b _ hb => word_injective b action hb

/-- Only the details and the confidence may be read otherwise than they were. -/
theorem reread_eq (h : e.Sound) : e.reread =
    (Doc.membersToJson? 125 (Json.writtenMembers e.deed.details)).bind fun details =>
      (rereadFloat e.deed.confidence).map fun confidence =>
        { e with deed := { e.deed with details := details, confidence := confidence } } := by
  obtain ⟨d, r, hparse, hr, hlookup⟩ := Json.read_record ["id", "timestamp", "tenantId",
    "actor", "action", "resourceType", "resourceId", "details", "confidence", "hash",
    "previousHash"] e.nodup_parts h.finite_parts
  have hdetails := get_fields h.details (hlookup "details" (by decide))
  have hconfidence : r.find "confidence" Doc.float? = rereadFloat e.deed.confidence := by
    apply find_float
    rw [hlookup _ (by decide)]
    cases hc : e.deed.confidence with
    | none =>
        have hl : (e.parts.lookup "confidence").join = none := congrArg (Option.map Json.float) hc
        rw [hl]
        rfl
    | some x =>
        have hl : (e.parts.lookup "confidence").join = some (Json.float x) :=
          congrArg (Option.map Json.float) hc
        rw [hl]
        rfl
  have hdecode : decode d =
      (Doc.membersToJson? 125 (Json.writtenMembers e.deed.details)).bind fun details =>
        (rereadFloat e.deed.confidence).map fun confidence =>
          { e with deed := { e.deed with details := details, confidence := confidence } } := by
    refine (bind_of_eq_some hr _).trans ?_
    refine (bind_of_eq_some (need_str (hlookup "id" (by decide))) _).trans ?_
    refine (bind_of_eq_some (need_stamp (hlookup "timestamp" (by decide)) h.recordedAt) _).trans ?_
    refine (bind_of_eq_some (need_str (hlookup "tenantId" (by decide))) _).trans ?_
    refine (bind_of_eq_some (need_actor (hlookup "actor" (by decide))) _).trans ?_
    refine (bind_of_eq_some (need_action (hlookup "action" (by decide))) _).trans ?_
    refine (bind_of_eq_some (need_str (hlookup "resourceType" (by decide))) _).trans ?_
    refine (bind_of_eq_some (need_str (hlookup "resourceId" (by decide))) _).trans ?_
    rw [← hdetails, ← hconfidence]
    refine Option.bind_congr fun details _ => ?_
    rw [Option.map_eq_bind]
    refine Option.bind_congr fun confidence _ => ?_
    refine (bind_of_eq_some (need_str (hlookup "hash" (by decide))) _).trans ?_
    exact bind_of_eq_some (need_str (hlookup "previousHash" (by decide))) _
  rw [reread, decodeText, show encodeText e = (Json.record e.parts).canonical from rfl, hparse]
  exact hdecode

/-- An entry whose parts are all read as they were written. -/
structure Lasting (e : Entry) : Prop where
  details : Json.KeptMembers 125 e.deed.details
  confidence : ∀ x ∈ e.deed.confidence, (Number.float x).Kept

theorem reread_eq_self_iff (h : e.Sound) : e.reread = some e ↔ e.Lasting := by
  have hdetails := Json.membersToJson?_written e.deed.details h.details 125
  have hconfidence := rereadFloat_eq_self_iff e.deed.confidence
  rw [reread_eq h, Option.bind_eq_some_iff]
  constructor
  · rintro ⟨details, hd, hc⟩
    obtain ⟨confidence, hc, he⟩ := Option.map_eq_some_iff.mp hc
    have hdeed := congrArg Entry.deed he
    have hdetailsEq : details = e.deed.details := congrArg Deed.details hdeed
    have hconfidenceEq : confidence = e.deed.confidence := congrArg Deed.confidence hdeed
    rw [hdetailsEq] at hd
    rw [hconfidenceEq] at hc
    exact ⟨hdetails.mp hd, hconfidence.mp hc⟩
  · rintro ⟨hd, hc⟩
    exact ⟨_, hdetails.mpr hd, Option.map_eq_some_iff.mpr ⟨_, hconfidence.mpr hc, rfl⟩⟩

/-- What is read with the text that was hashed is the entry itself. -/
theorem eq_of_reread (h : e.Sound) (hr : e.reread = some e')
    (hcanonical : e.hashable.canonical = e'.hashable.canonical) : e' = e := by
  have hproper := proper_decodeText hr
  obtain ⟨-, -, hdeed, hfloat⟩ := eq_of_canonical h hproper.toSound hcanonical
  rw [reread_eq h, Option.bind_eq_some_iff] at hr
  obtain ⟨details, -, hr⟩ := hr
  obtain ⟨confidence, hc, rfl⟩ := Option.map_eq_some_iff.mp hr
  have hdetails : e.deed.details = details := congrArg Deed.details hdeed
  have hconfidence : e.deed.confidence = confidence := by
    apply map_float_injective _ hproper.confidence hfloat
    intro x hx
    by_contra hnot
    have hx : e.deed.confidence = some x := hx
    rw [hx, rereadFloat_of_not_isFinite hnot] at hc
    obtain rfl := Option.some.inj hc
    rw [hx] at hfloat
    cases hfloat
  rw [← hdetails, ← hconfidence]

end Parley.Audit.Entry
