import Parley.Audit.Entry
import Parley.Proofs.Digest.Chain
import Parley.Proofs.Json.Record
import Parley.Proofs.Time.Stamp

namespace Parley

namespace Audit.Entry

variable {e e' : Entry}

/-- What every entry is that was read, and every entry that is made of a moment and of a map. -/
structure Sound (e : Entry) : Prop where
  recordedAt : e.recordedAt.Valid
  details : Json.ProperMembers e.deed.details

theorem Sound.after (h : e.Sound) (previous : String) : (e.after previous).Sound :=
  ⟨h.recordedAt, h.details⟩

theorem nodup_body (e : Entry) : (e.body.map Prod.fst).Nodup := by
  change ["id", "timestamp", "tenantId", "actor", "action", "resourceType", "resourceId", "details",
    "confidence"].Nodup
  decide

theorem Sound.finite_body (h : e.Sound) : ∀ m ∈ e.body, ∀ v ∈ m.2, v.Finite := by
  have hactor : (encode e.deed.actor).Finite := by
    cases e.deed.actor <;> exact ⟨trivial, trivial⟩
  have hdetails : (Json.obj e.deed.details).Finite := h.details.finite
  have hconfidence : ∀ v ∈ e.deed.confidence.map Json.float, v.Finite := by
    intro v hv
    obtain ⟨x, -, rfl⟩ := Option.map_eq_some_iff.mp hv
    exact Json.finite_float x
  simp only [body, List.forall_mem_cons, Option.mem_def, Option.some.injEq, forall_eq']
  exact ⟨trivial, trivial, trivial, hactor, trivial, trivial, trivial, hdetails, hconfidence,
    List.forall_mem_nil _⟩

theorem Sound.finite_hashable (h : e.Sound) : e.hashable.Finite := Json.finite_record h.finite_body

theorem word_injective : ∀ a b : Action, Vocabulary.word a = Vocabulary.word b → a = b := by
  intro a b
  cases a <;> cases b <;> decide

theorem encode_actor_injective {a b : Actor} (h : (encode a).sorted = (encode b).sorted) :
    a = b := by
  cases a <;> cases b <;> simp [encode, Json.sorted, Json.sortedMembers, Fields.insertNew] at h <;>
    rw [h]

/-- The canonical text of what is hashed says all of an entry but the hashes; of the confidence
it says no more than its number. -/
theorem eq_of_canonical (he : e.Sound) (he' : e'.Sound)
    (h : e.hashable.canonical = e'.hashable.canonical) :
    e.id = e'.id ∧ e.recordedAt = e'.recordedAt ∧
      { e.deed with confidence := none } = { e'.deed with confidence := none } ∧
      e.deed.confidence.map Json.float = e'.deed.confidence.map Json.float := by
  have hsays := Json.lookup_eq_of_canonical e.nodup_body e'.nodup_body he.finite_hashable
    he'.finite_hashable h
  have hid : some (Json.str e.id) = some (Json.str e'.id) := hsays "id"
  have hstamp : some (Json.str e.recordedAt.stamp) = some (Json.str e'.recordedAt.stamp) :=
    hsays "timestamp"
  have htenant : some (Json.str e.deed.tenant) = some (Json.str e'.deed.tenant) := hsays "tenantId"
  have hactor : some (encode e.deed.actor).sorted = some (encode e'.deed.actor).sorted :=
    hsays "actor"
  have haction : some (Json.str (Vocabulary.word e.deed.action)) =
      some (Json.str (Vocabulary.word e'.deed.action)) := hsays "action"
  have hkind : some (Json.str e.deed.resourceType) = some (Json.str e'.deed.resourceType) :=
    hsays "resourceType"
  have hresource : some (Json.str e.deed.resourceId) = some (Json.str e'.deed.resourceId) :=
    hsays "resourceId"
  have hdetails : some (Json.obj e.deed.details).sorted = some (Json.obj e'.deed.details).sorted :=
    hsays "details"
  have hconfidence : (e.deed.confidence.map Json.float).map Json.sorted =
      (e'.deed.confidence.map Json.float).map Json.sorted := hsays "confidence"
  have hfloat (c : Option Float) : (c.map Json.float).map Json.sorted = c.map Json.float := by
    cases c with
    | none => rfl
    | some x => rw [Option.map_some, Option.map_some, Json.sorted_float]
  rw [hfloat, hfloat] at hconfidence
  rw [(show Json.Proper (.obj e.deed.details) from he.details).sorted_eq,
    (show Json.Proper (.obj e'.deed.details) from he'.details).sorted_eq] at hdetails
  refine ⟨Json.str.inj (Option.some.inj hid), ?_, ?_, hconfidence⟩
  · exact Time.stamp_injective he.recordedAt he'.recordedAt (Json.str.inj (Option.some.inj hstamp))
  · rw [Deed.mk.injEq]
    exact ⟨Json.str.inj (Option.some.inj htenant), encode_actor_injective (Option.some.inj hactor),
      word_injective _ _ (Json.str.inj (Option.some.inj haction)),
      Json.str.inj (Option.some.inj hkind), Json.str.inj (Option.some.inj hresource),
      Json.obj.inj (Option.some.inj hdetails), rfl⟩

structure Proper (e : Entry) : Prop extends e.Sound where
  confidence : ∀ x ∈ e.deed.confidence, x.isFinite = true

theorem map_float_injective {c c' : Option Float} (h : ∀ x ∈ c, x.isFinite = true)
    (h' : ∀ x ∈ c', x.isFinite = true) (hf : c.map Json.float = c'.map Json.float) : c = c' := by
  cases c with
  | none =>
      cases c' with
      | none => rfl
      | some y => cases hf
  | some x =>
      cases c' with
      | none => cases hf
      | some y => rw [Json.float_injective (h x rfl) (h' y rfl) (Option.some.inj hf)]

/-- A proper entry is told by the text its hash is taken of, and by the two hashes. -/
theorem Proper.eq_of_canonical (he : e.Proper) (he' : e'.Proper)
    (h : e.hashable.canonical = e'.hashable.canonical) (hhash : e.hash = e'.hash)
    (hprevious : e.previousHash = e'.previousHash) : e = e' := by
  obtain ⟨hid, hat, hdeed, hfloat⟩ := Entry.eq_of_canonical he.toSound he'.toSound h
  have hconfidence := map_float_injective he.confidence he'.confidence hfloat
  obtain ⟨id, t, ⟨tenant, actor, action, kind, resource, details, c⟩, hash, previous⟩ := e
  obtain ⟨id', t', ⟨tenant', actor', action', kind', resource', details', c'⟩, hash', previous'⟩ := e'
  simp only [Deed.mk.injEq] at hid hat hdeed hconfidence hhash hprevious
  obtain ⟨rfl, rfl, rfl, rfl, rfl, rfl, -⟩ := hdeed
  subst hid hat hconfidence hhash hprevious
  rfl

theorem proper_decode {d : Doc} (hd : d.Sound) (h : decode d = some e) : e.Proper := by
  obtain ⟨r, hr, h⟩ := Option.bind_eq_some_iff.mp h
  obtain ⟨id, -, h⟩ := Option.bind_eq_some_iff.mp h
  obtain ⟨t, ht, h⟩ := Option.bind_eq_some_iff.mp h
  obtain ⟨tenant, -, h⟩ := Option.bind_eq_some_iff.mp h
  obtain ⟨actor, -, h⟩ := Option.bind_eq_some_iff.mp h
  obtain ⟨action, -, h⟩ := Option.bind_eq_some_iff.mp h
  obtain ⟨kind, -, h⟩ := Option.bind_eq_some_iff.mp h
  obtain ⟨resource, -, h⟩ := Option.bind_eq_some_iff.mp h
  obtain ⟨details, hdetails, h⟩ := Option.bind_eq_some_iff.mp h
  obtain ⟨confidence, hconfidence, h⟩ := Option.bind_eq_some_iff.mp h
  obtain ⟨hash, -, h⟩ := Option.bind_eq_some_iff.mp h
  obtain ⟨previous, -, h⟩ := Option.bind_eq_some_iff.mp h
  obtain rfl := Option.some.inj h
  have hsound := Record.sound_ofDoc? hd hr
  refine ⟨⟨?_, Record.proper_of_get hsound hdetails⟩, ?_⟩
  · obtain ⟨d, -, ht⟩ := Option.bind_eq_some_iff.mp ht
    obtain ⟨text, -, ht⟩ := Option.bind_eq_some_iff.mp ht
    exact Time.valid_readLoose ht
  · rintro x rfl
    exact Record.isFinite_of_find hsound hconfidence

theorem proper_decodeText {text : String} (h : decodeText text = some e) : e.Proper := by
  obtain ⟨d, hd, he⟩ := Option.bind_eq_some_iff.mp h
  exact proper_decode (Doc.sound_parse hd) he

end Audit.Entry

end Parley
