import Mathlib.Data.List.Basic
import Parley.Broker.Stream

namespace Parley.Broker

open Text (hexDigitUpper hexValue? isBlank)

def IsPlain (c : Char) : Prop := c ≠ '.' ∧ c ≠ '*' ∧ c ≠ '>' ∧ isBlank c = false

/-- Whether the parts of a filter let those of a subject through: `*` stands for one part, and `>`
at the end for all that are left. -/
def partsMatch : List (List Char) → List (List Char) → Bool
  | [], parts => parts.isEmpty
  | _ :: _, [] => false
  | f :: filter, p :: parts =>
    (f = ['>'] && filter.isEmpty) || ((f = ['*'] || f = p) && partsMatch filter parts)

def subjectMatches (filter subject : String) : Bool :=
  partsMatch (filter.toList.splitOn '.') (subject.toList.splitOn '.')

variable {c : Char} {b : UInt8} {n : Nat} {chars rest : List Char} {tenant other : String}

theorem hexDigitUpper_mod (n : Nat) : hexDigitUpper n = hexDigitUpper (n % 16) := by
  rw [hexDigitUpper, Text.hexDigit_mod, hexDigitUpper]

theorem hexValue?_hexDigitUpper (n : Nat) : hexValue? (hexDigitUpper n) = some (n % 16) := by
  rw [hexDigitUpper_mod]
  exact Text.hexValue?_hexDigitUpper _ (Nat.mod_lt _ (by decide))

theorem isPlain_hexDigitUpper (n : Nat) : IsPlain (hexDigitUpper n) := by
  have hdigits : ∀ n < 16, hexDigitUpper n ≠ '.' ∧ hexDigitUpper n ≠ '*' ∧ hexDigitUpper n ≠ '>' ∧
      isBlank (hexDigitUpper n) = false := by decide
  rw [hexDigitUpper_mod]
  exact hdigits _ (Nat.mod_lt _ (by decide))

theorem isPlain_of_mem_escapeByte (h : c ∈ escapeByte b) : IsPlain c := by
  simp only [escapeByte, List.mem_cons, List.not_mem_nil, or_false] at h
  rcases h with rfl | rfl | rfl
  · exact ⟨by decide, by decide, by decide, by decide⟩
  · exact isPlain_hexDigitUpper _
  · exact isPlain_hexDigitUpper _

theorem isPlain_of_not_isReserved (h : isReserved c = false) : IsPlain c := by
  simp only [isReserved, Bool.or_eq_false_iff, decide_eq_false_iff_not] at h
  obtain ⟨⟨⟨⟨hdot, hstar⟩, hrest⟩, -⟩, hblank⟩ := h
  exact ⟨hdot, hstar, hrest, hblank⟩

theorem isPlain_of_mem_token (h : c ∈ token tenant) : IsPlain c := by
  obtain ⟨d, -, hd⟩ := List.mem_flatMap.mp h
  rw [escape] at hd
  split at hd
  · obtain ⟨b, -, hb⟩ := List.mem_flatMap.mp hd
    exact isPlain_of_mem_escapeByte hb
  · rename_i hplain
    obtain rfl := List.mem_singleton.mp hd
    exact isPlain_of_not_isReserved (Bool.not_eq_true _ ▸ hplain)

theorem tokenBytes_cons (h : c ≠ '%') (rest : List Char) :
    tokenBytes (c :: rest) = (tokenBytes rest).map (String.utf8EncodeChar c ++ ·) := by
  rw [tokenBytes, if_neg h]
  intro a b rest' hc
  exact absurd hc h

theorem tokenBytes_escapeByte (b : UInt8) (rest : List Char) :
    tokenBytes (escapeByte b ++ rest) = (tokenBytes rest).map (b :: ·) := by
  have hvalue : b.toNat / 16 % 16 * 16 + b.toNat % 16 = b.toNat := by
    have hb := b.toNat_lt
    omega
  rw [escapeByte, List.cons_append, List.cons_append, List.cons_append, List.nil_append, tokenBytes,
    hexValue?_hexDigitUpper, hexValue?_hexDigitUpper]
  cases tokenBytes rest with
  | none => rfl
  | some bytes => simp only [hvalue, UInt8.ofNat_toNat, Option.map_some]

theorem tokenBytes_escapeBytes (bytes : List UInt8) (rest : List Char) :
    tokenBytes (bytes.flatMap escapeByte ++ rest) = (tokenBytes rest).map (bytes ++ ·) := by
  induction bytes with
  | nil =>
      rw [List.flatMap_nil, List.nil_append]
      cases tokenBytes rest <;> rfl
  | cons b bytes ih =>
      rw [List.flatMap_cons, List.append_assoc, tokenBytes_escapeByte, ih, Option.map_map]
      rfl

theorem tokenBytes_escape (c : Char) (rest : List Char) :
    tokenBytes (escape c ++ rest) = (tokenBytes rest).map (String.utf8EncodeChar c ++ ·) := by
  rw [escape]
  split
  · exact tokenBytes_escapeBytes _ rest
  · rename_i hplain
    refine tokenBytes_cons ?_ rest
    rintro rfl
    exact hplain (by decide)

theorem tokenBytes_flatMap_escape (chars : List Char) :
    tokenBytes (chars.flatMap escape) = some (chars.flatMap String.utf8EncodeChar) := by
  induction chars with
  | nil => rfl
  | cons c chars ih =>
      rw [List.flatMap_cons, tokenBytes_escape, ih, List.flatMap_cons]
      rfl

theorem tokenTenant?_token (tenant : String) : tokenTenant? (token tenant) = some tenant := by
  have hbytes : (⟨(tenant.toList.flatMap String.utf8EncodeChar).toArray⟩ : ByteArray) =
      tenant.toByteArray := by
    rw [← String.utf8Encode_toList, List.utf8Encode]
    exact ByteArray.ext List.data_toByteArray.symm
  rw [tokenTenant?, token, tokenBytes_flatMap_escape, Option.bind_some, hbytes, String.fromUTF8?,
    dif_pos tenant.isValidUTF8]
  rfl

theorem token_injective (h : token tenant = token other) : tenant = other := by
  have hread := tokenTenant?_token tenant
  rw [h, tokenTenant?_token] at hread
  exact (Option.some_inj.mp hread).symm

theorem subject_inj (c : Config) : c.subject tenant = c.subject other ↔ tenant = other := by
  constructor
  · intro h
    apply token_injective
    exact String.ofList_injective (String.append_right_inj _ |>.mp h)
  · rintro rfl
    rfl

theorem partsMatch_self (parts : List (List Char)) : partsMatch parts parts = true := by
  induction parts with
  | nil => rfl
  | cons p parts ih => simp [partsMatch, ih]

theorem partsMatch_concat {f p : List Char} {parts : List (List Char)} (hone : f ≠ ['*'])
    (hrest : f ≠ ['>']) (h : partsMatch (parts ++ [f]) (parts ++ [p]) = true) : f = p := by
  induction parts with
  | nil => simpa [partsMatch, hone, hrest] using h
  | cons part parts ih => exact ih (by simpa [partsMatch] using h)

theorem parts_subject (c : Config) (tenant : String) :
    (c.subject tenant).toList.splitOn '.' = c.subjectRoot.toList.splitOn '.' ++ [token tenant] := by
  have hlist : (c.subject tenant).toList = c.subjectRoot.toList ++ '.' :: token tenant := by
    simp [Config.subject]
  have hwhole : (token tenant).splitOn '.' = [token tenant] :=
    List.splitOn_eq_singleton fun hdot => (isPlain_of_mem_token hdot).1 rfl
  rw [hlist, List.splitOn_append_cons_self, hwhole]

theorem subjectMatches_iff (c : Config) :
    subjectMatches (c.subject tenant) (c.subject other) = true ↔ other = tenant := by
  constructor
  · intro h
    rw [subjectMatches, parts_subject, parts_subject] at h
    refine (token_injective (partsMatch_concat ?_ ?_ h)).symm
    · intro hstar
      exact (isPlain_of_mem_token (hstar ▸ List.mem_singleton_self _)).2.1 rfl
    · intro hrest
      exact (isPlain_of_mem_token (hrest ▸ List.mem_singleton_self _)).2.2.1 rfl
  · rintro rfl
    exact partsMatch_self _

/-- The subject of a tenant is the root of the subjects and one further part, which holds none of
the marks of the broker and no blanks and is read back as the tenant. So tenants share no subject,
the filter of a tenant lets no other subject of a tenant through, and a consumer with that filter
gets no message to another tenant. -/
theorem subject_of_tenant (c : Config) (tenant : String) :
    (∃ word, c.subject tenant = c.subjectRoot ++ "." ++ String.ofList word ∧
      (∀ x ∈ word, x ≠ '.' ∧ x ≠ '*' ∧ x ≠ '>' ∧ isBlank x = false) ∧
      tokenTenant? word = some tenant) ∧
    (∀ other, c.subject other = c.subject tenant ↔ other = tenant) ∧
    (∀ other, subjectMatches (c.subject tenant) (c.subject other) = true ↔ other = tenant) ∧
    ∀ (s : Stream) (name : String) (acked : List Nat),
      s.consumers.find? name = some ⟨c.subject tenant, acked⟩ →
      ∀ n m, (n, c.publication m) ∈ s.feed name → m.toTenant = tenant := by
  refine ⟨⟨token tenant, rfl, fun _ => isPlain_of_mem_token, tokenTenant?_token tenant⟩,
    fun other => subject_inj c, fun other => subjectMatches_iff c, ?_⟩
  intro s name acked hconsumer n m hfeed
  simp only [Stream.feed, hconsumer, List.mem_filter, Bool.and_eq_true, decide_eq_true_eq] at hfeed
  exact (subject_inj c).mp hfeed.2.1

def tenantMessage (id tenant : String) : Message :=
  .new id ⟨0, 0, 0⟩ "auditor" tenant "agent" .question "Why?"

theorem subject_of_tenant_escaped :
    let c := Config.standard
    let s := ((Stream.empty.publish (c.publication (tenantMessage "a" "acme%2Eeu"))).2.publish
      (c.publication (tenantMessage "b" "acme.eu"))).2.makeConsumer "worker" (c.subject "acme.eu")
    s.consumers.find? "worker" = some ⟨c.subject "acme.eu", []⟩ ∧
      (s.feed "worker").map Prod.fst = [2] ∧
      (2, c.publication (tenantMessage "b" "acme.eu")) ∈ s.feed "worker" ∧
      (tenantMessage "b" "acme.eu").toTenant = "acme.eu" := by
  intro c s
  have hfeed : (2, c.publication (tenantMessage "b" "acme.eu")) ∈ s.feed "worker" :=
    List.mem_filter.mpr ⟨.tail _ (.head _), by decide⟩
  exact ⟨rfl, by decide, hfeed, (subject_of_tenant c "acme.eu").2.2.2 s "worker" [] rfl _ _ hfeed⟩

end Parley.Broker
