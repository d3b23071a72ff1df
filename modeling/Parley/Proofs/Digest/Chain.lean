import Mathlib.Data.List.Basic
import Parley.Digest.Chain

namespace Parley

namespace Text

theorem hexDigit_injective : ∀ m < 16, ∀ n < 16, hexDigit m = hexDigit n → m = n := by decide

theorem byte_eq_of_digits {a b : UInt8} (hhigh : hexDigit (a.toNat / 16) = hexDigit (b.toNat / 16))
    (hlow : hexDigit a.toNat = hexDigit b.toNat) : a = b := by
  have ha := a.toNat_lt
  have hb := b.toNat_lt
  rw [hexDigit_mod a.toNat, hexDigit_mod b.toNat] at hlow
  have hh := hexDigit_injective _ (by omega) _ (by omega) hhigh
  have hl := hexDigit_injective _ (by omega) _ (by omega) hlow
  apply UInt8.toNat_inj.mp
  omega

theorem hexOfBytes_injective {as bs : List UInt8} (h : hexOfBytes as = hexOfBytes bs) :
    as = bs := by
  have hl := String.ofList_injective h
  clear h
  induction as generalizing bs with
  | nil =>
      cases bs with
      | nil => rfl
      | cons b bs => cases hl
  | cons a as ih =>
      cases bs with
      | nil => cases hl
      | cons b bs =>
          simp only [List.flatMap_cons, List.cons_append, List.nil_append, List.cons.injEq] at hl
          rw [byte_eq_of_digits hl.1 hl.2.1, ih hl.2.2]

theorem hexOfBytes_length (bytes : List UInt8) :
    (hexOfBytes bytes).toList.length = 2 * bytes.length := by
  rw [hexOfBytes, String.toList_ofList]
  induction bytes with
  | nil => rfl
  | cons b bytes ih =>
      rw [List.flatMap_cons, List.length_append, ih, List.length_cons]
      simp only [List.length_cons, List.length_nil]
      omega

end Text

namespace Digest

theorem sha256_length (bytes : List UInt8) : (sha256 bytes).length = 32 := by
  have hwords (ws : List UInt32) : (ws.flatMap bytesOfWord).length = 4 * ws.length := by
    induction ws with
    | nil => rfl
    | cons w ws ih =>
        rw [List.flatMap_cons, List.length_append, ih, List.length_cons]
        simp only [bytesOfWord, List.length_cons, List.length_nil]
        omega
  rw [sha256, hwords, Vector.length_toList]

def Collides (a b : List UInt8) : Prop := a ≠ b ∧ sha256 a = sha256 b

end Digest

namespace Chain

open Digest (Collides sha256)

variable {p p' : String} {v v' : Json}

theorem toList_loop_eq (bytes : ByteArray) (i : Nat) (r : List UInt8) :
    ByteArray.toList.loop bytes i r = r.reverse ++ bytes.data.toList.drop i := by
  fun_induction ByteArray.toList.loop bytes i r with
  | case1 i r h ih =>
      have hi : i < bytes.data.toList.length := by simpa using h
      have hget : bytes.get! i = bytes.data.toList[i] := by
        simp only [ByteArray.get!, Array.getElem_toList]
        exact getElem!_pos bytes.data i (by simpa using h)
      rw [ih, List.drop_eq_getElem_cons hi, List.reverse_cons, hget, List.append_assoc]
      rfl
  | case2 i r h =>
      have hi : bytes.data.toList.length ≤ i := by simpa using h
      rw [List.drop_eq_nil_of_le hi, List.append_nil]

theorem utf8_injective {a b : String} (h : utf8 a = utf8 b) : a = b := by
  have hl : a.toByteArray.toList = b.toByteArray.toList := h
  rw [ByteArray.toList, ByteArray.toList, toList_loop_eq, toList_loop_eq] at hl
  apply String.toByteArray_inj.mp
  apply ByteArray.ext
  apply Array.toList_inj.mp
  simpa using hl

theorem hash_length (p : String) (v : Json) : (hash p v).toList.length = 64 := by
  rw [hash, Text.hexOfBytes_length, Digest.sha256_length]

theorem link_of_hash_eq (h : hash p v = hash p' v') :
    link p v = link p' v' ∨ Collides (utf8 (link p v)) (utf8 (link p' v')) := by
  have hdigest := Text.hexOfBytes_injective h
  by_cases hl : utf8 (link p v) = utf8 (link p' v')
  · exact .inl (utf8_injective hl)
  · exact .inr ⟨hl, hdigest⟩

/-- Where the hashes before are of one length, the linked text says which they are, and what
comes after. -/
theorem of_link_eq (hlen : p.toList.length = p'.toList.length) (h : link p v = link p' v') :
    p = p' ∧ v.canonical = v'.canonical := by
  have hl := congrArg String.toList h
  simp only [link, String.toList_append, List.append_assoc] at hl
  obtain ⟨hp, hrest⟩ := List.append_inj hl hlen
  refine ⟨String.toList_inj.mp hp, String.toList_inj.mp ?_⟩
  exact (List.append_inj hrest rfl).2

end Chain

end Parley
