import Parley.Proofs.Json.Scan

namespace Parley.Json

def lead : Json → Token
  | .null => .null
  | .bool b => .bool b
  | .num n => numberToken n
  | .str s => .text (some s)
  | .arr _ => .openArray
  | .obj _ => .openObject

theorem head?_tokens (v : Json) (r : List Token) : (tokens v ++ r).head? = some (lead v) := by
  cases v with
  | arr items => cases items <;> rfl
  | obj members => cases members <;> rfl
  | _ => rfl

theorem numberToken_eq {n : Number} (h : n.Finite) : ∃ l, numberToken n = .number l := by
  obtain ⟨l, hl⟩ := Number.read_render h
  exact ⟨l, by rw [numberToken, hl]; rfl⟩

theorem numberToken_injective {n k : Number} (hn : n.Finite) (hk : k.Finite)
    (h : numberToken n = numberToken k) : n = k := by
  obtain ⟨l, hl⟩ := Number.read_render hn
  obtain ⟨l', hl'⟩ := Number.read_render hk
  apply Number.render_injective hn hk
  rw [numberToken, numberToken, hl, hl'] at h
  rw [hl, hl', Token.number.inj h]

theorem numberToken_ne {n : Number} (h : n.Finite) {t : Token} (ht : ∀ l, t ≠ .number l) :
    numberToken n ≠ t := by
  obtain ⟨l, hl⟩ := numberToken_eq h
  rw [hl]
  exact (ht l).symm

theorem lead_eq {v w : Json} {r r' : List Token} (h : tokens v ++ r = tokens w ++ r') :
    lead v = lead w := by
  have hh := congrArg List.head? h
  rw [head?_tokens, head?_tokens] at hh
  exact Option.some.inj hh

theorem tokens_ne_closeArray {v : Json} (h : v.Finite) {r r' : List Token} :
    tokens v ++ r ≠ .closeArray :: r' := by
  intro he
  have hh := head?_tokens v r
  rw [he] at hh
  cases v with
  | num n => exact numberToken_ne h (t := .closeArray) nofun (Option.some.inj hh).symm
  | _ => cases hh

mutual

/-- Tokens stand for one value only. -/
theorem tokens_injective : (v w : Json) → v.Finite → w.Finite → (r r' : List Token) →
    tokens v ++ r = tokens w ++ r' → v = w ∧ r = r'
  | .null, w, _, hw, r, r', h => by
      have hl := lead_eq h
      cases w with
      | null => exact ⟨rfl, (List.cons.inj h).2⟩
      | num k => exact absurd hl.symm (numberToken_ne hw nofun)
      | _ => cases hl
  | .bool b, w, _, hw, r, r', h => by
      have hl := lead_eq h
      cases w with
      | bool b' => exact ⟨congrArg _ (Token.bool.inj hl), (List.cons.inj h).2⟩
      | num k => exact absurd hl.symm (numberToken_ne hw nofun)
      | _ => cases hl
  | .num n, w, hv, hw, r, r', h => by
      have hl := lead_eq h
      cases w with
      | num k => exact ⟨congrArg _ (numberToken_injective hv hw hl), (List.cons.inj h).2⟩
      | _ => exact absurd hl (numberToken_ne hv nofun)
  | .str s, w, _, hw, r, r', h => by
      have hl := lead_eq h
      cases w with
      | str s' => exact ⟨congrArg _ (Option.some.inj (Token.text.inj hl)), (List.cons.inj h).2⟩
      | num k => exact absurd hl.symm (numberToken_ne hw nofun)
      | _ => cases hl
  | .arr items, w, hv, hw, r, r', h => by
      have hl := lead_eq h
      cases w with
      | num k => exact absurd hl.symm (numberToken_ne hw nofun)
      | arr items' =>
          cases items with
          | nil =>
              cases items' with
              | nil => exact ⟨rfl, (List.cons.inj (List.cons.inj h).2).2⟩
              | cons v' rest' =>
                  simp only [tokens, List.cons_append, List.append_assoc, List.cons.injEq, true_and,
                    List.nil_append] at h
                  exact absurd h.symm (tokens_ne_closeArray hw.1)
          | cons v rest =>
              cases items' with
              | nil =>
                  simp only [tokens, List.cons_append, List.append_assoc, List.cons.injEq, true_and,
                    List.nil_append] at h
                  exact absurd h (tokens_ne_closeArray hv.1)
              | cons v' rest' =>
                  simp only [tokens, List.cons_append, List.append_assoc, List.cons.injEq,
                    true_and] at h
                  obtain ⟨rfl, hrest⟩ := tokens_injective v v' hv.1 hw.1 _ _ h
                  obtain ⟨rfl, hr⟩ := tokensItems_injective rest rest' hv.2 hw.2 _ _ hrest
                  exact ⟨rfl, hr⟩
      | _ => cases hl
  | .obj members, w, hv, hw, r, r', h => by
      have hl := lead_eq h
      cases w with
      | num k => exact absurd hl.symm (numberToken_ne hw nofun)
      | obj members' =>
          cases members with
          | nil =>
              cases members' with
              | nil => exact ⟨rfl, (List.cons.inj (List.cons.inj h).2).2⟩
              | cons m' rest' => cases (List.cons.inj h).2
          | cons m rest =>
              cases members' with
              | nil => cases (List.cons.inj h).2
              | cons m' rest' =>
                  obtain ⟨key, v⟩ := m
                  obtain ⟨key', v'⟩ := m'
                  simp only [tokens, List.cons_append, List.append_assoc, List.cons.injEq,
                    true_and, Token.text.injEq, Option.some.injEq] at h
                  obtain ⟨rfl, h⟩ := h
                  obtain ⟨rfl, hrest⟩ := tokens_injective v v' hv.1 hw.1 _ _ h
                  obtain ⟨rfl, hr⟩ := tokensMembers_injective rest rest' hv.2 hw.2 _ _ hrest
                  exact ⟨rfl, hr⟩
      | _ => cases hl

theorem tokensItems_injective : (items items' : List Json) → FiniteItems items →
    FiniteItems items' → (r r' : List Token) →
    tokensItems items ++ r = tokensItems items' ++ r' → items = items' ∧ r = r'
  | [], [], _, _, _, _, h => ⟨rfl, (List.cons.inj h).2⟩
  | [], _ :: _, _, _, _, _, h => by cases h
  | _ :: _, [], _, _, _, _, h => by cases h
  | v :: rest, v' :: rest', hv, hw, r, r', h => by
      simp only [tokensItems, List.cons_append, List.append_assoc, List.cons.injEq, true_and] at h
      obtain ⟨rfl, hrest⟩ := tokens_injective v v' hv.1 hw.1 _ _ h
      obtain ⟨rfl, hr⟩ := tokensItems_injective rest rest' hv.2 hw.2 _ _ hrest
      exact ⟨rfl, hr⟩

theorem tokensMembers_injective : (members members' : List (String × Json)) →
    FiniteMembers members → FiniteMembers members' → (r r' : List Token) →
    tokensMembers members ++ r = tokensMembers members' ++ r' → members = members' ∧ r = r'
  | [], [], _, _, _, _, h => ⟨rfl, (List.cons.inj h).2⟩
  | [], _ :: _, _, _, _, _, h => by cases h
  | _ :: _, [], _, _, _, _, h => by cases h
  | (key, v) :: rest, (key', v') :: rest', hv, hw, r, r', h => by
      simp only [tokensMembers, List.cons_append, List.append_assoc, List.cons.injEq, true_and,
        Token.text.injEq, Option.some.injEq] at h
      obtain ⟨rfl, h⟩ := h
      obtain ⟨rfl, hrest⟩ := tokens_injective v v' hv.1 hw.1 _ _ h
      obtain ⟨rfl, hr⟩ := tokensMembers_injective rest rest' hv.2 hw.2 _ _ hrest
      exact ⟨rfl, hr⟩

end

theorem render_injective {v w : Json} (hv : v.Finite) (hw : w.Finite) (h : v.render = w.render) :
    v = w := by
  have htokens : tokens v = tokens w := by
    rw [← Option.some.injEq, ← scan_eq_tokens hv, ← scan_eq_tokens hw, h]
  exact (tokens_injective v w hv hw [] [] (by rw [htokens])).1

end Parley.Json
