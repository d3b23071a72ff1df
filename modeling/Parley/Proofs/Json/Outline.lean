import Parley.Proofs.Json.Scan

namespace Parley.Json

open Token (isNumberChar)

/-- Where in the text of a value a reader is: between texts or inside one, and how many brackets
are open. -/
inductive Place
  | outside (depth : Nat)
  | quoted (depth : Nat)
  | escaped (depth : Nat)

namespace Place

def close : Nat → Option Place
  | 0 => none
  | d + 1 => some (outside d)

/-- Reads a character. A colon stands within brackets, and a backslash inside a text. -/
def next : Place → Char → Option Place
  | outside d, c =>
    if c = '"' then some (quoted d)
    else if c = '\\' then none
    else if c = '[' ∨ c = '\x7b' then some (outside (d + 1))
    else if c = ']' ∨ c = '\x7d' then close d
    else if c = ':' ∧ d = 0 then none
    else some (outside d)
  | quoted d, c =>
    if c = '"' then some (outside d)
    else if c = '\\' then some (escaped d)
    else some (quoted d)
  | escaped d, _ => some (quoted d)

def within (k : Nat) : Place → Place
  | outside d => outside (d + k)
  | quoted d => quoted (d + k)
  | escaped d => escaped (d + k)

/-- One of two readers is inside a text where the other is between texts. -/
inductive Opposite : Place → Place → Prop
  | inside (d d' : Nat) : Opposite (quoted d) (outside d')
  | between (d d' : Nat) : Opposite (outside d) (quoted d')

variable {p q p' q' : Place} {cs : List Char} {c : Char}

theorem next_within (k : Nat) (h : p.next c = some q) : (p.within k).next c = some (q.within k) := by
  cases p with
  | outside d => cases d <;> grind [next, within, close]
  | quoted d => grind [next, within]
  | escaped d => grind [next, within]

theorem foldlM_within (k : Nat) (h : cs.foldlM next p = some q) :
    cs.foldlM next (p.within k) = some (q.within k) := by
  induction cs generalizing p with
  | nil => exact congrArg (fun o => o.map (within k)) h
  | cons c cs ih =>
      obtain ⟨p', hp, hrest⟩ := Option.bind_eq_some_iff.mp h
      exact Option.bind_eq_some_iff.mpr ⟨p'.within k, next_within k hp, ih hrest⟩

theorem Opposite.next (h : Opposite p q) (hp : p.next c = some p') (hq : q.next c = some q') :
    Opposite p' q' := by
  cases h with
  | inside d d' => cases d' <;> grind [Place.next, Opposite, close]
  | between d d' => cases d <;> grind [Place.next, Opposite, close]

theorem Opposite.foldlM (h : Opposite p q) (hp : cs.foldlM Place.next p = some p')
    (hq : cs.foldlM Place.next q = some q') : Opposite p' q' := by
  induction cs generalizing p q with
  | nil =>
      obtain rfl := Option.some.inj hp
      obtain rfl := Option.some.inj hq
      exact h
  | cons c cs ih =>
      obtain ⟨p₁, hp₁, hp⟩ := Option.bind_eq_some_iff.mp hp
      obtain ⟨q₁, hq₁, hq⟩ := Option.bind_eq_some_iff.mp hq
      exact ih (h.next hp₁ hq₁) hp hq

/-- Characters that stand for themselves between texts. -/
def Inert (c : Char) : Prop :=
  c ≠ '"' ∧ c ≠ '\\' ∧ c ≠ '[' ∧ c ≠ '\x7b' ∧ c ≠ ']' ∧ c ≠ '\x7d' ∧ c ≠ ':'

theorem foldlM_inert (h : ∀ c ∈ cs, Inert c) (d : Nat) :
    cs.foldlM next (outside d) = some (outside d) := by
  induction cs with
  | nil => rfl
  | cons c cs ih =>
      rw [List.forall_mem_cons] at h
      obtain ⟨⟨h1, h2, h3, h4, h5, h6, h7⟩, hrest⟩ := h
      have hnext : next (outside d) c = some (outside d) := by
        simp [next, h1, h2, h3, h4, h5, h6, h7]
      rw [List.foldlM_cons, hnext]
      exact ih hrest

theorem inert_of_isNumberChar (h : isNumberChar c = true) : Inert c := by
  refine ⟨?_, ?_, ?_, ?_, ?_, ?_, ?_⟩ <;> rintro rfl <;> cases h

theorem next_quoted (hquote : c ≠ '"') (hslash : c ≠ '\\') (d : Nat) :
    next (quoted d) c = some (quoted d) := by
  rw [next, if_neg hquote, if_neg hslash]

theorem next_hexDigit (n d : Nat) : next (quoted d) (Text.hexDigit n) = some (quoted d) := by
  have hne (c : Char) (hc : Text.hexValue? c = none) : Text.hexDigit n ≠ c := by
    rintro rfl
    rw [hexValue?_hexDigit] at hc
    cases hc
  exact next_quoted (hne '"' rfl) (hne '\\' rfl) d

theorem foldlM_escape (c : Char) (d : Nat) :
    (escape c).foldlM next (quoted d) = some (quoted d) := by
  rw [escape]
  split
  · rfl
  split
  · rfl
  split
  · rfl
  split
  · rfl
  split
  · rfl
  split
  · rfl
  split
  · rfl
  split
  · change [Text.hexDigit (c.toNat / 16), Text.hexDigit c.toNat].foldlM next (quoted d) = _
    rw [List.foldlM_cons, next_hexDigit]
    change [Text.hexDigit c.toNat].foldlM next (quoted d) = _
    rw [List.foldlM_cons, next_hexDigit]
    rfl
  · rename_i hquote hslash _ _ _ _ _ _
    rw [List.foldlM_cons, next_quoted hquote hslash]
    rfl

theorem foldlM_quoted (s : String) (d : Nat) :
    (Json.quoted s).foldlM next (outside d) = some (outside d) := by
  have hchars (cs : List Char) :
      (cs.flatMap escape).foldlM next (quoted d) = some (quoted d) := by
    induction cs with
    | nil => rfl
    | cons c cs ih =>
        rw [List.flatMap_cons, List.foldlM_append, foldlM_escape]
        exact ih
  change (s.toList.flatMap escape ++ ['"']).foldlM next (quoted d) = _
  rw [List.foldlM_append, hchars]
  rfl

mutual

theorem foldlM_render : (v : Json) → v.Finite → (d : Nat) →
    v.render.foldlM next (outside d) = some (outside d)
  | .null, _, d | .bool true, _, d | .bool false, _, d => rfl
  | .num n, h, d => foldlM_inert (fun c hc => inert_of_isNumberChar (isNumberChar_of_mem_render h c hc)) d
  | .str s, _, d => foldlM_quoted s d
  | .arr [], _, d | .obj [], _, d => rfl
  | .arr (v :: rest), h, d => by
      change (v.render ++ renderItems rest).foldlM next (outside (d + 1)) = _
      rw [List.foldlM_append, foldlM_render v h.1]
      exact foldlM_items rest h.2 d
  | .obj ((key, v) :: rest), h, d => by
      change (Json.quoted key ++ ':' :: (v.render ++ renderMembers rest)).foldlM next
        (outside (d + 1)) = _
      rw [List.foldlM_append, foldlM_quoted]
      change (v.render ++ renderMembers rest).foldlM next (outside (d + 1)) = _
      rw [List.foldlM_append, foldlM_render v h.1]
      exact foldlM_members rest h.2 d

theorem foldlM_items : (items : List Json) → FiniteItems items → (d : Nat) →
    (renderItems items).foldlM next (outside (d + 1)) = some (outside d)
  | [], _, d => rfl
  | v :: rest, h, d => by
      change (v.render ++ renderItems rest).foldlM next (outside (d + 1)) = _
      rw [List.foldlM_append, foldlM_render v h.1]
      exact foldlM_items rest h.2 d

theorem foldlM_members : (members : List (String × Json)) → FiniteMembers members → (d : Nat) →
    (renderMembers members).foldlM next (outside (d + 1)) = some (outside d)
  | [], _, d => rfl
  | (key, v) :: rest, h, d => by
      change (Json.quoted key ++ ':' :: (v.render ++ renderMembers rest)).foldlM next
        (outside (d + 1)) = _
      rw [List.foldlM_append, foldlM_quoted]
      change (v.render ++ renderMembers rest).foldlM next (outside (d + 1)) = _
      rw [List.foldlM_append, foldlM_render v h.1]
      exact foldlM_members rest h.2 d

end

end Place

open Place

/-- What follows a colon in the text of a value is not the text of a value. -/
theorem render_ne_append_colon {v w : Json} (hv : v.Finite) (hw : w.Finite) (left : List Char) :
    v.render ≠ left ++ ':' :: w.render := by
  intro h
  have hrun := foldlM_render v hv 0
  have hfresh := foldlM_render w hw 0
  rw [h, List.foldlM_append] at hrun
  obtain ⟨p, -, hrun⟩ := Option.bind_eq_some_iff.mp hrun
  obtain ⟨q, hcolon, hrun⟩ := Option.bind_eq_some_iff.mp hrun
  -- Read from its start, what follows has all its brackets closed and its quotes in pairs.
  cases p with
  | outside d =>
      have hd : d ≠ 0 ∧ outside d = q := by simpa [next] using hcolon
      obtain ⟨hd, rfl⟩ := hd
      have hwithin := foldlM_within d hfresh
      rw [within, Nat.zero_add, hrun] at hwithin
      exact hd (outside.inj (Option.some.inj hwithin)).symm
  | quoted d | escaped d =>
      obtain rfl := Option.some.inj hcolon
      cases (Opposite.inside d 0).foldlM hrun hfresh

end Parley.Json
