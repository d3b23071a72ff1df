import Parley.Json.Printer
import Parley.Json.Token
import Parley.Proofs.Json.Number

namespace Parley.Json

open Token (Scan Quoted isNumberChar start finish next)

def numberToken (n : Number) : Token :=
  ((Number.Literal.read n.render).map Token.number).getD .null

mutual

def tokens : Json → List Token
  | .null => [.null]
  | .bool b => [.bool b]
  | .num n => [numberToken n]
  | .str s => [.text (some s)]
  | .arr [] => [.openArray, .closeArray]
  | .arr (v :: rest) => .openArray :: (tokens v ++ tokensItems rest)
  | .obj [] => [.openObject, .closeObject]
  | .obj ((key, v) :: rest) =>
    .openObject :: .text (some key) :: .colon :: (tokens v ++ tokensMembers rest)

def tokensItems : List Json → List Token
  | [] => [.closeArray]
  | v :: rest => .comma :: (tokens v ++ tokensItems rest)

def tokensMembers : List (String × Json) → List Token
  | [] => [.closeObject]
  | (key, v) :: rest => .comma :: .text (some key) :: .colon :: (tokens v ++ tokensMembers rest)

end

mutual

def Finite : Json → Prop
  | .num n => n.Finite
  | .arr items => FiniteItems items
  | .obj members => FiniteMembers members
  | _ => True

def FiniteItems : List Json → Prop
  | [] => True
  | v :: rest => v.Finite ∧ FiniteItems rest

def FiniteMembers : List (String × Json) → Prop
  | [] => True
  | (_, v) :: rest => v.Finite ∧ FiniteMembers rest

end

/-- A scan has read some tokens, the last of which ends here unless a letter or a digit follows. -/
structure Ends (s : Scan) (ts : List Token) : Prop where
  finish : finish s = some ts
  next : ∀ c, c.isLower = false → isNumberChar c = false → next s c = start ts c

theorem ends_between (ts : List Token) : Ends ⟨ts, .between⟩ ts := ⟨rfl, fun _ _ _ => rfl⟩

variable {ts : List Token}

theorem ends_word {chars : List Char} {t : Token} (h : Token.ofWord chars.reverse = some t) :
    Ends ⟨ts, .word chars⟩ (t :: ts) := by
  have hf : finish ⟨ts, .word chars⟩ = some (t :: ts) := by simp only [Token.finish, h]; rfl
  refine ⟨hf, ?_⟩
  intro c hl _
  simp only [Token.next, hl, Bool.false_eq_true, if_false, hf, Option.bind_some]

theorem ends_number {chars : List Char} {l : Number.Literal}
    (h : Number.Literal.read chars.reverse = some l) :
    Ends ⟨ts, .number chars⟩ (.number l :: ts) := by
  have hf : finish ⟨ts, .number chars⟩ = some (.number l :: ts) := by
    simp only [Token.finish, h]; rfl
  refine ⟨hf, ?_⟩
  intro c _ hn
  simp only [Token.next, hn, Bool.false_eq_true, if_false, hf, Option.bind_some]

theorem next_mark {s : Scan} (h : Ends s ts) {c : Char} {t : Token}
    (hc : Token.punctuation c = some t) : next s c = some ⟨t :: ts, .between⟩ := by
  have hmark : c = '[' ∨ c = ']' ∨ c = '\x7b' ∨ c = '\x7d' ∨ c = ',' ∨ c = ':' := by
    simp only [Token.punctuation] at hc
    grind
  rw [h.next c]
  · rcases hmark with rfl | rfl | rfl | rfl | rfl | rfl <;> cases hc <;> rfl
  · rcases hmark with rfl | rfl | rfl | rfl | rfl | rfl <;> rfl
  · rcases hmark with rfl | rfl | rfl | rfl | rfl | rfl <;> rfl

theorem foldlM_word {w : List Char} (hl : ∀ c ∈ w, c.isLower = true) (chars : List Char) :
    w.foldlM next ⟨ts, .word chars⟩ = some ⟨ts, .word (w.reverse ++ chars)⟩ := by
  induction w generalizing chars with
  | nil => rfl
  | cons c w ih =>
      have hc := hl c (by simp)
      have hnext : next ⟨ts, .word chars⟩ c = some ⟨ts, .word (c :: chars)⟩ := by
        simp only [Token.next, hc, if_true]
      rw [List.foldlM_cons, hnext]
      simpa using ih (fun d hd => hl d (List.mem_cons_of_mem c hd)) (c :: chars)

theorem foldlM_number {w : List Char} (hl : ∀ c ∈ w, isNumberChar c = true) (chars : List Char) :
    w.foldlM next ⟨ts, .number chars⟩ = some ⟨ts, .number (w.reverse ++ chars)⟩ := by
  induction w generalizing chars with
  | nil => rfl
  | cons c w ih =>
      have hc := hl c (by simp)
      have hnext : next ⟨ts, .number chars⟩ c = some ⟨ts, .number (c :: chars)⟩ := by
        simp only [Token.next, hc, if_true]
      rw [List.foldlM_cons, hnext]
      simpa using ih (fun d hd => hl d (List.mem_cons_of_mem c hd)) (c :: chars)

theorem hexValue?_hexDigit (n : Nat) : Text.hexValue? (Text.hexDigit n) = some (n % 16) := by
  have h := Text.hexValue?_hexDigit (n % 16) (Nat.mod_lt _ (by decide))
  rw [Text.hexDigit, Nat.mod_mod] at h
  exact h

theorem foldlM_escape (c : Char) (chars : List Char) :
    (escape c).foldlM next ⟨ts, .quoted ⟨chars, none, true⟩⟩ =
      some ⟨ts, .quoted ⟨c :: chars, none, true⟩⟩ := by
  have hofNat (n : Nat) (h : c.toNat = n) : Char.ofNat n = c := by
    rw [← h, Char.ofNat_toNat]
  rw [escape]
  split
  · rename_i h
    subst h
    rfl
  split
  · rename_i h
    subst h
    rfl
  split
  · rename_i h
    rw [← hofNat 8 h]
    rfl
  split
  · rename_i h
    rw [← hofNat 12 h]
    rfl
  split
  · rename_i h
    subst h
    rfl
  split
  · rename_i h
    subst h
    rfl
  split
  · rename_i h
    subst h
    rfl
  split
  · rename_i h
    have hzero : Text.hexValue? '0' = some 0 := rfl
    have hunit : (c.toNat / 16 % 16) * 16 + c.toNat % 16 = c.toNat := by omega
    have hhigh : Quoted.isHigh c.toNat = false := by simp [Quoted.isHigh]; omega
    have hlow : Quoted.isLow c.toNat = false := by simp [Quoted.isLow]; omega
    simp [Token.next, hzero, hexValue?_hexDigit, hunit, Quoted.pushUnit, hhigh, hlow, Quoted.push,
      Quoted.settle, Char.ofNat_toNat]
  · rename_i hq hb _ _ _ _ _ hctl
    simp [Token.next, hq, hb, hctl, Quoted.push, Quoted.settle]

theorem foldlM_quoted (s : String) :
    (quoted s).foldlM next ⟨ts, .between⟩ = some ⟨.text (some s) :: ts, .between⟩ := by
  have hchars (cs chars : List Char) : (cs.flatMap escape).foldlM next
      ⟨ts, .quoted ⟨chars, none, true⟩⟩ = some ⟨ts, .quoted ⟨cs.reverse ++ chars, none, true⟩⟩ := by
    induction cs generalizing chars with
    | nil => rfl
    | cons c cs ih =>
        rw [List.flatMap_cons, List.foldlM_append, foldlM_escape]
        simpa using ih (c :: chars)
  have hopen : next ⟨ts, .between⟩ '"' = some ⟨ts, .quoted ⟨[], none, true⟩⟩ := rfl
  rw [quoted, List.foldlM_cons, hopen]
  change (s.toList.flatMap escape ++ ['"']).foldlM next ⟨ts, .quoted ⟨[], none, true⟩⟩ = _
  rw [List.foldlM_append, hchars]
  simp [Token.next, Quoted.value, Quoted.settle]

open Decimal (Scientific digitsOf zeros)

theorem isNumberChar_of_isDigit {c : Char} (h : c.isDigit = true) : isNumberChar c = true := by
  simp [Token.isNumberChar, h]

theorem isNumberChar_of_mem_digitsOf {n : Nat} {c : Char} (h : c ∈ digitsOf n) :
    isNumberChar c = true := isNumberChar_of_isDigit (Number.Literal.isDigit_of_mem_digitsOf h)

theorem isNumberChar_of_mem_zeros {i : Int} {c : Char} (h : c ∈ zeros i) :
    isNumberChar c = true := isNumberChar_of_isDigit (Number.Literal.isDigit_of_mem_zeros h)

theorem isNumberChar_of_mem_signed {negative : Bool} {cs : List Char}
    (h : ∀ c ∈ cs, isNumberChar c = true) : ∀ c ∈ Decimal.signed negative cs,
      isNumberChar c = true := by
  cases negative with
  | false => exact h
  | true => exact List.forall_mem_cons.mpr ⟨rfl, h⟩

theorem isNumberChar_of_mem_positional (s : Scientific) :
    ∀ c ∈ Decimal.positional ['.', '0'] s, isNumberChar c = true := by
  have hdig : ∀ c ∈ digitsOf s.digits, isNumberChar c = true :=
    fun _ => isNumberChar_of_mem_digitsOf
  have hzeros (i : Int) : ∀ c ∈ zeros i, isNumberChar c = true :=
    fun _ => isNumberChar_of_mem_zeros
  simp only [Decimal.positional]
  split
  · rw [List.forall_mem_append, List.forall_mem_append]
    exact ⟨⟨hdig, hzeros _⟩, List.all_eq_true.mp rfl⟩
  · split
    · rw [List.forall_mem_append, List.forall_mem_cons]
      exact ⟨fun c hc => hdig c (List.mem_of_mem_take hc), rfl,
        fun c hc => hdig c (List.mem_of_mem_drop hc)⟩
    · rw [List.forall_mem_append, List.forall_mem_cons, List.forall_mem_cons]
      exact ⟨⟨rfl, rfl, hzeros _⟩, hdig⟩

theorem isNumberChar_of_mem_exponential (s : Scientific) :
    ∀ c ∈ Decimal.exponential s, isNumberChar c = true := by
  have hdig : ∀ c ∈ digitsOf s.digits, isNumberChar c = true :=
    fun _ => isNumberChar_of_mem_digitsOf
  simp only [Decimal.exponential]
  rw [List.forall_mem_append, List.forall_mem_append, List.forall_mem_cons, List.forall_mem_cons]
  refine ⟨⟨fun c hc => hdig c (List.mem_of_mem_take hc), ?_⟩, rfl, ?_,
    fun _ => isNumberChar_of_mem_digitsOf⟩
  · split
    · exact List.forall_mem_nil _
    · exact List.forall_mem_cons.mpr ⟨rfl, fun c hc => hdig c (List.mem_of_mem_drop hc)⟩
  · split <;> rfl

theorem isNumberChar_of_mem_render {n : Number} (h : n.Finite) :
    ∀ c ∈ n.render, isNumberChar c = true := by
  cases n with
  | int i => exact isNumberChar_of_mem_signed fun _ => isNumberChar_of_mem_digitsOf
  | float x =>
      obtain ⟨negative, m, e, hx⟩ := Decimal.ofFloat_of_isFinite h
      rw [Number.render, Decimal.documentText, hx]
      cases m with
      | zero => exact isNumberChar_of_mem_signed (List.all_eq_true.mp rfl)
      | succ m =>
          apply isNumberChar_of_mem_signed
          split
          · exact isNumberChar_of_mem_positional _
          · exact isNumberChar_of_mem_exponential _

theorem start_digit {c : Char} (h : c.isDigit = true) : start ts c = some ⟨ts, .number [c]⟩ := by
  have hne (d : Char) (hd : d.isDigit = false) : c ≠ d := by
    rintro rfl
    rw [h] at hd
    cases hd
  simp [Token.start, Token.isSpace, hne ' ' rfl, hne '\t' rfl, hne '\n' rfl, hne '\r' rfl,
    hne '"' rfl, h]

theorem start_of_read (ts : List Token) {cs : List Char} {l : Number.Literal}
    (h : Number.Literal.read cs = some l) :
    ∃ c rest, cs = c :: rest ∧ start ts c = some ⟨ts, .number [c]⟩ := by
  cases cs with
  | nil => cases h
  | cons c rest =>
      refine ⟨c, rest, rfl, ?_⟩
      by_cases hm : c = '-'
      · subst hm
        rfl
      · cases hd : c.isDigit with
        | true => exact start_digit hd
        | false =>
            have hz : c ≠ '0' := by
              rintro rfl
              cases hd
            simp [Number.Literal.read, hm, Number.Literal.readUnsigned, Number.Literal.readWhole, hz,
              Number.Literal.splitDigits, hd] at h

theorem scan_number {n : Number} (h : n.Finite) :
    ∃ s, n.render.foldlM next ⟨ts, .between⟩ = some s ∧ Ends s (numberToken n :: ts) := by
  obtain ⟨l, hl⟩ := Number.read_render h
  obtain ⟨c, rest, hcs, hstart⟩ := start_of_read ts hl
  have hchars := isNumberChar_of_mem_render h
  rw [hcs] at hchars
  have htoken : numberToken n = .number l := by rw [numberToken, hl]; rfl
  rw [htoken, hcs, List.foldlM_cons, show next ⟨ts, .between⟩ c = start ts c from rfl, hstart]
  refine ⟨_, foldlM_number (fun d hd => hchars d (List.mem_cons_of_mem c hd)) [c], ?_⟩
  apply ends_number
  rw [List.reverse_append, List.reverse_reverse, List.reverse_singleton, List.singleton_append,
    ← hcs, hl]

theorem scan_word {c : Char} {w : List Char} {t : Token} (hc : start ts c = some ⟨ts, .word [c]⟩)
    (hl : ∀ d ∈ w, d.isLower = true) (ht : Token.ofWord (c :: w) = some t) :
    ∃ s, (c :: w).foldlM next ⟨ts, .between⟩ = some s ∧ Ends s (t :: ts) := by
  rw [List.foldlM_cons, show next ⟨ts, .between⟩ c = start ts c from rfl, hc]
  refine ⟨_, foldlM_word hl [c], ends_word ?_⟩
  rw [List.reverse_append, List.reverse_reverse, List.reverse_singleton, List.singleton_append, ht]

mutual

theorem scan_render : (v : Json) → v.Finite → (ts : List Token) →
    ∃ s, v.render.foldlM next ⟨ts, .between⟩ = some s ∧ Ends s ((tokens v).reverse ++ ts)
  | .null, _, _ => scan_word rfl (w := "ull".toList) (List.all_eq_true.mp rfl) rfl
  | .bool true, _, _ => scan_word rfl (w := "rue".toList) (List.all_eq_true.mp rfl) rfl
  | .bool false, _, _ => scan_word rfl (w := "alse".toList) (List.all_eq_true.mp rfl) rfl
  | .num _, h, _ => scan_number h
  | .str s, _, _ => ⟨_, foldlM_quoted s, ends_between _⟩
  | .arr [], _, _ => ⟨_, rfl, ends_between _⟩
  | .arr (v :: rest), h, ts => by
      obtain ⟨s, hs, he⟩ := scan_render v h.1 (.openArray :: ts)
      obtain ⟨s', hs', he'⟩ := scan_items rest h.2 s _ he
      refine ⟨s', ?_, by simpa [tokens] using he'⟩
      change (v.render ++ renderItems rest).foldlM next ⟨.openArray :: ts, .between⟩ = _
      rw [List.foldlM_append, hs]
      exact hs'
  | .obj [], _, _ => ⟨_, rfl, ends_between _⟩
  | .obj ((key, v) :: rest), h, ts => by
      obtain ⟨s, hs, he⟩ := scan_render v h.1 (.colon :: .text (some key) :: .openObject :: ts)
      obtain ⟨s', hs', he'⟩ := scan_members rest h.2 s _ he
      refine ⟨s', ?_, by simpa [tokens] using he'⟩
      change (quoted key ++ ':' :: (v.render ++ renderMembers rest)).foldlM next
        ⟨.openObject :: ts, .between⟩ = _
      rw [List.foldlM_append, foldlM_quoted]
      change (v.render ++ renderMembers rest).foldlM next _ = _
      rw [List.foldlM_append, hs]
      exact hs'

theorem scan_items : (items : List Json) → FiniteItems items → (s : Scan) → (ts : List Token) →
    Ends s ts → ∃ s', (renderItems items).foldlM next s = some s' ∧
      Ends s' ((tokensItems items).reverse ++ ts)
  | [], _, s, ts, he => by
      refine ⟨⟨.closeArray :: ts, .between⟩, ?_, ends_between _⟩
      rw [renderItems, List.foldlM_cons, next_mark he (c := ']') rfl]
      rfl
  | v :: rest, h, s, ts, he => by
      obtain ⟨s', hs', he'⟩ := scan_render v h.1 (.comma :: ts)
      obtain ⟨s'', hs'', he''⟩ := scan_items rest h.2 s' _ he'
      refine ⟨s'', ?_, by simpa [tokensItems] using he''⟩
      rw [renderItems, List.foldlM_cons, next_mark he (c := ',') rfl]
      change (v.render ++ renderItems rest).foldlM next _ = _
      rw [List.foldlM_append, hs']
      exact hs''

theorem scan_members : (members : List (String × Json)) → FiniteMembers members → (s : Scan) →
    (ts : List Token) → Ends s ts → ∃ s', (renderMembers members).foldlM next s = some s' ∧
      Ends s' ((tokensMembers members).reverse ++ ts)
  | [], _, s, ts, he => by
      refine ⟨⟨.closeObject :: ts, .between⟩, ?_, ends_between _⟩
      rw [renderMembers, List.foldlM_cons, next_mark he (c := '\x7d') rfl]
      rfl
  | (key, v) :: rest, h, s, ts, he => by
      obtain ⟨s', hs', he'⟩ := scan_render v h.1 (.colon :: .text (some key) :: .comma :: ts)
      obtain ⟨s'', hs'', he''⟩ := scan_members rest h.2 s' _ he'
      refine ⟨s'', ?_, by simpa [tokensMembers] using he''⟩
      rw [renderMembers, List.foldlM_cons, next_mark he (c := ',') rfl]
      change (quoted key ++ ':' :: (v.render ++ renderMembers rest)).foldlM next
        ⟨.comma :: ts, .between⟩ = _
      rw [List.foldlM_append, foldlM_quoted]
      change (v.render ++ renderMembers rest).foldlM next _ = _
      rw [List.foldlM_append, hs']
      exact hs''

end

theorem scan_eq_tokens {v : Json} (h : v.Finite) : Token.scan v.render = some (tokens v) := by
  obtain ⟨s, hs, he⟩ := scan_render v h []
  rw [Token.scan, hs, Option.bind_some, he.finish]
  simp

end Parley.Json
