import Parley.Json.Number
import Parley.Proofs.Decimal.Shortest

namespace Parley.Number

namespace Literal

def values (cs : List Char) : List Nat := cs.map fun c => c.toNat - '0'.toNat

def exponentValue : Option (Bool × List Nat) → Int
  | none => 0
  | some (true, ds) => -(natOfDigits ds : Int)
  | some (false, ds) => natOfDigits ds

/-- What a literal is worth, but for its sign. -/
def magnitude (l : Literal) : ℚ :=
  natOfDigits (l.whole ++ l.fraction.getD []) *
    10 ^ (exponentValue l.exponent - (l.fraction.getD []).length)

/-- A text that ends before a digit could go on. -/
def Stops (rest : List Char) : Prop := ∀ c ∈ rest.head?, c.isDigit = false

/-- The digits before a point: some, and no zero in front of others. -/
structure Whole (ds : List Char) : Prop where
  digits : ∀ c ∈ ds, c.isDigit = true
  nonempty : ds ≠ []
  lead : ds.head? = some '0' → ds = ['0']

variable {ds rest : List Char}

theorem natOfDigits_values (cs : List Char) :
    natOfDigits (values cs) = Nat.ofDigitChars 10 cs 0 := by
  rw [natOfDigits, values, List.foldl_map, Nat.ofDigitChars_eq_foldl]
  simp only [Nat.mul_comm]

theorem natOfDigits_digitsOf (n : Nat) : natOfDigits (values (Decimal.digitsOf n)) = n := by
  rw [natOfDigits_values, Decimal.digitsOf, Nat.ofDigitChars_ten_toDigits]

theorem isDigit_of_mem_digitsOf {n : Nat} {c : Char} (h : c ∈ Decimal.digitsOf n) :
    c.isDigit = true :=
  Nat.isDigit_of_mem_toDigits (by decide) (by decide) h

theorem digitsOf_ne_nil (n : Nat) : Decimal.digitsOf n ≠ [] := Nat.toDigits_ne_nil

theorem splitDigits_append (h : ∀ c ∈ ds, c.isDigit = true) (hr : Stops rest) :
    splitDigits (ds ++ rest) = (values ds, rest) := by
  have hnone : rest.takeWhile Char.isDigit = [] ∧ rest.dropWhile Char.isDigit = rest := by
    cases rest with
    | nil => exact ⟨rfl, rfl⟩
    | cons c rest =>
        have hc := hr c rfl
        rw [List.takeWhile_cons, List.dropWhile_cons, hc]
        exact ⟨rfl, rfl⟩
  rw [splitDigits, List.takeWhile_append_of_pos h, List.dropWhile_append_of_pos h, hnone.1, hnone.2,
    List.append_nil, values]

theorem readWhole_append (h : Whole ds) (hr : Stops rest) :
    readWhole (ds ++ rest) = some (values ds, rest) := by
  obtain ⟨hd, hne, hlead⟩ := h
  cases ds with
  | nil => exact absurd rfl hne
  | cons d ds =>
      by_cases hz : d = '0'
      · subst hz
        obtain rfl : ds = [] := by simpa using hlead rfl
        rfl
      · have hs := splitDigits_append hd hr
        rw [readWhole, hs]
        · simp [values]
        · rintro tail ⟨⟩
          exact hz rfl

theorem stops_nil : Stops [] := nofun

theorem readFraction_of_stops {c : Char} (hc : c ≠ '.') (rest : List Char) :
    readFraction (c :: rest) = some (none, c :: rest) := by
  rw [readFraction]
  rintro tail ⟨⟩
  exact hc rfl

theorem readFraction_append (h : ∀ c ∈ ds, c.isDigit = true) (hne : ds ≠ []) (hr : Stops rest) :
    readFraction ('.' :: (ds ++ rest)) = some (some (values ds), rest) := by
  rw [readFraction, splitDigits_append h hr]
  cases ds with
  | nil => exact absurd rfl hne
  | cons d ds => rfl

theorem readExponent_append (down : Bool) (h : ∀ c ∈ ds, c.isDigit = true) (hne : ds ≠ []) :
    readExponent ('e' :: (if down then '-' else '+') :: ds) = some (some (down, values ds)) := by
  have hs := splitDigits_append h stops_nil
  rw [List.append_nil] at hs
  cases ds with
  | nil => exact absurd rfl hne
  | cons d ds => cases down <;> simp [readExponent, readExponentDigits, hs, values]

theorem readUnsigned_append {whole : List Char} (hw : Whole whole) (negative : Bool)
    {fraction : Option (List Nat)} {exponent : Option (Bool × List Nat)} {tail : List Char}
    (hs : Stops rest) (hf : readFraction rest = some (fraction, tail))
    (he : readExponent tail = some exponent) :
    readUnsigned negative (whole ++ rest) = some ⟨negative, values whole, fraction, exponent⟩ := by
  simp only [readUnsigned, readWhole_append hw hs, hf, he, Option.map_some]

theorem read_signed {cs : List Char} (negative : Bool) (h : ∃ c ∈ cs.head?, c.isDigit = true) :
    read (Decimal.signed negative cs) = readUnsigned negative cs := by
  obtain ⟨c, hc, hd⟩ := h
  cases cs with
  | nil => cases hc
  | cons d cs =>
      obtain rfl : d = c := Option.some.inj hc
      cases negative with
      | true => rfl
      | false =>
          rw [Decimal.signed, if_neg (by decide), read]
          rintro tail ⟨⟩
          exact absurd hd (by decide)

open Decimal (Scientific digitsOf zeros)

theorem head_digitsOf_ne_zero {n : Nat} (h : 0 < n) : (digitsOf n).head? ≠ some '0' := by
  induction n using Nat.strongRecOn with
  | _ n ih =>
      rw [digitsOf, Nat.toDigits_eq_if (by decide)]
      by_cases hlt : n < 10
      · rw [if_pos hlt]
        rw [List.head?_cons, ne_eq, Option.some.injEq]
        intro hz
        have hv := Nat.toNat_digitChar_sub_48_of_lt_ten hlt
        rw [hz] at hv
        exact absurd hv (by simp; omega)
      · rw [if_neg hlt, List.head?_append_of_ne_nil _ Nat.toDigits_ne_nil]
        exact ih (n / 10) (by omega) (by omega)

theorem whole_of_head (h : ∀ c ∈ ds, c.isDigit = true) (hne : ds ≠ []) (hh : ds.head? ≠ some '0') :
    Whole ds := ⟨h, hne, fun hz => absurd hz hh⟩

theorem whole_digitsOf (n : Nat) : Whole (digitsOf n) := by
  refine ⟨fun _ => isDigit_of_mem_digitsOf, digitsOf_ne_nil n, ?_⟩
  intro hz
  rcases Nat.eq_zero_or_pos n with rfl | hn
  · rfl
  · exact absurd hz (head_digitsOf_ne_zero hn)

theorem whole_digitsOf_append {n : Nat} (hn : 0 < n) {tail : List Char}
    (h : ∀ c ∈ tail, c.isDigit = true) : Whole (digitsOf n ++ tail) := by
  apply whole_of_head
  · intro c hc
    exact (List.mem_append.mp hc).elim isDigit_of_mem_digitsOf (h c)
  · simp [digitsOf_ne_nil]
  · rw [List.head?_append_of_ne_nil _ (digitsOf_ne_nil n)]
    exact head_digitsOf_ne_zero hn

theorem whole_take {n k : Nat} (hn : 0 < n) (hk : 0 < k) : Whole ((digitsOf n).take k) := by
  have hne := digitsOf_ne_nil n
  apply whole_of_head
  · exact fun c hc => isDigit_of_mem_digitsOf (List.mem_of_mem_take hc)
  · intro hnil
    rcases List.take_eq_nil_iff.mp hnil with h | h
    · omega
    · exact hne h
  · rw [List.head?_take, if_neg (by omega)]
    exact head_digitsOf_ne_zero hn

theorem isDigit_of_mem_zeros {i : Int} {c : Char} (h : c ∈ zeros i) : c.isDigit = true := by
  rw [zeros, List.mem_replicate] at h
  rw [h.2]
  rfl

theorem isDigit_of_mem_append {cs tail : List Char} (h : ∀ c ∈ cs, c.isDigit = true)
    (ht : ∀ c ∈ tail, c.isDigit = true) : ∀ c ∈ cs ++ tail, c.isDigit = true :=
  fun c hc => (List.mem_append.mp hc).elim (h c) (ht c)

/-- What a text of a double says: it is no integer, has a sign, and a value. -/
def Says (cs : List Char) (negative : Bool) (v : ℚ) : Prop :=
  ∃ l, read (Decimal.signed negative cs) = some l ∧ l.negative = negative ∧ l.isInteger = false ∧
    l.magnitude = v

theorem says_of_parts {whole rest tail : List Char} (hw : Whole whole) (negative : Bool)
    {fraction : Option (List Nat)} {exponent : Option (Bool × List Nat)} {v : ℚ}
    (hs : Stops rest) (hf : readFraction rest = some (fraction, tail))
    (he : readExponent tail = some exponent)
    (hi : isInteger ⟨negative, values whole, fraction, exponent⟩ = false)
    (hv : magnitude ⟨negative, values whole, fraction, exponent⟩ = v) :
    Says (whole ++ rest) negative v := by
  have hhead : ∃ c ∈ (whole ++ rest).head?, c.isDigit = true := by
    rw [List.head?_append_of_ne_nil _ hw.nonempty]
    exact ⟨_, List.head?_eq_some_head hw.nonempty, hw.digits _ (List.head_mem hw.nonempty)⟩
  refine ⟨_, ?_, rfl, hi, hv⟩
  rw [read_signed negative hhead, readUnsigned_append hw negative hs hf he]

theorem magnitude_none (negative : Bool) (w : List Char) (x : Option (Bool × List Nat)) :
    magnitude ⟨negative, values w, none, x⟩ =
      (Nat.ofDigitChars 10 w 0 : ℚ) * 10 ^ exponentValue x := by
  simp [magnitude, natOfDigits_values]

theorem magnitude_some (negative : Bool) (w f : List Char) (x : Option (Bool × List Nat)) :
    magnitude ⟨negative, values w, some (values f), x⟩ =
      (Nat.ofDigitChars 10 (w ++ f) 0 : ℚ) * 10 ^ (exponentValue x - f.length) := by
  have hv : values w ++ values f = values (w ++ f) := (List.map_append ..).symm
  have hl : (values f).length = f.length := List.length_map ..
  simp only [magnitude, Option.getD_some, hv, natOfDigits_values, hl]

theorem ofDigitChars_digitsOf (n : Nat) : Nat.ofDigitChars 10 (digitsOf n) 0 = n :=
  Nat.ofDigitChars_ten_toDigits

theorem stops_of_not_digit {c : Char} (hc : c.isDigit = false) (rest : List Char) :
    Stops (c :: rest) := by
  intro d hd
  obtain rfl : c = d := Option.some.inj hd
  exact hc

theorem says_zeros {n : Nat} (hn : 0 < n) {q : Int} (hq : 0 ≤ q) (negative : Bool) :
    Says (digitsOf n ++ zeros q ++ ['.', '0']) negative (n * 10 ^ q) := by
  obtain ⟨k, rfl⟩ := Int.eq_ofNat_of_zero_le hq
  apply says_of_parts (whole_digitsOf_append hn fun _ => isDigit_of_mem_zeros) negative
    (stops_of_not_digit rfl ['0']) (@readFraction_append ['0'] [] (by simp) (by simp) stops_nil)
    rfl rfl
  have hz : Nat.ofDigitChars 10 (digitsOf n ++ zeros (k : Int) ++ ['0']) 0 = 10 * (10 ^ k * n) := by
    rw [Nat.ofDigitChars_append, Nat.ofDigitChars_append, ofDigitChars_digitsOf, zeros,
      Int.toNat_natCast, Nat.ofDigitChars_replicate_zero, Nat.ofDigitChars_cons,
      Nat.ofDigitChars_nil]
    rfl
  rw [magnitude_some, hz]
  simp [exponentValue]
  ring

theorem says_inner {n : Nat} (hn : 0 < n) {q : Int} (hq : q < 0)
    (hp : 0 < ((digitsOf n).length : Int) + q) (negative : Bool) :
    Says ((digitsOf n).take ((digitsOf n).length + q).toNat ++
      '.' :: (digitsOf n).drop ((digitsOf n).length + q).toNat) negative (n * 10 ^ q) := by
  have hdig : ∀ c ∈ digitsOf n, c.isDigit = true := fun _ => isDigit_of_mem_digitsOf
  have hdrop : (digitsOf n).drop ((digitsOf n).length + q).toNat ≠ [] := by
    rw [ne_eq, List.drop_eq_nil_iff]
    omega
  have hread := readFraction_append (fun c hc => hdig c (List.mem_of_mem_drop hc)) hdrop stops_nil
  rw [List.append_nil] at hread
  apply says_of_parts (whole_take hn (by omega)) negative (stops_of_not_digit rfl _) hread rfl rfl
  rw [magnitude_some, List.take_append_drop, ofDigitChars_digitsOf, List.length_drop]
  congr 2
  simp only [exponentValue]
  omega

theorem says_small {n : Nat} {q : Int} (hp : ¬ 0 < ((digitsOf n).length : Int) + q)
    (negative : Bool) :
    Says ('0' :: '.' :: zeros (-((digitsOf n).length + q)) ++ digitsOf n) negative
      (n * 10 ^ q) := by
  obtain ⟨k, hk⟩ := Int.eq_ofNat_of_zero_le (show 0 ≤ -((digitsOf n).length + q) by omega)
  have hfrac : ∀ c ∈ zeros (-((digitsOf n).length + q)) ++ digitsOf n, c.isDigit = true :=
    isDigit_of_mem_append (fun _ => isDigit_of_mem_zeros) fun _ => isDigit_of_mem_digitsOf
  have hread := readFraction_append hfrac (by simp [digitsOf_ne_nil]) stops_nil
  rw [List.append_nil] at hread
  have hz : Nat.ofDigitChars 10
      (digitsOf 0 ++ (zeros (-((digitsOf n).length + q)) ++ digitsOf n)) 0 = n := by
    rw [Nat.ofDigitChars_append, ofDigitChars_digitsOf, Nat.ofDigitChars_append, zeros,
      Nat.ofDigitChars_replicate_zero, Nat.mul_zero, ofDigitChars_digitsOf]
  apply says_of_parts (whole_digitsOf 0) negative (stops_of_not_digit rfl _) hread rfl rfl
  rw [magnitude_some, hz, hk, zeros, List.length_append, List.length_replicate]
  congr 2
  simp only [exponentValue]
  omega

theorem says_positional {s : Scientific} (hs : 0 < s.digits) (negative : Bool) :
    Says (Decimal.positional ['.', '0'] s) negative (s.digits * 10 ^ s.exponent) := by
  simp only [Decimal.positional]
  split
  · rename_i hq
    exact says_zeros hs hq negative
  · rename_i hq
    split
    · rename_i hp
      exact says_inner hs (not_le.mp hq) hp negative
    · rename_i hp
      exact says_small hp negative

theorem exponentValue_lead (lead : Int) :
    exponentValue (some (decide (lead < 0), values (digitsOf lead.natAbs))) = lead := by
  by_cases h : lead < 0
  · simp only [exponentValue, h, decide_true, natOfDigits_digitsOf]
    omega
  · simp only [exponentValue, h, decide_false, natOfDigits_digitsOf]
    omega

theorem says_exponential {s : Scientific} (hs : 0 < s.digits) (negative : Bool) :
    Says (Decimal.exponential s) negative (s.digits * 10 ^ s.exponent) := by
  have hdig : ∀ c ∈ digitsOf s.digits, c.isDigit = true := fun _ => isDigit_of_mem_digitsOf
  have hlen := Nat.length_toDigits_pos (b := 10) (n := s.digits)
  rw [← digitsOf] at hlen
  have hwhole := whole_take (k := 1) hs (by decide)
  simp only [Decimal.exponential, List.append_assoc]
  generalize hlead : ((digitsOf s.digits).length : Int) - 1 + s.exponent = lead
  have hplaces : ∀ c ∈ digitsOf lead.natAbs, c.isDigit = true := fun _ => isDigit_of_mem_digitsOf
  have hexp := readExponent_append (decide (lead < 0)) hplaces (digitsOf_ne_nil _)
  simp only [decide_eq_true_eq] at hexp
  split
  · rename_i hone
    apply says_of_parts hwhole negative (stops_of_not_digit rfl _)
      (readFraction_of_stops (by decide) _) hexp rfl
    rw [magnitude_none, exponentValue_lead, List.take_of_length_le (by omega), ofDigitChars_digitsOf,
      ← hlead, hone]
    congr 2
    omega
  · rename_i hmore
    have hdrop : (digitsOf s.digits).drop 1 ≠ [] := by
      rw [ne_eq, List.drop_eq_nil_iff]
      omega
    have hstop (rest : List Char) : Stops ('e' :: rest) := stops_of_not_digit rfl rest
    apply says_of_parts hwhole negative (stops_of_not_digit rfl _)
      (readFraction_append (fun c hc => hdig c (List.mem_of_mem_drop hc)) hdrop (hstop _)) hexp rfl
    rw [magnitude_some, exponentValue_lead, List.take_append_drop, ofDigitChars_digitsOf,
      List.length_drop, ← hlead]
    congr 2
    omega

def shown (m : Nat) (e : Int) : ℚ :=
  if m = 0 then 0
  else (Decimal.shortest .toEven m e).digits * 10 ^ (Decimal.shortest .toEven m e).exponent

theorem rounds_shown {m : Nat} {e : Int} (h : Decimal.Regular m e) (hm : 0 < m) :
    Decimal.Rounds m e (shown m e) := by
  rw [shown, if_neg (by omega)]
  exact Decimal.rounds_shortest .toEven h hm

theorem shortest_digits_pos {m : Nat} {e : Int} (h : Decimal.Regular m e) (hm : 0 < m) :
    0 < (Decimal.shortest .toEven m e).digits := by
  have hpos := Decimal.rounds_pos hm (Decimal.rounds_shortest .toEven h hm)
  by_contra hz
  rw [show (Decimal.shortest .toEven m e).digits = 0 by omega] at hpos
  simp at hpos

theorem read_documentText {x : Float} {negative : Bool} {m : Nat} {e : Int}
    (h : Decimal.Shape.ofFloat x = .finite negative m e) :
    ∃ l, read (Decimal.documentText x) = some l ∧ l.negative = negative ∧ l.isInteger = false ∧
      l.magnitude = shown m e := by
  rw [Decimal.documentText, h]
  rcases Nat.eq_zero_or_pos m with rfl | hm
  · refine ⟨⟨negative, [0], some [0], none⟩, ?_, rfl, rfl, ?_⟩
    · cases negative <;> rfl
    · rw [magnitude, shown]
      norm_num [natOfDigits]
  · have hs := shortest_digits_pos (Decimal.regular_of_ofFloat h) hm
    rw [shown, if_neg (by omega)]
    obtain ⟨n, rfl⟩ := Nat.exists_eq_succ_of_ne_zero (by omega : m ≠ 0)
    simp only
    split
    · exact says_positional hs negative
    · exact says_exponential hs negative

theorem read_integerText (i : Int) : read (Decimal.integerText i) =
    some ⟨decide (i < 0), values (digitsOf i.natAbs), none, none⟩ := by
  have hwhole := whole_digitsOf i.natAbs
  have hhead : ∃ c ∈ (digitsOf i.natAbs).head?, c.isDigit = true :=
    ⟨_, List.head?_eq_some_head hwhole.nonempty, hwhole.digits _ (List.head_mem hwhole.nonempty)⟩
  have hfraction : readFraction [] = some (none, []) := rfl
  have hexponent : readExponent [] = some none := rfl
  have hread := readUnsigned_append hwhole (decide (i < 0)) stops_nil hfraction hexponent
  rw [List.append_nil] at hread
  rw [Decimal.integerText, read_signed _ hhead, hread]

end Literal

def Finite : Number → Prop
  | .int _ => True
  | .float x => x.isFinite = true

theorem shown_injective {m m' : Nat} {e e' : Int} (h : Decimal.Regular m e)
    (h' : Decimal.Regular m' e') (hs : Literal.shown m e = Literal.shown m' e') :
    m = m' ∧ e = e' := by
  have hzero {m : Nat} {e : Int} (h : Decimal.Regular m e) (hm : m = 0) :
      e = Decimal.leastExponent := by
    refine h.normal.resolve_left ?_
    rw [hm]
    decide
  have hpos {m : Nat} {e : Int} (h : Decimal.Regular m e) (hm : 0 < m) : 0 < Literal.shown m e :=
    Decimal.rounds_pos hm (Literal.rounds_shown h hm)
  have hz (e : Int) : Literal.shown 0 e = 0 := if_pos rfl
  rcases Nat.eq_zero_or_pos m with rfl | hm <;> rcases Nat.eq_zero_or_pos m' with rfl | hm'
  · exact ⟨rfl, (hzero h rfl).trans (hzero h' rfl).symm⟩
  · have hp := hpos h' hm'
    rw [← hs, hz] at hp
    exact absurd hp (lt_irrefl 0)
  · have hp := hpos h hm
    rw [hs, hz] at hp
    exact absurd hp (lt_irrefl 0)
  · exact Decimal.rounds_unique h h' (Literal.rounds_shown h hm)
      (hs ▸ Literal.rounds_shown h' hm')

theorem read_render {n : Number} (h : n.Finite) : ∃ l, Literal.read n.render = some l := by
  cases n with
  | int i => exact ⟨_, Literal.read_integerText i⟩
  | float x =>
      obtain ⟨negative, m, e, hx⟩ := Decimal.ofFloat_of_isFinite h
      obtain ⟨l, hl, -⟩ := Literal.read_documentText hx
      exact ⟨l, hl⟩

theorem render_injective {n k : Number} (hn : n.Finite) (hk : k.Finite)
    (h : Literal.read n.render = Literal.read k.render) : n = k := by
  cases n with
  | int i =>
      rw [show render (.int i) = Decimal.integerText i from rfl, Literal.read_integerText] at h
      cases k with
      | int j =>
          rw [show render (.int j) = Decimal.integerText j from rfl, Literal.read_integerText,
            Option.some.injEq, Literal.mk.injEq, decide_eq_decide] at h
          have habs : i.natAbs = j.natAbs := by
            rw [← Literal.natOfDigits_digitsOf i.natAbs, h.2.1, Literal.natOfDigits_digitsOf]
          rw [show i = j by omega]
      | float y =>
          obtain ⟨negative, m, e, hy⟩ := Decimal.ofFloat_of_isFinite hk
          obtain ⟨l, hl, -, hi, -⟩ := Literal.read_documentText hy
          rw [show render (.float y) = Decimal.documentText y from rfl, hl] at h
          rw [← Option.some.inj h] at hi
          cases hi
  | float x =>
      obtain ⟨negative, m, e, hx⟩ := Decimal.ofFloat_of_isFinite hn
      obtain ⟨l, hl, hneg, hi, hmag⟩ := Literal.read_documentText hx
      rw [show render (.float x) = Decimal.documentText x from rfl, hl] at h
      cases k with
      | int j =>
          rw [show render (.int j) = Decimal.integerText j from rfl, Literal.read_integerText] at h
          rw [Option.some.inj h] at hi
          cases hi
      | float y =>
          obtain ⟨negative', m', e', hy⟩ := Decimal.ofFloat_of_isFinite hk
          obtain ⟨l', hl', hneg', -, hmag'⟩ := Literal.read_documentText hy
          rw [show render (.float y) = Decimal.documentText y from rfl, hl'] at h
          obtain rfl := Option.some.inj h
          obtain rfl := hneg.symm.trans hneg'
          obtain ⟨rfl, rfl⟩ := shown_injective (Decimal.regular_of_ofFloat hx)
            (Decimal.regular_of_ofFloat hy) (hmag.symm.trans hmag')
          rw [Decimal.ofFloat_injective hx hy]

end Parley.Number
