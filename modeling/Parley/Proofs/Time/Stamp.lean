import Mathlib.Data.List.Basic
import Parley.Proofs.Time.Calendar
import Parley.Time.Reading
import Parley.Time.Stamp

namespace Parley.Time

open Decimal (digitsOf zeros)

/-- The moments there are: those of the days in range, where the seconds that end a minute may
be leap seconds. -/
structure Instant.Valid (t : Instant) : Prop where
  day : Instant.inRange t.day = true
  second : t.second < secondsPerDay
  nano : t.nano < nanosPerSecond ∨ (t.nano < 2 * nanosPerSecond ∧ t.second % 60 = 59)

variable {ds rest : List Char}

theorem isDigit_padded (width n : Nat) : ∀ c ∈ padded width n, c.isDigit = true := by
  intro c h
  rcases List.mem_append.mp h with h | h
  · rw [zeros, List.mem_replicate] at h
    rw [h.2]
    rfl
  · exact Nat.isDigit_of_mem_toDigits (by decide) (by decide) h

theorem padded_length {width n : Nat} (hw : 0 < width) (h : n < 10 ^ width) :
    (padded width n).length = width := by
  have hl := (Nat.length_toDigits_le_iff (b := 10) (by decide) hw).mpr h
  rw [padded, List.length_append, zeros, List.length_replicate, digitsOf]
  omega

theorem natOf_eq (cs : List Char) : natOf cs = Nat.ofDigitChars 10 cs 0 := by
  rw [natOf, Nat.ofDigitChars_eq_foldl]
  simp only [digitValue, Nat.mul_comm]

theorem natOf_padded (width n : Nat) : natOf (padded width n) = n := by
  rw [natOf_eq, padded, zeros, Nat.ofDigitChars_append, Nat.ofDigitChars_replicate_zero,
    Nat.mul_zero, digitsOf, Nat.ofDigitChars_ten_toDigits]

theorem leadingDigits_append (h : ∀ c ∈ ds, c.isDigit = true) {most : Nat} (hl : ds.length ≤ most)
    (hr : ds.length = most ∨ ∀ c ∈ rest.head?, c.isDigit = false) :
    leadingDigits most (ds ++ rest) = ds := by
  induction ds generalizing most with
  | nil =>
      cases most with
      | zero => cases rest <;> rfl
      | succ most =>
          cases rest with
          | nil => rfl
          | cons c rest =>
              have hc := hr.resolve_left (by simp) c rfl
              rw [List.nil_append, leadingDigits, hc]
              rfl
  | cons d ds ih =>
      cases most with
      | zero => simp at hl
      | succ most =>
          rw [List.cons_append, leadingDigits, if_pos (h d (by simp)),
            ih (fun c hc => h c (List.mem_cons_of_mem d hc)) (by simpa using hl) (by simpa using hr)]

theorem number_append (least most : Nat) (h : ∀ c ∈ ds, c.isDigit = true)
    (hlow : least ≤ ds.length) (hhigh : ds.length ≤ most)
    (hr : ds.length = most ∨ ∀ c ∈ rest.head?, c.isDigit = false) :
    number least most (ds ++ rest) = some (natOf ds, rest) := by
  simp only [number, leadingDigits_append h hhigh hr, if_pos hlow, List.drop_left]

theorem isBlank_of_isDigit {c : Char} (h : c.isDigit = true) : Text.isBlank c = false := by
  have hc : 48 ≤ c.toNat ∧ c.toNat ≤ 57 := Char.isDigit_iff_toNat.mp h
  simp only [Text.isBlank, Bool.or_eq_false_iff, Bool.and_eq_false_iff, decide_eq_false_iff_not,
    beq_eq_false_iff_ne]
  omega

theorem skipBlanks_cons {c : Char} (h : Text.isBlank c = false) (rest : List Char) :
    Text.skipBlanks (c :: rest) = c :: rest := by
  rw [Text.skipBlanks, List.dropWhile_cons_of_neg (by simp [h])]

theorem skipBlanks_digits (h : ∀ c ∈ ds, c.isDigit = true) (hne : ds ≠ []) (rest : List Char) :
    Text.skipBlanks (ds ++ rest) = ds ++ rest := by
  cases ds with
  | nil => exact absurd rfl hne
  | cons d ds => exact skipBlanks_cons (isBlank_of_isDigit (h d (by simp))) (ds ++ rest)

theorem looseNumber_padded {n : Nat} (h : n < 100) (rest : List Char) :
    looseNumber (padded 2 n ++ rest) = some (n, rest) := by
  have hl : (padded 2 n).length = 2 := padded_length (by decide) h
  have hne : padded 2 n ≠ [] := by
    intro hnil
    rw [hnil] at hl
    cases hl
  rw [looseNumber, skipBlanks_digits (isDigit_padded 2 n) hne,
    number_append 1 2 (isDigit_padded 2 n) (by omega) (by omega) (.inl hl), natOf_padded]

theorem looseMark_cons {c : Char} (h : Text.isBlank c = false) (rest : List Char) :
    looseMark c (c :: rest) = some rest := by
  rw [looseMark, skipBlanks_cons h, exactly, if_pos rfl]

theorem padded_ne_nil (width n : Nat) : padded width n ≠ [] := by
  rw [padded, digitsOf]
  simp

theorem looseYear_digit {c : Char} (h : c.isDigit = true) (cs : List Char) :
    looseYear (c :: cs) = (number 1 4 (c :: cs)).map fun (n, cs) => ((n : Int), cs) := by
  rw [looseYear, skipBlanks_cons (isBlank_of_isDigit h)]
  split
  · rename_i hc
    cases hc
    cases h
  · rename_i hc
    cases hc
    cases h
  · rfl

theorem looseYear_yearText (year : Int) (rest : List Char) :
    looseYear (yearText year ++ '-' :: rest) = some (year, '-' :: rest) := by
  have hstop : ∀ c ∈ ('-' :: rest).head?, c.isDigit = false := by
    rintro c ⟨⟩
    rfl
  rw [yearText]
  split
  · rename_i hy
    have hl : (padded 4 year.toNat).length = 4 := padded_length (by decide) (by omega)
    have hnum : number 1 4 (padded 4 year.toNat ++ '-' :: rest) = _ :=
      number_append 1 4 (isDigit_padded 4 year.toNat) (by omega) (by omega) (.inl hl)
    obtain ⟨c, cs, hcs⟩ := List.exists_cons_of_ne_nil (padded_ne_nil 4 year.toNat)
    have hc : c.isDigit = true := isDigit_padded 4 year.toNat c (by simp [hcs])
    rw [natOf_padded] at hnum
    rw [hcs, List.cons_append] at hnum ⊢
    rw [looseYear_digit hc, hnum]
    simp only [Option.map_some, Int.toNat_of_nonneg hy.1]
  · have hpos := List.length_pos_iff.mpr (padded_ne_nil 4 year.natAbs)
    have hnum := number_append 1 (padded 4 year.natAbs ++ '-' :: rest).length
      (isDigit_padded 4 year.natAbs) hpos (by simp) (.inr hstop)
    rw [natOf_padded] at hnum
    by_cases hneg : year < 0
    · rw [if_pos hneg, List.cons_append, looseYear, skipBlanks_cons rfl]
      simp only [hnum, Option.map_some, Option.some.injEq, Prod.mk.injEq, and_true]
      omega
    · rw [if_neg hneg, List.cons_append, looseYear, skipBlanks_cons rfl]
      simp only [hnum, Option.map_some, Option.some.injEq, Prod.mk.injEq, and_true]
      omega

theorem fraction_padded {places n : Nat} (hp : 0 < places) (hmost : places ≤ 9)
    (h : n < 10 ^ places) (hstop : ∀ c ∈ rest.head?, c.isDigit = false) :
    fraction ('.' :: (padded places n ++ rest)) = some (n * Nat.pow 10 (9 - places), rest) := by
  have hl : (padded places n).length = places := padded_length hp h
  have hdig := isDigit_padded places n
  have hrest : rest.dropWhile Char.isDigit = rest := by
    cases rest with
    | nil => rfl
    | cons c rest => exact List.dropWhile_cons_of_neg (by simp [hstop c rfl])
  simp only [fraction, leadingDigits_append hdig (hl.trans_le hmost) (.inr hstop),
    if_neg (padded_ne_nil places n), natOf_padded, hl, List.dropWhile_append_of_pos hdig, hrest]

theorem fraction_fractionText {nano : Nat} (h : nano < nanosPerSecond)
    (hstop : ∀ c ∈ rest.head?, c.isDigit = false) (hpoint : ∀ c ∈ rest.head?, c ≠ '.') :
    fraction (fractionText nano ++ rest) = some (nano, rest) := by
  rw [nanosPerSecond] at h
  rw [fractionText]
  split
  · rename_i hz
    rw [hz, List.nil_append]
    fun_cases fraction rest with
    | case1 => exact absurd rfl (hpoint '.' rfl)
    | case2 => exact absurd rfl (hpoint '.' rfl)
    | case3 => rfl
  · split
    · rename_i hm
      rw [List.cons_append, fraction_padded (by decide) (by decide) (by omega) hstop]
      simp only [Nat.reduceSub, Option.some.injEq, Prod.mk.injEq, and_true]
      exact Nat.div_mul_cancel (Nat.dvd_of_mod_eq_zero hm)
    · split
      · rename_i hm
        rw [List.cons_append, fraction_padded (by decide) (by decide) (by omega) hstop]
        simp only [Nat.reduceSub, Option.some.injEq, Prod.mk.injEq, and_true]
        exact Nat.div_mul_cancel (Nat.dvd_of_mod_eq_zero hm)
      · rw [List.cons_append, fraction_padded (by decide) (by decide) (by omega) hstop]
        simp

theorem daysInMonth_le (year : Int) (month : Nat) : daysInMonth year month ≤ 31 := by
  have hall : ∀ length ∈ monthLengths year, length ≤ 31 := by
    rw [monthLengths]
    cases isLeap year <;> decide
  rw [daysInMonth, List.getD_eq_getElem?_getD]
  cases h : (monthLengths year)[month - 1]? with
  | none => simp
  | some length => exact hall length (List.mem_of_getElem? h)

theorem toInstant?_parts {t : Instant} (h : t.Valid) :
    Parts.toInstant? ⟨t.date, t.second / 3600, t.second / 60 % 60,
      t.second % 60 + t.nano / nanosPerSecond, t.nano % nanosPerSecond, 0⟩ = some t := by
  obtain ⟨hvalid, hdays⟩ := ofDays_spec t.day
  have hsecond := h.second
  have hnano := h.nano
  have hday : Instant.inRange t.date.toDays = true := by
    rw [Instant.date, hdays]
    exact h.day
  rw [secondsPerDay] at hsecond
  rw [nanosPerSecond] at hnano ⊢
  have hchecks : (t.date.valid && decide (t.second / 3600 < 24) &&
      decide (t.second / 60 % 60 < 60) &&
      decide (t.second % 60 + t.nano / 1000000000 ≤ 60) &&
      decide ((0 : Int).natAbs < secondsPerDay)) = true := by
    rw [Instant.date, hvalid]
    simp only [Bool.true_and, Bool.and_eq_true, decide_eq_true_eq]
    exact ⟨by omega, by decide⟩
  have hlocal (second nano : Nat) (hs : second = t.second) (hn : nano = t.nano) :
      Instant.ofLocal? t.date second nano 0 = some t := by
    subst hs
    have hzero : ((t.second : Int) - 0) / (86400 : Nat) = 0 := by omega
    have hmod : (((t.second : Int) - 0) % (86400 : Nat)).toNat = t.second := by omega
    simp only [Instant.ofLocal?, secondsPerDay, hzero, hmod, Int.add_zero, hday, Bool.and_self,
      if_true, hn]
    rw [Instant.date, hdays]
  simp only [Parts.toInstant?]
  rw [if_pos hchecks]
  by_cases hleap : t.second % 60 + t.nano / 1000000000 = 60
  · apply hlocal
    · rw [if_pos hleap]
      omega
    · rw [if_pos hleap, nanosPerSecond]
      omega
  · apply hlocal
    · rw [if_neg hleap]
      omega
    · rw [if_neg hleap]
      omega

theorem render_eq (zone : List Char) (t : Instant) : t.render zone =
    yearText t.date.year ++ '-' :: (padded 2 t.date.month ++ '-' ::
      (padded 2 t.date.day ++ 'T' :: (padded 2 (t.second / 3600) ++ ':' ::
        (padded 2 (t.second / 60 % 60) ++ ':' ::
          (padded 2 (t.second % 60 + t.nano / nanosPerSecond) ++
            (fractionText (t.nano % nanosPerSecond) ++ zone)))))) := by
  simp [Instant.render]

theorem Instant.Valid.parts_lt {t : Instant} (h : t.Valid) :
    (t.date.month < 100 ∧ t.date.day < 100) ∧ (t.second / 3600 < 100 ∧ t.second / 60 % 60 < 100) ∧
      t.second % 60 + t.nano / nanosPerSecond < 100 := by
  have hsecond := h.second
  have hnano := h.nano
  rw [secondsPerDay] at hsecond
  rw [nanosPerSecond] at hnano ⊢
  refine ⟨?_, by omega, by omega⟩
  have hvalid := (ofDays_spec t.day).1
  have hle := daysInMonth_le (Date.ofDays t.day).year (Date.ofDays t.day).month
  simp only [Date.valid, Bool.and_eq_true, decide_eq_true_eq] at hvalid
  rw [Instant.date]
  omega

theorem readLoose_stamp {t : Instant} (h : t.Valid) : readLoose t.stamp = some t := by
  obtain ⟨hdate, hclock, hsec⟩ := h.parts_lt
  have hdash (rest : List Char) : looseMark '-' ('-' :: rest) = some rest := looseMark_cons rfl rest
  have hcolon (rest : List Char) : looseMark ':' (':' :: rest) = some rest :=
    looseMark_cons rfl rest
  have hnanos : fraction (fractionText (t.nano % nanosPerSecond) ++ ['Z']) = _ :=
    fraction_fractionText (Nat.mod_lt t.nano (show 0 < nanosPerSecond by decide))
      (by rintro c ⟨⟩; rfl) (by rintro c ⟨⟩; decide)
  have hyear := looseYear_yearText t.date.year
  rw [readLoose, Instant.stamp, String.toList_ofList, render_eq]
  refine Option.bind_eq_some_iff.mpr ⟨_, hyear _, ?_⟩
  refine Option.bind_eq_some_iff.mpr ⟨_, hdash _, ?_⟩
  refine Option.bind_eq_some_iff.mpr ⟨_, looseNumber_padded hdate.1 _, ?_⟩
  refine Option.bind_eq_some_iff.mpr ⟨_, hdash _, ?_⟩
  refine Option.bind_eq_some_iff.mpr ⟨_, looseNumber_padded hdate.2 _, ?_⟩
  refine Option.bind_eq_some_iff.mpr ⟨_, rfl, ?_⟩
  refine Option.bind_eq_some_iff.mpr ⟨_, looseNumber_padded hclock.1 _, ?_⟩
  refine Option.bind_eq_some_iff.mpr ⟨_, hcolon _, ?_⟩
  refine Option.bind_eq_some_iff.mpr ⟨_, looseNumber_padded hclock.2 _, ?_⟩
  refine Option.bind_eq_some_iff.mpr ⟨_, hcolon _, ?_⟩
  refine Option.bind_eq_some_iff.mpr ⟨_, looseNumber_padded hsec _, ?_⟩
  refine Option.bind_eq_some_iff.mpr ⟨_, hnanos, ?_⟩
  refine Option.bind_eq_some_iff.mpr ⟨_, rfl, ?_⟩
  exact toInstant?_parts h

theorem number_padded {width n : Nat} (hw : 0 < width) (h : n < 10 ^ width) (rest : List Char) :
    number width width (padded width n ++ rest) = some (n, rest) := by
  have hl : (padded width n).length = width := padded_length hw h
  rw [number_append width width (isDigit_padded width n) hl.ge hl.le (.inl hl), natOf_padded]

theorem readStrict_offsetStamp {t : Instant} (h : t.Valid)
    (hyear : 0 ≤ t.date.year ∧ t.date.year ≤ 9999) : readStrict t.offsetStamp = some t := by
  obtain ⟨hdate, hclock, hsec⟩ := h.parts_lt
  have htwo {n : Nat} (hn : n < 100) (rest : List Char) :
      number 2 2 (padded 2 n ++ rest) = some (n, rest) := number_padded (by decide) hn rest
  have hfour (rest : List Char) : number 4 4 (yearText t.date.year ++ rest) =
      some (t.date.year.toNat, rest) := by
    rw [yearText, if_pos hyear]
    exact number_padded (by decide) (by omega) rest
  have hexactly (c : Char) (rest : List Char) : exactly c (c :: rest) = some rest := if_pos rfl
  have hnanos : fraction (fractionText (t.nano % nanosPerSecond) ++ "+00:00".toList) = _ :=
    fraction_fractionText (Nat.mod_lt t.nano (show 0 < nanosPerSecond by decide))
      (by rintro c ⟨⟩; rfl) (by rintro c ⟨⟩; decide)
  rw [readStrict, Instant.offsetStamp, String.toList_ofList, render_eq]
  refine Option.bind_eq_some_iff.mpr ⟨_, hfour _, ?_⟩
  refine Option.bind_eq_some_iff.mpr ⟨_, hexactly '-' _, ?_⟩
  refine Option.bind_eq_some_iff.mpr ⟨_, htwo hdate.1 _, ?_⟩
  refine Option.bind_eq_some_iff.mpr ⟨_, hexactly '-' _, ?_⟩
  refine Option.bind_eq_some_iff.mpr ⟨_, htwo hdate.2 _, ?_⟩
  refine Option.bind_eq_some_iff.mpr ⟨_, rfl, ?_⟩
  refine Option.bind_eq_some_iff.mpr ⟨_, htwo hclock.1 _, ?_⟩
  refine Option.bind_eq_some_iff.mpr ⟨_, hexactly ':' _, ?_⟩
  refine Option.bind_eq_some_iff.mpr ⟨_, htwo hclock.2 _, ?_⟩
  refine Option.bind_eq_some_iff.mpr ⟨_, hexactly ':' _, ?_⟩
  refine Option.bind_eq_some_iff.mpr ⟨_, htwo hsec _, ?_⟩
  refine Option.bind_eq_some_iff.mpr ⟨_, hnanos, ?_⟩
  refine Option.bind_eq_some_iff.mpr ⟨(0, []), rfl, ?_⟩
  rw [Int.toNat_of_nonneg hyear.1]
  exact toInstant?_parts h

theorem stamp_injective {t u : Instant} (ht : t.Valid) (hu : u.Valid) (h : t.stamp = u.stamp) :
    t = u := by
  rw [← Option.some.injEq, ← readLoose_stamp ht, ← readLoose_stamp hu, h]

theorem natOf_lt (h : ∀ c ∈ ds, c.isDigit = true) : natOf ds < 10 ^ ds.length := by
  have hgo (n : Nat) : ds.foldl (fun n c => n * 10 + digitValue c) n < (n + 1) * 10 ^ ds.length := by
    induction ds generalizing n with
    | nil => simp
    | cons d ds ih =>
        rw [List.forall_mem_cons] at h
        have hd : 48 ≤ d.toNat ∧ d.toNat ≤ 57 := Char.isDigit_iff_toNat.mp h.1
        have hv : digitValue d ≤ 9 := by
          change d.toNat - 48 ≤ 9
          omega
        calc ds.foldl (fun n c => n * 10 + digitValue c) (n * 10 + digitValue d)
            < (n * 10 + digitValue d + 1) * 10 ^ ds.length := ih h.2 _
          _ ≤ (n + 1) * 10 * 10 ^ ds.length := Nat.mul_le_mul_right _ (by omega)
          _ = (n + 1) * 10 ^ (ds.length + 1) := by rw [pow_succ, Nat.mul_assoc, Nat.mul_comm 10]
  exact (hgo 0).trans_eq (by rw [Nat.zero_add, Nat.one_mul])

theorem leadingDigits_spec (most : Nat) (cs : List Char) :
    (∀ c ∈ leadingDigits most cs, c.isDigit = true) ∧ (leadingDigits most cs).length ≤ most := by
  fun_induction leadingDigits most cs with
  | case1 most c rest hc ih => exact ⟨List.forall_mem_cons.mpr ⟨hc, ih.1⟩, Nat.succ_le_succ ih.2⟩
  | case2 => exact ⟨List.forall_mem_nil _, Nat.zero_le _⟩
  | case3 => exact ⟨List.forall_mem_nil _, Nat.zero_le _⟩

theorem fraction_lt {cs : List Char} {n : Nat} (h : fraction cs = some (n, rest)) :
    n < nanosPerSecond := by
  revert h
  fun_cases fraction cs with
  | case1 => nofun
  | case2 tail digits =>
      rintro ⟨⟩
      obtain ⟨hdigits, hlen⟩ := leadingDigits_spec 9 tail
      calc natOf digits * 10 ^ (9 - digits.length)
          < 10 ^ digits.length * 10 ^ (9 - digits.length) :=
            Nat.mul_lt_mul_of_pos_right (natOf_lt hdigits) (Nat.pow_pos (by decide))
        _ = 10 ^ 9 := by rw [← pow_add, Nat.add_sub_cancel' hlen]
  | case3 =>
      rintro ⟨⟩
      decide

theorem zone_mod {between : List Char → Option (List Char)} {cs : List Char} {offset : Int}
    (h : zone between cs = some (offset, rest)) : offset % 60 = 0 := by
  revert h
  fun_cases zone between cs with
  | case1 => nofun
  | case2 =>
      rintro ⟨⟩
      rfl
  | case3 => nofun
  | case4 => nofun
  | case5 =>
      rintro ⟨⟩
      split <;> omega
  | case6 => nofun
  | case7 => nofun

theorem looseZone_mod {cs : List Char} {offset : Int}
    (h : looseZone cs = some (offset, rest)) : offset % 60 = 0 := by
  simp only [looseZone] at h
  split at h
  · obtain ⟨rfl, -⟩ := Prod.mk.inj (Option.some.inj h)
    rfl
  · exact zone_mod h

theorem valid_ofLocal? {date : Date} {second nano : Nat} {offset : Int} {t : Instant}
    (h : Instant.ofLocal? date second nano offset = some t) (ho : offset % 60 = 0)
    (hn : nano < nanosPerSecond ∨ (nano < 2 * nanosPerSecond ∧ second % 60 = 59)) : t.Valid := by
  simp only [Instant.ofLocal?] at h
  split at h
  · rename_i hrange
    obtain rfl := Option.some.inj h
    rw [Bool.and_eq_true] at hrange
    refine ⟨hrange.2, ?_, hn.imp_right fun hleap => ⟨hleap.1, ?_⟩⟩
    · simp only [secondsPerDay]
      omega
    · simp only [secondsPerDay]
      omega
  · cases h

theorem valid_toInstant? {p : Parts} {t : Instant} (h : p.toInstant? = some t)
    (hn : p.nano < nanosPerSecond) (ho : p.offset % 60 = 0) : t.Valid := by
  simp only [Parts.toInstant?] at h
  rw [nanosPerSecond] at hn
  by_cases hleap : p.second = 60
  · simp only [hleap, if_true] at h
    split at h
    · refine valid_ofLocal? h ho (.inr ⟨?_, by omega⟩)
      rw [nanosPerSecond]
      omega
    · cases h
  · simp only [hleap, if_false] at h
    split at h
    · exact valid_ofLocal? h ho (.inl hn)
    · cases h

theorem valid_readLoose {text : String} {t : Instant} (h : readLoose text = some t) : t.Valid := by
  obtain ⟨⟨year, cs⟩, -, h⟩ := Option.bind_eq_some_iff.mp h
  obtain ⟨cs, -, h⟩ := Option.bind_eq_some_iff.mp h
  obtain ⟨⟨month, cs⟩, -, h⟩ := Option.bind_eq_some_iff.mp h
  obtain ⟨cs, -, h⟩ := Option.bind_eq_some_iff.mp h
  obtain ⟨⟨day, cs⟩, -, h⟩ := Option.bind_eq_some_iff.mp h
  obtain ⟨cs, -, h⟩ := Option.bind_eq_some_iff.mp h
  obtain ⟨⟨hour, cs⟩, -, h⟩ := Option.bind_eq_some_iff.mp h
  obtain ⟨cs, -, h⟩ := Option.bind_eq_some_iff.mp h
  obtain ⟨⟨minute, cs⟩, -, h⟩ := Option.bind_eq_some_iff.mp h
  obtain ⟨cs, -, h⟩ := Option.bind_eq_some_iff.mp h
  obtain ⟨⟨second, cs⟩, -, h⟩ := Option.bind_eq_some_iff.mp h
  obtain ⟨⟨nano, cs⟩, hnano, h⟩ := Option.bind_eq_some_iff.mp h
  obtain ⟨⟨offset, cs⟩, hzone, h⟩ := Option.bind_eq_some_iff.mp h
  simp only at h
  split at h
  · exact valid_toInstant? h (fraction_lt hnano) (looseZone_mod hzone)
  · cases h

theorem valid_readStrict {text : String} {t : Instant} (h : readStrict text = some t) :
    t.Valid := by
  obtain ⟨⟨year, cs⟩, -, h⟩ := Option.bind_eq_some_iff.mp h
  obtain ⟨cs, -, h⟩ := Option.bind_eq_some_iff.mp h
  obtain ⟨⟨month, cs⟩, -, h⟩ := Option.bind_eq_some_iff.mp h
  obtain ⟨cs, -, h⟩ := Option.bind_eq_some_iff.mp h
  obtain ⟨⟨day, cs⟩, -, h⟩ := Option.bind_eq_some_iff.mp h
  obtain ⟨cs, -, h⟩ := Option.bind_eq_some_iff.mp h
  obtain ⟨⟨hour, cs⟩, -, h⟩ := Option.bind_eq_some_iff.mp h
  obtain ⟨cs, -, h⟩ := Option.bind_eq_some_iff.mp h
  obtain ⟨⟨minute, cs⟩, -, h⟩ := Option.bind_eq_some_iff.mp h
  obtain ⟨cs, -, h⟩ := Option.bind_eq_some_iff.mp h
  obtain ⟨⟨second, cs⟩, -, h⟩ := Option.bind_eq_some_iff.mp h
  obtain ⟨⟨nano, cs⟩, hnano, h⟩ := Option.bind_eq_some_iff.mp h
  obtain ⟨⟨offset, cs⟩, hzone, h⟩ := Option.bind_eq_some_iff.mp h
  simp only at h
  split at h
  · exact valid_toInstant? h (fraction_lt hnano) (zone_mod hzone)
  · cases h

end Parley.Time
