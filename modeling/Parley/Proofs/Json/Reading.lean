import Parley.Json.Doc
import Parley.Proofs.Decimal.Finite
import Parley.Proofs.Json.Sorted

namespace Parley.Number

open Decimal

theorem isFinite_scale {x y : Float} {e : Int} (hx : x.isFinite = true)
    (h : scale x e = some y) : y.isFinite = true := by
  fun_induction scale x e with
  | case1 => cases h
  | case2 x e h0 h308 z hinf =>
      obtain rfl := Option.some.inj h
      exact isFinite_mul hx (isFinite_tenTo (by omega)) (by simpa using hinf)
  | case3 => exact Option.some.inj h ▸ hx
  | case4 => cases h
  | case5 x e h0 h308 =>
      obtain rfl := Option.some.inj h
      exact isFinite_div hx (atLeastTwo_tenTo _ (by omega) (by omega))
  | case6 => exact Option.some.inj h ▸ hx
  | case7 x e h0 h308 hz ih =>
      have hten := atLeastTwo_tenTo _ (Nat.lt_succ_self 308) (Nat.succ_pos 307)
      exact ih (isFinite_div hx hten) h

theorem absorb_lt (s : Nat) (hs : s < significandLimit) (ds : List Nat) :
    (absorb s ds).1 < significandLimit := by
  induction ds generalizing s with
  | nil => exact hs
  | cons d ds ih =>
      rw [absorb]
      split
      · exact ih _ (by assumption)
      · exact hs

namespace Literal

theorem isFinite_sign (l : Literal) {x : Float} (hx : x.isFinite = true) :
    (l.sign x).isFinite = true := by
  rw [sign]
  split
  · exact isFinite_neg hx
  · exact hx

theorem significand_lt (l : Literal) : l.significand.1 < 2 ^ 64 :=
  absorb_lt _ (absorb_lt 0 (by decide) _) _

theorem isFinite_toFloat? {l : Literal} {x : Float} (h : l.toFloat? = some x) :
    x.isFinite = true := by
  have hscale {e : Int} (h : (scale (Float.ofNat l.significand.1) e).map l.sign = some x) :
      x.isFinite = true := by
    obtain ⟨y, hy, rfl⟩ := Option.map_eq_some_iff.mp h
    exact l.isFinite_sign (isFinite_scale (isFinite_ofNat l.significand_lt) hy)
  simp only [toFloat?] at h
  split at h
  · exact hscale h
  · split at h
    · split at h
      · cases h
      · obtain rfl := Option.some.inj h
        exact l.isFinite_sign (isFinite_ofNat (n := 0) (by decide))
    · exact hscale h

theorem representable_value? {l : Literal} {n : Number} (h : l.value? = some n) :
    n.Representable := by
  have hfloat (h : l.toFloat?.map Number.float = some n) : n.Representable := by
    obtain ⟨x, hx, rfl⟩ := Option.map_eq_some_iff.mp h
    exact isFinite_toFloat? hx
  have hlt := absorb_lt 0 (by decide) l.whole
  rw [value?] at h
  split at h
  · rename_i k _ habsorb
    rw [habsorb] at hlt
    have hk : k < 2 ^ 64 := hlt
    split at h
    · split at h
      · obtain rfl := Option.some.inj h
        exact l.isFinite_sign (isFinite_ofNat hk)
      · obtain rfl := Option.some.inj h
        rw [Representable]
        omega
    · obtain rfl := Option.some.inj h
      rw [Representable]
      omega
  · exact hfloat h

end Literal

end Parley.Number

namespace Parley

namespace Json

theorem properMembers_insertNew {key : String} {v : Json} (hv : v.Proper) {fields : Fields}
    (h : ProperMembers fields) : ProperMembers (fields.insertNew key v) := by
  rw [properMembers_iff] at h ⊢
  refine ⟨ascending_insertNew h.1, ?_⟩
  intro m hm
  rcases mem_insertNew hm with rfl | hm
  · exact hv
  · exact h.2 m hm

end Json

namespace Doc

/-- The numbers of a document are representable. -/
inductive Sound : Doc → Prop
  | null : Sound .null
  | bool (b : Bool) : Sound (.bool b)
  | num {n : Option Number} (h : ∀ k ∈ n, k.Representable) : Sound (.num n)
  | str (s : Option String) : Sound (.str s)
  | arr {items : List Doc} (h : ∀ d ∈ items, Sound d) : Sound (.arr items)
  | obj {members : List (Option String × Doc)} (h : ∀ m ∈ members, Sound m.2) :
    Sound (.obj members)

def Frame.Sound : Frame → Prop
  | .items done => ∀ d ∈ done, d.Sound
  | .members done | .member _ done => ∀ m ∈ done, m.2.Sound

def Focus.Sound : Focus → Prop
  | .after d => d.Sound
  | _ => True

structure Cursor.Sound (c : Cursor) : Prop where
  focus : c.focus.Sound
  frames : ∀ f ∈ c.frames, f.Sound

theorem sound_ofScalar {t : Json.Token} {d : Doc} (h : ofScalar t = some d) : d.Sound := by
  cases t <;> cases h <;> constructor
  intro n hn
  exact Number.Literal.representable_value? hn

theorem sound_opened {frames : List Frame} (hf : ∀ f ∈ frames, f.Sound) {t : Json.Token}
    {c : Cursor} (h : opened frames t = some c) : c.Sound := by
  have hopen (frame : Frame) (hframe : frame.Sound) (focus : Focus) (hfocus : focus.Sound) :
      Cursor.Sound ⟨focus, frame :: frames⟩ := ⟨hfocus, List.forall_mem_cons.mpr ⟨hframe, hf⟩⟩
  revert h
  fun_cases opened frames t with
  | case1 =>
      rintro ⟨⟩
      exact hopen (.items []) (List.forall_mem_nil _) _ trivial
  | case2 =>
      rintro ⟨⟩
      exact hopen (.members []) (List.forall_mem_nil _) _ trivial
  | case3 =>
      intro h
      obtain ⟨d, hd, rfl⟩ := Option.map_eq_some_iff.mp h
      exact ⟨sound_ofScalar hd, hf⟩

theorem sound_next {c c' : Cursor} (hc : c.Sound) {t : Json.Token} (h : next c t = some c') :
    c'.Sound := by
  obtain ⟨hfocus, hframes⟩ := hc
  revert h
  fun_cases next c t with
  | case1 frames hs =>
      rintro ⟨⟩
      rw [hs, List.forall_mem_cons] at hframes
      exact ⟨.arr (List.forall_mem_nil _), hframes.2⟩
  | case2 frames hs =>
      rintro ⟨⟩
      rw [hs, List.forall_mem_cons] at hframes
      exact ⟨.obj (List.forall_mem_nil _), hframes.2⟩
  | case3 => exact sound_opened hframes
  | case4 => exact sound_opened hframes
  | case5 | case6 =>
      rintro ⟨⟩
      exact ⟨trivial, hframes⟩
  | case7 key done frames hs =>
      rintro ⟨⟩
      rw [hs, List.forall_mem_cons] at hframes
      exact ⟨trivial, List.forall_mem_cons.mpr hframes⟩
  | case8 d done frames hs hd =>
      rintro ⟨⟩
      rw [hs, List.forall_mem_cons] at hframes
      rw [hd] at hfocus
      have hdone : ∀ e ∈ d :: done, e.Sound := List.forall_mem_cons.mpr ⟨hfocus, hframes.1⟩
      exact ⟨trivial, List.forall_mem_cons.mpr ⟨hdone, hframes.2⟩⟩
  | case9 d done frames hs hd =>
      rintro ⟨⟩
      rw [hs, List.forall_mem_cons] at hframes
      rw [hd] at hfocus
      have hdone : ∀ e ∈ d :: done, e.Sound := List.forall_mem_cons.mpr ⟨hfocus, hframes.1⟩
      exact ⟨.arr fun e he => hdone e (List.mem_reverse.mp he), hframes.2⟩
  | case10 d key done frames hs hd =>
      rintro ⟨⟩
      rw [hs, List.forall_mem_cons] at hframes
      rw [hd] at hfocus
      have hdone : ∀ m ∈ (key, d) :: done, m.2.Sound := List.forall_mem_cons.mpr ⟨hfocus, hframes.1⟩
      exact ⟨trivial, List.forall_mem_cons.mpr ⟨hdone, hframes.2⟩⟩
  | case11 d key done frames hs hd =>
      rintro ⟨⟩
      rw [hs, List.forall_mem_cons] at hframes
      rw [hd] at hfocus
      have hdone : ∀ m ∈ (key, d) :: done, m.2.Sound := List.forall_mem_cons.mpr ⟨hfocus, hframes.1⟩
      exact ⟨.obj fun m hm => hdone m (List.mem_reverse.mp hm), hframes.2⟩
  | case12 => nofun

theorem sound_foldlM {tokens : List Json.Token} {c c' : Cursor} (hc : c.Sound)
    (h : tokens.foldlM next c = some c') : c'.Sound := by
  induction tokens generalizing c with
  | nil =>
      obtain rfl := Option.some.inj h
      exact hc
  | cons t tokens ih =>
      obtain ⟨c₁, hnext, hrest⟩ := Option.bind_eq_some_iff.mp h
      exact ih (sound_next hc hnext) hrest

theorem sound_parse {text : String} {d : Doc} (h : parse text = some d) : d.Sound := by
  obtain ⟨tokens, -, htokens⟩ := Option.bind_eq_some_iff.mp h
  obtain ⟨c, hc, hd⟩ := Option.bind_eq_some_iff.mp htokens
  have hsound := sound_foldlM (c := ⟨.value, []⟩) ⟨trivial, List.forall_mem_nil _⟩ hc
  obtain ⟨focus, frames⟩ := c
  cases focus <;> cases frames <;> cases hd
  exact hsound.focus

mutual

theorem proper_toJson? : (d : Doc) → d.Sound → (depth : Nat) → (v : Json) →
    toJson? depth d = some v → v.Proper
  | .null, _, depth, v, h => by
      rw [toJson?] at h
      obtain rfl := Option.some.inj h
      trivial
  | .bool b, _, depth, v, h => by
      rw [toJson?] at h
      obtain rfl := Option.some.inj h
      trivial
  | .num n, hd, depth, v, h => by
      rw [toJson?] at h
      obtain ⟨k, hk, rfl⟩ := Option.map_eq_some_iff.mp h
      cases hd with
      | num hn => exact hn k hk
  | .str s, _, depth, v, h => by
      rw [toJson?] at h
      obtain ⟨k, hk, rfl⟩ := Option.map_eq_some_iff.mp h
      trivial
  | .arr items, hd, 0, v, h => by
      rw [toJson?] at h
      cases h
  | .arr items, hd, depth + 1, v, h => by
      rw [toJson?] at h
      obtain ⟨vs, hvs, rfl⟩ := Option.map_eq_some_iff.mp h
      cases hd with
      | arr hitems => exact proper_itemsToJson? items hitems depth vs hvs
  | .obj members, hd, 0, v, h => by
      rw [toJson?] at h
      cases h
  | .obj members, hd, depth + 1, v, h => by
      rw [toJson?] at h
      obtain ⟨fields, hfields, rfl⟩ := Option.map_eq_some_iff.mp h
      cases hd with
      | obj hmembers => exact proper_membersToJson? members hmembers depth fields hfields

theorem proper_itemsToJson? : (items : List Doc) → (∀ d ∈ items, d.Sound) → (depth : Nat) →
    (vs : List Json) → itemsToJson? depth items = some vs → Json.ProperItems vs
  | [], _, depth, vs, h => by
      rw [itemsToJson?] at h
      obtain rfl := Option.some.inj h
      trivial
  | d :: rest, hd, depth, vs, h => by
      rw [itemsToJson?] at h
      split at h
      · rename_i v vs' hv hvs'
        obtain rfl := Option.some.inj h
        rw [List.forall_mem_cons] at hd
        exact ⟨proper_toJson? d hd.1 depth v hv, proper_itemsToJson? rest hd.2 depth vs' hvs'⟩
      · cases h

theorem proper_membersToJson? : (members : List (Option String × Doc)) →
    (∀ m ∈ members, m.2.Sound) → (depth : Nat) → (fields : Fields) →
    membersToJson? depth members = some fields → Json.ProperMembers fields
  | [], _, depth, fields, h => by
      rw [membersToJson?] at h
      obtain rfl := Option.some.inj h
      trivial
  | (none, d) :: rest, _, depth, fields, h => by
      simp only [membersToJson?] at h
      cases h
  | (some key, d) :: rest, hd, depth, fields, h => by
      simp only [membersToJson?] at h
      split at h
      · rename_i k v fields' hk hv hfields'
        obtain rfl := Option.some.inj h
        rw [List.forall_mem_cons] at hd
        exact Json.properMembers_insertNew (proper_toJson? d hd.1 depth v hv)
          (proper_membersToJson? rest hd.2 depth fields' hfields')
      · cases h

end

end Doc

end Parley
