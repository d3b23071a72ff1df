import Mathlib.Data.List.Basic
import Parley.Bus.Desk

namespace Parley

theorem Outcome.ofVerdict_inj {u v : Bool} (h : Outcome.ofVerdict u = .ofVerdict v) : u = v := by
  cases u <;> cases v <;> first | rfl | cases h

namespace Desk

def messageOf? (d : Desk) (ticket : Nat) : Option String := (d.waits.find? ticket).map Wait.message

theorem messageOf?_of_find? {d : Desk} {t : Nat} {w : Wait} (hw : d.waits.find? t = some w) :
    d.messageOf? t = some w.message := by
  rw [messageOf?, hw, Option.map_some]

/-- Tickets are given out once, and a ticket that stands to be told about a message waits for
that message. -/
structure Listed (d : Desk) : Prop where
  unissued : ∀ t, d.issued ≤ t → d.messageOf? t = none
  listed : ∀ id t, t ∈ d.ticketsOf id → d.messageOf? t = some id

/-- What a wait was sent, and what it leaves with, are outcomes that `P` allows for its
message. -/
def Vouched (P : String → Outcome → Prop) (w : Wait) : Prop :=
  ∀ o, w.sent = some o ∨ w.phase = .leaving (.ok o) ∨ w.phase = .returned (.ok o) → P w.message o

def Backed (P : String → Outcome → Prop) (d : Desk) : Prop :=
  ∀ t w, d.waits.find? t = some w → Vouched P w

/-- Nothing is given out, no message of a wait changes, and no ticket is listed anew. -/
structure Follows (d d' : Desk) : Prop where
  issued : d'.issued = d.issued
  messageOf? : ∀ t, d'.messageOf? t = d.messageOf? t
  tickets : ∀ id t, t ∈ d'.ticketsOf id → t ∈ d.ticketsOf id

variable {P : String → Outcome → Prop} {d d' d'' : Desk}

theorem Follows.refl (d : Desk) : Follows d d := ⟨rfl, fun _ => rfl, fun _ _ h => h⟩

theorem Follows.trans (h : Follows d d') (h' : Follows d' d'') : Follows d d'' :=
  ⟨h'.issued.trans h.issued, fun t => (h'.messageOf? t).trans (h.messageOf? t),
    fun id t ht => h.tickets id t (h'.tickets id t ht)⟩

theorem Follows.listed (h : Follows d d') (hl : Listed d) : Listed d' := by
  refine ⟨?_, ?_⟩
  · intro t ht
    rw [h.messageOf? t]
    exact hl.unissued t (h.issued ▸ ht)
  · intro id t ht
    rw [h.messageOf? t]
    exact hl.listed id t (h.tickets id t ht)

theorem Backed.mono {Q : String → Outcome → Prop} (hPQ : ∀ id o, P id o → Q id o)
    (h : Backed P d) : Backed Q d :=
  fun t w hw o ho => hPQ _ _ (h t w hw o ho)

theorem empty_listed : Listed empty := ⟨fun _ _ => rfl, fun _ _ h => by cases h⟩

theorem empty_backed : Backed P empty := fun _ _ h => by cases h

theorem change_follows (d : Desk) (t : Nat) {f : Wait → Wait}
    (hf : ∀ w, (f w).message = w.message) : Follows d (d.change t f) := by
  cases hw : d.waits.find? t with
  | none => simpa [change, hw] using Follows.refl d
  | some w =>
      simp only [change, hw]
      refine ⟨rfl, ?_, fun _ _ h => h⟩
      intro s
      by_cases hs : s = t
      · subst hs; simp [Desk.messageOf?, put, Table.find?_set, hw, hf]
      · simp [Desk.messageOf?, put, Table.find?_set, hs]

theorem change_backed (h : Backed P d) (t : Nat) {f : Wait → Wait}
    (hf : ∀ w, d.waits.find? t = some w → Vouched P w → Vouched P (f w)) :
    Backed P (d.change t f) := by
  cases hw : d.waits.find? t with
  | none => simpa [change, hw] using h
  | some w =>
      simp only [change, hw]
      intro s v hv
      rw [put, Table.find?_set] at hv
      by_cases hs : s = t
      · rw [if_pos hs, Option.some.injEq] at hv
        exact hv ▸ hf w hw (h t w hw)
      · rw [if_neg hs] at hv
        exact h s v hv

theorem leave_vouched {w : Wait} (h : Vouched P w) {answer : Except Error Outcome}
    (ha : ∀ o, answer = .ok o → P w.message o) : Vouched P (Wait.leave answer w) := by
  rintro o (ho | ho | ho)
  · exact h o (.inl ho)
  · exact ha o (by simpa [Wait.leave] using ho)
  · simp [Wait.leave] at ho

theorem register_listed (h : Listed d) (id : String) : Listed (d.register id).2 := by
  refine ⟨?_, ?_⟩
  · intro t ht
    simp only [register] at ht
    have hne : t ≠ d.issued := by omega
    have hold := h.unissued t (by omega)
    simpa [messageOf?, register, Table.find?_set, hne] using hold
  · intro i t ht
    by_cases hi : i = id
    · subst hi
      have hmem : t ∈ d.ticketsOf i ∨ t = d.issued := by
        simpa [ticketsOf, register, Table.find?_set] using ht
      by_cases htd : t = d.issued
      · simp [messageOf?, register, Table.find?_set, htd]
      · simpa [messageOf?, register, Table.find?_set, htd] using
          h.listed i t (hmem.resolve_right htd)
    · have hmem : t ∈ d.ticketsOf i := by
        simpa [ticketsOf, register, Table.find?_set, hi] using ht
      have hold := h.listed i t hmem
      have hne : t ≠ d.issued := by
        rintro rfl
        rw [h.unissued _ (Nat.le_refl _)] at hold
        cases hold
      simpa [messageOf?, register, Table.find?_set, hne] using hold

theorem register_messageOf? (d : Desk) (id : String) (t : Nat) :
    (d.register id).2.messageOf? t = if t = d.issued then some id else d.messageOf? t := by
  by_cases h : t = d.issued <;> simp [messageOf?, register, Table.find?_set, h]

theorem register_backed (h : Backed P d) (id : String) : Backed P (d.register id).2 := by
  intro t w hw
  simp only [register, Table.find?_set] at hw
  by_cases ht : t = d.issued
  · rw [if_pos ht, Option.some.injEq] at hw
    subst hw
    rintro o (ho | ho | ho) <;> cases ho
  · rw [if_neg ht] at hw
    exact h t w hw

theorem lookedUp_follows (d : Desk) (ticket deadline : Nat) (found : Except Error (Option Message)) :
    Follows d (d.lookedUp ticket deadline found) := by
  apply change_follows
  intro w
  rcases found with e | _ | m
  · rfl
  · rfl
  · cases hm : Outcome.ofMessage? m with
    | some o => simp only [hm]; rfl
    | none => simp only [hm]

theorem lookedUp_backed (h : Backed P d) (ticket deadline : Nat)
    (found : Except Error (Option Message))
    (hP : ∀ w m o, d.waits.find? ticket = some w → found = .ok (some m) →
      Outcome.ofMessage? m = some o → P w.message o) :
    Backed P (d.lookedUp ticket deadline found) := by
  apply change_backed h
  intro w hw hb
  rcases found with e | _ | m
  · rintro o (ho | ho | ho)
    · exact hb o (.inl ho)
    · cases ho
    · cases ho
  · rintro o (ho | ho | ho)
    · exact hb o (.inl ho)
    · cases ho
    · cases ho
  · cases hm : Outcome.ofMessage? m with
    | some o =>
        simp only [hm]
        apply leave_vouched hb
        rintro o' ⟨⟩
        exact hP w m o hw rfl hm
    | none =>
        simp only [hm]
        rintro o (ho | ho | ho)
        · exact hb o (.inl ho)
        · cases ho
        · cases ho

theorem collect_follows (d : Desk) (ticket : Nat) : Follows d (d.collect ticket) := by
  apply change_follows
  intro w
  cases w.phase <;> cases w.sent <;> rfl

theorem collect_backed (h : Backed P d) (ticket : Nat) : Backed P (d.collect ticket) := by
  apply change_backed h
  intro w _ hb
  split
  · rename_i o _ ho
    exact leave_vouched hb (by rintro o' ⟨⟩; exact hb o (.inl ho))
  · exact hb

theorem timeOut_follows (d : Desk) (ticket : Nat) : Follows d (d.timeOut ticket) := by
  apply change_follows
  intro w
  cases w.phase <;> cases w.sent <;> rfl

theorem timeOut_backed (hT : ∀ id, P id .timedOut) (h : Backed P d) (ticket : Nat) :
    Backed P (d.timeOut ticket) := by
  apply change_backed h
  intro w _ hb
  split
  · exact leave_vouched hb (by rintro o ⟨⟩; exact hT w.message)
  · exact hb

theorem strike_waits (d : Desk) (message : String) : (d.strike message).waits = d.waits := by
  rw [strike]
  split
  · rfl
  · split <;> rfl

theorem strike_follows (d : Desk) (message : String) : Follows d (d.strike message) := by
  refine ⟨?_, ?_, ?_⟩
  · rw [strike]
    split
    · rfl
    · split <;> rfl
  · intro t
    rw [messageOf?, messageOf?, strike_waits]
  · intro id t ht
    rw [strike] at ht
    split at ht
    · exact ht
    · rename_i tickets hs
      split at ht
      · simp only [ticketsOf, Table.find?_erase] at ht ⊢
        by_cases hid : id = message
        · simp [hid] at ht
        · simpa [hid] using ht
      · rename_i kept _ hk
        simp only [ticketsOf, Table.find?_set] at ht ⊢
        by_cases hid : id = message
        · rw [if_pos hid, Option.getD_some] at ht
          rw [hid, hs, Option.getD_some]
          exact List.mem_of_mem_filter ht
        · simpa [hid] using ht

theorem prune_follows (d : Desk) (ticket : Nat) : Follows d (d.prune ticket) := by
  rw [prune]
  split
  · split
    · exact (strike_follows d _).trans (change_follows _ _ fun _ => rfl)
    · exact Follows.refl d
  · exact Follows.refl d

theorem prune_backed (h : Backed P d) (ticket : Nat) : Backed P (d.prune ticket) := by
  rw [prune]
  split
  · rename_i w hw
    split
    · rename_i answer hp
      have hs : Backed P (d.strike w.message) := by rw [Backed, strike_waits]; exact h
      apply change_backed hs
      intro v hv hb
      rw [strike_waits, hw, Option.some.injEq] at hv
      subst hv
      rintro o (ho | ho | ho)
      · exact hb o (.inl ho)
      · cases ho
      · exact hb o (.inr (.inl (by rw [hp]; simpa using ho)))
    · exact h
  · exact h

theorem settleOne_follows (now : Nat) (d : Desk) (ticket : Nat) :
    Follows d (settleOne now d ticket) := by
  have hc := collect_follows d ticket
  have hd (due : Bool) :
      Follows d (if due then (d.collect ticket).timeOut ticket else d.collect ticket) := by
    cases due with
    | true => exact hc.trans (timeOut_follows _ _)
    | false => exact hc
  exact (hd _).trans (prune_follows _ _)

theorem settleOne_backed (hT : ∀ id, P id .timedOut) (h : Backed P d) (now ticket : Nat) :
    Backed P (settleOne now d ticket) := by
  have hc := collect_backed h ticket
  have hd (due : Bool) :
      Backed P (if due then (d.collect ticket).timeOut ticket else d.collect ticket) := by
    cases due with
    | true => exact timeOut_backed hT hc ticket
    | false => exact hc
  exact prune_backed (hd _) ticket

theorem settle_follows (d : Desk) (now : Nat) : Follows d (d.settle now) := by
  rw [settle]
  generalize d.waits.keys = tickets
  induction tickets generalizing d with
  | nil => exact Follows.refl d
  | cons t tickets ih => exact (settleOne_follows now d t).trans (ih _)

theorem settle_backed (hT : ∀ id, P id .timedOut) (h : Backed P d) (now : Nat) :
    Backed P (d.settle now) := by
  rw [settle]
  generalize d.waits.keys = tickets
  induction tickets generalizing d with
  | nil => exact h
  | cons t tickets ih => exact ih (settleOne_backed hT h now t)

theorem abandon_follows (d : Desk) (ticket : Nat) : Follows d (d.abandon ticket) := by
  apply change_follows
  intro w
  cases w.phase <;> rfl

theorem abandon_backed (h : Backed P d) (ticket : Nat) : Backed P (d.abandon ticket) := by
  apply change_backed h
  intro w _ hb
  split
  · exact hb
  · rintro o (ho | ho | ho)
    · exact hb o (.inl ho)
    · cases ho
    · cases ho

theorem tell_follows (outcome : Outcome) (d : Desk) (ticket : Nat) :
    Follows d (tell outcome d ticket) := by
  rw [tell]
  split
  · exact change_follows _ _ fun _ => rfl
  · exact Follows.refl d

theorem tell_backed (h : Backed P d) (outcome : Outcome) (ticket : Nat)
    (hP : ∀ id, d.messageOf? ticket = some id → P id outcome) :
    Backed P (tell outcome d ticket) := by
  rw [tell]
  split
  · apply change_backed h
    intro w hw hb
    rintro o (ho | ho | ho)
    · cases ho
      exact hP w.message (by simp [messageOf?, hw])
    · exact hb o (.inr (.inl ho))
    · exact hb o (.inr (.inr ho))
  · exact h

theorem foldl_tell_follows (outcome : Outcome) (tickets : List Nat) (d : Desk) :
    Follows d (tickets.foldl (tell outcome) d) := by
  induction tickets generalizing d with
  | nil => exact Follows.refl d
  | cons t tickets ih => exact (tell_follows outcome d t).trans (ih _)

theorem foldl_tell_backed {outcome : Outcome} {message : String} (hP : P message outcome)
    (tickets : List Nat) (d : Desk) (h : Backed P d)
    (hm : ∀ t ∈ tickets, d.messageOf? t = some message) :
    Backed P (tickets.foldl (tell outcome) d) := by
  induction tickets generalizing d with
  | nil => exact h
  | cons t tickets ih =>
      apply ih
      · apply tell_backed h
        intro id hid
        rw [hm t List.mem_cons_self, Option.some.injEq] at hid
        exact hid ▸ hP
      · intro s hs
        rw [(tell_follows outcome d t).messageOf? s]
        exact hm s (List.mem_cons_of_mem t hs)

theorem erase_follows (d : Desk) (message : String) :
    Follows d { d with senders := d.senders.erase message } := by
  refine ⟨rfl, fun _ => rfl, ?_⟩
  intro id t ht
  simp only [ticketsOf, Table.find?_erase] at ht ⊢
  by_cases hid : id = message
  · simp [hid] at ht
  · simpa [hid] using ht

theorem notify_follows (d : Desk) (message : String) (outcome : Outcome) :
    Follows d (d.notify message outcome).2 :=
  (erase_follows d message).trans (foldl_tell_follows outcome _ _)

theorem notify_backed (hl : Listed d) (h : Backed P d) {message : String} {outcome : Outcome}
    (hP : P message outcome) : Backed P (d.notify message outcome).2 := by
  apply foldl_tell_backed hP
  · exact h
  · intro t ht
    exact hl.listed message t ht

theorem answer?_backed (h : Backed P d) {ticket : Nat} {id : String}
    (hm : d.messageOf? ticket = some id) {o : Outcome} (ha : d.answer? ticket = some (.ok o)) :
    P id o := by
  cases hw : d.waits.find? ticket with
  | none => simp [messageOf?, hw] at hm
  | some w =>
      simp only [messageOf?, hw, Option.map_some, Option.some.injEq] at hm
      subst hm
      apply h ticket w hw o
      right; right
      cases hp : w.phase <;> simp [answer?, hw, hp] at ha
      rw [ha]

end Desk

end Parley
