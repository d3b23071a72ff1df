import Parley.Proofs.Bus.Desk

namespace Parley

def Wait.Pending (w : Wait) : Prop :=
  w.sent = none ∧ (w.phase = .registered ∨ ∃ deadline, w.phase = .blocked deadline)

namespace Desk

/-- Whoever still waits listens, and stands to be told. -/
def Attended (d : Desk) : Prop :=
  ∀ t w, d.waits.find? t = some w → w.Pending → w.listening = true ∧ t ∈ d.ticketsOf w.message

/-- No wait becomes pending, and none is struck while it is pending and listens. A wait that has
not looked its message up is kept from nothing. -/
structure Quiets (d d' : Desk) : Prop where
  registered : ∀ t, (d.waits.find? t).map Wait.phase = some .registered →
    (d'.waits.find? t).map Wait.phase = some .registered
  pending : ∀ t w, d'.waits.find? t = some w → w.Pending → d.waits.find? t = some w
  tickets : ∀ t w, d'.waits.find? t = some w → w.Pending → w.listening = true →
    t ∈ d.ticketsOf w.message → t ∈ d'.ticketsOf w.message

variable {d d' d'' : Desk}

theorem Quiets.trans (h : Quiets d d') (h' : Quiets d' d'') : Quiets d d'' := by
  refine ⟨fun t hr => h'.registered t (h.registered t hr), ?_, ?_⟩
  · intro t w hw hp
    exact h.pending t w (h'.pending t w hw hp) hp
  · intro t w hw hp hl ht
    exact h'.tickets t w hw hp hl (h.tickets t w (h'.pending t w hw hp) hp hl ht)

theorem Quiets.attended (h : Quiets d d') (ha : Attended d) : Attended d' := by
  intro t w hw hp
  obtain ⟨hl, ht⟩ := ha t w (h.pending t w hw hp) hp
  exact ⟨hl, h.tickets t w hw hp hl ht⟩

theorem empty_attended : Attended empty := fun _ _ h => by cases h

theorem change_find? (d : Desk) (t s : Nat) (f : Wait → Wait) :
    (d.change t f).waits.find? s =
      if s = t then (d.waits.find? s).map f else d.waits.find? s := by
  by_cases hs : s = t
  · subst hs
    cases hw : d.waits.find? s <;> simp [change, hw, put, Table.find?_set]
  · cases hw : d.waits.find? t <;> simp [change, hw, put, Table.find?_set, hs]

theorem change_ticketsOf (d : Desk) (t : Nat) (f : Wait → Wait) (id : String) :
    (d.change t f).ticketsOf id = d.ticketsOf id := by
  cases hw : d.waits.find? t <;> simp [change, hw, put, ticketsOf]

theorem change_quiets (d : Desk) (t : Nat) {f : Wait → Wait}
    (hr : ∀ w, d.waits.find? t = some w → w.phase = .registered → (f w).phase = .registered)
    (hf : ∀ w, (f w).Pending → f w = w) : Quiets d (d.change t f) := by
  refine ⟨?_, ?_, ?_⟩
  · intro s hs
    rw [change_find?]
    by_cases hst : s = t
    · subst hst
      obtain ⟨w, hw, hp⟩ := Option.map_eq_some_iff.mp hs
      simp [hw, hr w hw hp]
    · rwa [if_neg hst]
  · intro s w hw hp
    rw [change_find?] at hw
    by_cases hs : s = t
    · rw [if_pos hs, Option.map_eq_some_iff] at hw
      obtain ⟨v, hv, rfl⟩ := hw
      rw [hv, hf v hp]
    · rwa [if_neg hs] at hw
  · intro s w _ _ _ ht
    rwa [change_ticketsOf]

theorem not_pending_leave (answer : Except Error Outcome) (w : Wait) :
    ¬(Wait.leave answer w).Pending := by
  rintro ⟨-, h | ⟨_, h⟩⟩ <;> cases h

theorem collect_quiets (d : Desk) (ticket : Nat) : Quiets d (d.collect ticket) := by
  apply change_quiets
  · intro w _ hr
    simp only [hr]
  · intro w hp
    split at hp
    · exact absurd hp (not_pending_leave _ w)
    · rfl

theorem timeOut_quiets (d : Desk) (ticket : Nat) : Quiets d (d.timeOut ticket) := by
  apply change_quiets
  · intro w _ hr
    simp only [hr]
  · intro w hp
    split at hp
    · exact absurd hp (not_pending_leave _ w)
    · rfl

theorem mem_ticketsOf_strike (d : Desk) (message id : String) (t : Nat) :
    t ∈ (d.strike message).ticketsOf id ↔
      t ∈ d.ticketsOf id ∧ (id = message → d.isListening t = true) := by
  by_cases hid : id = message
  · subst hid
    cases hs : d.senders.find? id with
    | none => simp [strike, hs, ticketsOf]
    | some tickets =>
        have hmem : t ∈ (d.strike id).ticketsOf id ↔ t ∈ tickets.filter d.isListening := by
          cases hk : tickets.filter d.isListening <;>
            simp [strike, hs, hk, ticketsOf, Table.find?_erase, Table.find?_set]
        rw [hmem, List.mem_filter, ticketsOf, hs]
        simp
  · have hsame : (d.strike message).ticketsOf id = d.ticketsOf id := by
      rw [strike]
      split
      · rfl
      · split <;> simp [ticketsOf, Table.find?_erase, Table.find?_set, hid]
    simp [hsame, hid]

theorem strike_quiets (d : Desk) (message : String) : Quiets d (d.strike message) := by
  refine ⟨?_, ?_, ?_⟩
  · intro t hr
    rwa [strike_waits]
  · intro t w hw _
    rwa [strike_waits] at hw
  · intro t w hw _ hl ht
    rw [strike_waits] at hw
    have hlt : d.isListening t = true := by simp [isListening, hw, hl]
    exact (mem_ticketsOf_strike d message w.message t).mpr ⟨ht, fun _ => hlt⟩

theorem prune_quiets (d : Desk) (ticket : Nat) : Quiets d (d.prune ticket) := by
  have hsame : Quiets d d := ⟨fun _ h => h, fun _ _ h _ => h, fun _ _ _ _ _ h => h⟩
  rw [prune]
  split
  · rename_i v hv
    split
    · rename_i answer hleaving
      refine (strike_quiets d _).trans (change_quiets _ _ ?_ ?_)
      · intro w hw hr
        rw [strike_waits, hv, Option.some.injEq] at hw
        rw [← hw, hleaving] at hr
        cases hr
      · rintro w ⟨-, h | ⟨_, h⟩⟩ <;> cases h
    · exact hsame
  · exact hsame

theorem prune_find?_of_ne (d : Desk) {t s : Nat} (hs : s ≠ t) :
    (d.prune t).waits.find? s = d.waits.find? s := by
  rw [prune]
  split
  · split
    · rw [change_find?, if_neg hs, strike_waits]
    · rfl
  · rfl

theorem foldl_tell_find? (outcome : Outcome) (tickets : List Nat) (d : Desk) (t : Nat) :
    (tickets.foldl (tell outcome) d).waits.find? t = (d.waits.find? t).map fun w =>
      if t ∈ tickets ∧ w.listening = true then { w with sent := some outcome } else w := by
  induction tickets generalizing d with
  | nil => simp
  | cons s tickets ih =>
      rw [List.foldl_cons, ih, tell]
      by_cases ht : t = s
      · subst ht
        cases hw : d.waits.find? t with
        | none => simp [isListening, hw]
        | some w => cases hl : w.listening <;> simp [isListening, hw, hl, change_find?]
      · cases hs : d.isListening s <;> simp [change_find?, ht]

theorem notify_find? (d : Desk) (message : String) (outcome : Outcome) (t : Nat) :
    (d.notify message outcome).2.waits.find? t = (d.waits.find? t).map fun w =>
      if t ∈ d.ticketsOf message ∧ w.listening = true then { w with sent := some outcome }
      else w :=
  foldl_tell_find? outcome _ _ t

theorem notify_ticketsOf (d : Desk) (message : String) (outcome : Outcome) (id : String) :
    (d.notify message outcome).2.ticketsOf id = if id = message then [] else d.ticketsOf id := by
  have htell (tickets : List Nat) (c : Desk) :
      (tickets.foldl (tell outcome) c).ticketsOf id = c.ticketsOf id := by
    induction tickets generalizing c with
    | nil => rfl
    | cons t tickets ih =>
        rw [List.foldl_cons, ih, tell]
        cases c.isListening t <;> simp [change_ticketsOf]
  rw [notify, htell]
  by_cases hid : id = message <;> simp [ticketsOf, Table.find?_erase, hid]

theorem pending_of_notify {message : String} {outcome : Outcome} {t : Nat} {w : Wait}
    (hw : (d.notify message outcome).2.waits.find? t = some w) (hp : w.Pending) :
    d.waits.find? t = some w ∧ ¬(t ∈ d.ticketsOf message ∧ w.listening = true) := by
  rw [notify_find?, Option.map_eq_some_iff] at hw
  obtain ⟨v, hv, hvw⟩ := hw
  by_cases htold : t ∈ d.ticketsOf message ∧ v.listening = true
  · rw [if_pos htold] at hvw
    subst hvw
    cases hp.1
  · rw [if_neg htold] at hvw
    subst hvw
    exact ⟨hv, htold⟩

theorem notify_quiets (d : Desk) (message : String) (outcome : Outcome) :
    Quiets d (d.notify message outcome).2 := by
  refine ⟨?_, fun t w hw hp => (pending_of_notify hw hp).1, ?_⟩
  · intro t hr
    obtain ⟨w, hw, hp⟩ := Option.map_eq_some_iff.mp hr
    rw [notify_find?, hw, Option.map_some, Option.map_some]
    split <;> simp [hp]
  · intro t w hw hp hl ht
    have hid : w.message ≠ message := by
      rintro rfl
      exact (pending_of_notify hw hp).2 ⟨ht, hl⟩
    rwa [notify_ticketsOf, if_neg hid]

/-- Nobody who waits for a message is pending after it was spoken of. -/
theorem notify_resolves (ha : Attended d) {message : String} {outcome : Outcome} {t : Nat}
    {w : Wait} (hw : (d.notify message outcome).2.waits.find? t = some w) (hp : w.Pending) :
    w.message ≠ message := by
  obtain ⟨hold, hnot⟩ := pending_of_notify hw hp
  obtain ⟨hl, ht⟩ := ha t w hold hp
  rintro rfl
  exact hnot ⟨ht, hl⟩

theorem register_find? (d : Desk) (id : String) (t : Nat) :
    (d.register id).2.waits.find? t =
      if t = d.issued then some ⟨id, .registered, none, true⟩ else d.waits.find? t :=
  Table.find?_set ..

theorem mem_ticketsOf_register (d : Desk) (message id : String) (t : Nat) :
    t ∈ (d.register message).2.ticketsOf id ↔
      t ∈ d.ticketsOf id ∨ (id = message ∧ t = d.issued) := by
  by_cases hid : id = message
  · subst hid
    simp [register, ticketsOf, Table.find?_set]
  · simp [register, ticketsOf, Table.find?_set, hid]

theorem register_attended (h : Attended d) (id : String) : Attended (d.register id).2 := by
  intro t w hw hp
  rw [register_find?] at hw
  rw [mem_ticketsOf_register]
  by_cases ht : t = d.issued
  · rw [if_pos ht, Option.some.injEq] at hw
    subst hw
    exact ⟨rfl, .inr ⟨rfl, ht⟩⟩
  · rw [if_neg ht] at hw
    obtain ⟨hl, hmem⟩ := h t w hw hp
    exact ⟨hl, .inl hmem⟩

theorem lookedUp_find?_of_ne (d : Desk) {t s : Nat} (hs : s ≠ t) (deadline : Nat)
    (found : Except Error (Option Message)) :
    (d.lookedUp t deadline found).waits.find? s = d.waits.find? s := by
  rw [lookedUp, change_find?, if_neg hs]

/-- A wait that looked its message up stays pending only if it saw no decision; then it blocks. -/
theorem pending_of_lookedUp {t deadline : Nat} {found : Except Error (Option Message)}
    {v w : Wait} (hv : d.waits.find? t = some v) (hr : v.phase = .registered)
    (hw : (d.lookedUp t deadline found).waits.find? t = some w) (hp : w.Pending) :
    v.Pending ∧ w = { v with phase := .blocked deadline } ∧
      ∃ m, found = .ok (some m) ∧ m.approved = none := by
  rw [lookedUp, change_find?, if_pos rfl, hv, Option.map_some, Option.some.injEq] at hw
  subst hw
  rcases found with e | _ | m
  · obtain ⟨-, h | ⟨_, h⟩⟩ := hp <;> cases h
  · obtain ⟨-, h | ⟨_, h⟩⟩ := hp <;> cases h
  · cases ho : Outcome.ofMessage? m with
    | some o =>
        simp only [ho] at hp
        exact absurd hp (not_pending_leave _ v)
    | none =>
        simp only [ho] at hp
        exact ⟨⟨hp.1, .inl hr⟩, by simp only [ho], m, rfl, by simpa [Outcome.ofMessage?] using ho⟩

theorem lookedUp_attended (h : Attended d) {t : Nat} {v : Wait} (hv : d.waits.find? t = some v)
    (hr : v.phase = .registered) (deadline : Nat) (found : Except Error (Option Message)) :
    Attended (d.lookedUp t deadline found) := by
  intro s w hw hp
  have ht : (d.lookedUp t deadline found).ticketsOf w.message = d.ticketsOf w.message :=
    change_ticketsOf ..
  rw [ht]
  by_cases hs : s = t
  · subst hs
    obtain ⟨hvp, rfl, -⟩ := pending_of_lookedUp hv hr hw hp
    exact h s v hv hvp
  · rw [lookedUp_find?_of_ne d hs] at hw
    exact h s w hw hp

end Desk

end Parley
