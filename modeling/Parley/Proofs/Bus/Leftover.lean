import Parley.Proofs.Bus.Traffic
import Parley.Store.Memory

namespace Parley

def Wait.UnderWay (w : Wait) : Prop :=
  w.phase = .registered ∨ (∃ deadline, w.phase = .blocked deadline) ∨
    ∃ answer, w.phase = .leaving answer

def Wait.Failed (w : Wait) : Prop := ∃ e, w.phase = .returned (.error e)

namespace Desk

def Idle (d : Desk) (id : String) : Prop :=
  ∀ t w, d.waits.find? t = some w → w.message = id → ¬ w.UnderWay

/-- What one call does to the desk at a time. -/
inductive Turn (d : Desk) : Desk → Prop
  | rest : Turn d d
  | register (id) : Turn d (d.register id).2
  | lookedUp (ticket deadline found) : Turn d (d.lookedUp ticket deadline found)
  | collect (ticket) : Turn d (d.collect ticket)
  | timeOut (ticket) : Turn d (d.timeOut ticket)
  | prune (ticket) : Turn d (d.prune ticket)
  | notify (id outcome) : Turn d (d.notify id outcome).2

/-- Whoever leaves with an outcome listens no more, so that it is struck before it returns; hence
all who stand to be told are under way or have failed. -/
structure Tended (d : Desk) : Prop where
  deaf : ∀ t w o, d.waits.find? t = some w → w.phase = .leaving (.ok o) → w.listening = false
  standing : ∀ id t w, t ∈ d.ticketsOf id → d.waits.find? t = some w → w.UnderWay ∨ w.Failed
  filled : ∀ id, d.senders.find? id ≠ some []

variable {d d' : Desk}

theorem empty_tended : Tended empty := by
  refine ⟨?_, ?_, ?_⟩
  · intro _ _ _ h
    cases h
  · intro _ _ _ h
    cases h
  · intro _ h
    cases h

theorem change_senders (d : Desk) (t : Nat) (f : Wait → Wait) :
    (d.change t f).senders = d.senders := by
  rw [change]
  split <;> rfl

theorem find?_strike_of_ne (d : Desk) {message id : String} (h : id ≠ message) :
    (d.strike message).senders.find? id = d.senders.find? id := by
  rw [strike]
  split
  · rfl
  · split
    · exact (Table.find?_erase ..).trans (if_neg h)
    · exact (Table.find?_set ..).trans (if_neg h)

theorem find?_prune_of_ne (d : Desk) {t : Nat} {id : String} (h : d.messageOf? t ≠ some id) :
    (d.prune t).senders.find? id = d.senders.find? id := by
  rw [prune]
  split
  · rename_i w hw
    split
    · rw [change_senders]
      apply find?_strike_of_ne
      rintro rfl
      exact h (messageOf?_of_find? hw)
    · rfl
  · rfl

theorem notify_senders (d : Desk) (message : String) (outcome : Outcome) :
    (d.notify message outcome).2.senders = d.senders.erase message := by
  have htell (tickets : List Nat) (c : Desk) :
      (tickets.foldl (tell outcome) c).senders = c.senders := by
    induction tickets generalizing c with
    | nil => rfl
    | cons t tickets ih =>
        rw [List.foldl_cons, ih, tell]
        split
        · exact change_senders ..
        · rfl
  exact htell ..

theorem Tended.change (h : Tended d) (t : Nat) {f : Wait → Wait}
    (hf : ∀ w, d.waits.find? t = some w →
      f w = w ∨ (f w).UnderWay ∧ ∀ o, (f w).phase = .leaving (.ok o) → (f w).listening = false) :
    Tended (d.change t f) := by
  have hwait (s : Nat) (w : Wait) (hw : (d.change t f).waits.find? s = some w) :
      d.waits.find? s = some w ∨
        w.UnderWay ∧ ∀ o, w.phase = .leaving (.ok o) → w.listening = false := by
    rw [change_find?] at hw
    by_cases hs : s = t
    · rw [if_pos hs, Option.map_eq_some_iff] at hw
      obtain ⟨v, hv, rfl⟩ := hw
      subst hs
      refine (hf v hv).imp_left fun heq => ?_
      rw [heq, hv]
    · rw [if_neg hs] at hw
      exact .inl hw
  refine ⟨?_, ?_, ?_⟩
  · intro s w o hw hp
    obtain hold | ⟨-, hdeaf⟩ := hwait s w hw
    · exact h.deaf s w o hold hp
    · exact hdeaf o hp
  · intro id s w hs hw
    rw [change_ticketsOf] at hs
    obtain hold | ⟨hunder, -⟩ := hwait s w hw
    · exact h.standing id s w hs hold
    · exact .inl hunder
  · intro id
    rw [change_senders]
    exact h.filled id

theorem Tended.register (h : Tended d) (id : String) : Tended (d.register id).2 := by
  refine ⟨?_, ?_, ?_⟩
  · intro t w o hw hp
    rw [register_find?] at hw
    split at hw
    · obtain rfl := Option.some.inj hw
      cases hp
    · exact h.deaf t w o hw hp
  · intro i t w ht hw
    rw [register_find?] at hw
    rw [mem_ticketsOf_register] at ht
    split at hw
    · obtain rfl := Option.some.inj hw
      exact .inl (.inl rfl)
    · rename_i hne
      exact h.standing i t w (ht.resolve_right fun hi => hne hi.2) hw
  · intro i hi
    have hset : (d.senders.set id (d.ticketsOf id ++ [d.issued])).find? i = some [] := hi
    rw [Table.find?_set] at hset
    split at hset
    · simp at hset
    · exact h.filled i hset

theorem Tended.strike (h : Tended d) (message : String) : Tended (d.strike message) := by
  refine ⟨?_, ?_, ?_⟩
  · intro t w o hw hp
    rw [strike_waits] at hw
    exact h.deaf t w o hw hp
  · intro id t w ht hw
    rw [strike_waits] at hw
    exact h.standing id t w ((mem_ticketsOf_strike ..).mp ht).1 hw
  · intro id hid
    rw [Desk.strike] at hid
    split at hid
    · exact h.filled id hid
    · split at hid
      · rw [Table.find?_erase] at hid
        split at hid
        · cases hid
        · exact h.filled id hid
      · rename_i hne
        rw [Table.find?_set] at hid
        split at hid
        · exact hne (Option.some.inj hid)
        · exact h.filled id hid

theorem lookedUp_tended (h : Tended d) (ticket deadline : Nat)
    (found : Except Error (Option Message)) : Tended (d.lookedUp ticket deadline found) := by
  apply h.change
  intro w _
  right
  rcases found with e | _ | m
  · refine ⟨.inr (.inr ⟨_, rfl⟩), fun o hp => ?_⟩
    cases hp
  · refine ⟨.inr (.inr ⟨_, rfl⟩), fun o hp => ?_⟩
    cases hp
  · cases ho : Outcome.ofMessage? m with
    | some o =>
        simp only [ho]
        exact ⟨.inr (.inr ⟨_, rfl⟩), fun _ _ => rfl⟩
    | none =>
        simp only [ho]
        refine ⟨.inr (.inl ⟨_, rfl⟩), fun o hp => ?_⟩
        cases hp

theorem collect_tended (h : Tended d) (ticket : Nat) : Tended (d.collect ticket) := by
  apply h.change
  intro w _
  split
  · exact .inr ⟨.inr (.inr ⟨_, rfl⟩), fun _ _ => rfl⟩
  · exact .inl rfl

theorem timeOut_tended (h : Tended d) (ticket : Nat) : Tended (d.timeOut ticket) := by
  apply h.change
  intro w _
  split
  · exact .inr ⟨.inr (.inr ⟨_, rfl⟩), fun _ _ => rfl⟩
  · exact .inl rfl

theorem prune_tended (h : Tended d) (hl : Listed d) (ticket : Nat) : Tended (d.prune ticket) := by
  rw [prune]
  split
  · rename_i w hw
    split
    · rename_i answer hp
      have hs := h.strike w.message
      refine ⟨?_, ?_, ?_⟩
      · intro t v o hv hleaving
        rw [change_find?] at hv
        split at hv
        · obtain ⟨u, -, rfl⟩ := Option.map_eq_some_iff.mp hv
          cases hleaving
        · exact hs.deaf t v o hv hleaving
      · intro id t v ht hv
        rw [change_ticketsOf] at ht
        rw [change_find?] at hv
        split at hv
        · rename_i heq
          subst heq
          obtain ⟨hmem, hlistens⟩ := (mem_ticketsOf_strike ..).mp ht
          obtain ⟨u, -, rfl⟩ := Option.map_eq_some_iff.mp hv
          cases answer with
          | error e => exact .inr ⟨e, rfl⟩
          | ok o =>
              have hid : w.message = id := Option.some.inj
                ((messageOf?_of_find? hw).symm.trans (hl.listed id t hmem))
              have hdeaf := h.deaf t w o hw hp
              have hlistening := hlistens hid.symm
              simp [isListening, hw, hdeaf] at hlistening
        · exact hs.standing id t v ht hv
      · intro id
        rw [change_senders]
        exact hs.filled id
    · exact h
  · exact h

theorem notify_tended (h : Tended d) (message : String) (outcome : Outcome) :
    Tended (d.notify message outcome).2 := by
  have hwait (t : Nat) (w : Wait) (hw : (d.notify message outcome).2.waits.find? t = some w) :
      ∃ v, d.waits.find? t = some v ∧ w.phase = v.phase ∧ w.listening = v.listening := by
    rw [notify_find?] at hw
    obtain ⟨v, hv, rfl⟩ := Option.map_eq_some_iff.mp hw
    exact ⟨v, hv, by split <;> rfl, by split <;> rfl⟩
  refine ⟨?_, ?_, ?_⟩
  · intro t w o hw hp
    obtain ⟨v, hv, hphase, hlistening⟩ := hwait t w hw
    rw [hlistening]
    exact h.deaf t v o hv (hphase.symm.trans hp)
  · intro id t w ht hw
    obtain ⟨v, hv, hphase, -⟩ := hwait t w hw
    rw [notify_ticketsOf] at ht
    split at ht
    · cases ht
    · rw [Wait.UnderWay, Wait.Failed, hphase]
      exact h.standing id t v ht hv
  · intro id
    rw [notify_senders, Table.find?_erase]
    split
    · intro hid
      cases hid
    · exact h.filled id

theorem Turn.follows_or_register (h : Turn d d') :
    d.Follows d' ∨ ∃ id, d' = (d.register id).2 := by
  cases h with
  | rest => exact .inl (Follows.refl d)
  | register id => exact .inr ⟨id, rfl⟩
  | lookedUp ticket deadline found => exact .inl (lookedUp_follows d ticket deadline found)
  | collect ticket => exact .inl (collect_follows d ticket)
  | timeOut ticket => exact .inl (timeOut_follows d ticket)
  | prune ticket => exact .inl (prune_follows d ticket)
  | notify id outcome => exact .inl (notify_follows d id outcome)

theorem Turn.listed (h : Turn d d') (hl : Listed d) : Listed d' := by
  obtain hf | ⟨id, rfl⟩ := h.follows_or_register
  · exact hf.listed hl
  · exact register_listed hl id

theorem Turn.tended (h : Turn d d') (hl : Listed d) (ht : Tended d) : Tended d' := by
  cases h with
  | rest => exact ht
  | register id => exact ht.register id
  | lookedUp ticket deadline found => exact lookedUp_tended ht ticket deadline found
  | collect ticket => exact collect_tended ht ticket
  | timeOut ticket => exact timeOut_tended ht ticket
  | prune ticket => exact prune_tended ht hl ticket
  | notify id outcome => exact notify_tended ht id outcome

end Desk

namespace Traffic

variable {σ : Type} {b : Backend σ} {x y : Traffic σ} {move : Move} {id : String}

theorem Step.turn (h : Step b x move y) : x.bus.desk.Turn y.bus.desk := by
  cases h with
  | register id => exact .register id
  | go ticket => exact .lookedUp ticket _ _
  | collect ticket => exact .collect ticket
  | timeOut ticket => exact .timeOut ticket
  | prune ticket => exact .prune ticket
  | cancel id => exact .notify id _
  | tell key r => exact .notify r.message _
  | look | rule | find | keep | refuse | pass => exact .rest

theorem tended_reaches (h : Reaches b x y) (hl : x.bus.desk.Listed) (ht : x.bus.desk.Tended) :
    y.bus.desk.Listed ∧ y.bus.desk.Tended := by
  induction h with
  | refl => exact ⟨hl, ht⟩
  | tail _ hstep ih =>
      obtain ⟨move, hstep⟩ := hstep
      exact ⟨hstep.turn.listed ih.1, hstep.turn.tended ih.1 ih.2⟩

theorem find?_senders_step (h : Step b x move y) (hm : x.subject? move ≠ some id) :
    y.bus.desk.senders.find? id = x.bus.desk.senders.find? id := by
  have hnotify (message : String) (o : Outcome) (hne : some message ≠ some id) :
      (x.bus.desk.notify message o).2.senders.find? id = x.bus.desk.senders.find? id := by
    rw [Desk.notify_senders, Table.find?_erase, if_neg fun heq => hne (congrArg some heq.symm)]
  cases h with
  | register message =>
      have hne : id ≠ message := fun heq => hm (congrArg some heq.symm)
      exact (Table.find?_set ..).trans (if_neg hne)
  | go | collect | timeOut =>
      exact congrArg (Table.find? · id) (Desk.change_senders ..)
  | prune ticket => exact Desk.find?_prune_of_ne _ hm
  | cancel message => exact hnotify message _ hm
  | tell key r hr => exact hnotify r.message _ (by simpa [subject?, hr] using hm)
  | look | rule | find | keep | refuse | pass => rfl

/-- Whoever stands to be told about a message waits for it or has returned an error, so that
nobody does for whom an outcome was returned; and no list is empty. What is left when no wait for
the message is under way stays until another call is about the message. -/
theorem waiters_left {settings : Settings} {store : σ} {trail : Option Audit.Trail}
    (hx : Reaches b (on (Bus.new settings store trail)) x) :
    (∀ id tickets, x.bus.desk.senders.find? id = some tickets → tickets ≠ [] ∧
      ∀ t ∈ tickets, ∃ w, x.bus.desk.waits.find? t = some w ∧ w.message = id ∧
        (w.UnderWay ∨ w.Failed)) ∧
    ∀ move y id, Step b x move y → x.subject? move ≠ some id →
      y.bus.desk.senders.find? id = x.bus.desk.senders.find? id := by
  obtain ⟨hl, ht⟩ := tended_reaches hx Desk.empty_listed Desk.empty_tended
  refine ⟨?_, fun _ _ _ => find?_senders_step⟩
  intro id tickets htickets
  refine ⟨?_, fun t hmem => ?_⟩
  · rintro rfl
    exact ht.filled id htickets
  · have hat : t ∈ x.bus.desk.ticketsOf id := by
      rw [Desk.ticketsOf, htickets]
      exact hmem
    obtain ⟨w, hw, hmessage⟩ := Option.map_eq_some_iff.mp (hl.listed id t hat)
    exact ⟨w, hw, hmessage, ht.standing id t w hat hw⟩

theorem unknown_reaches : ∃ x : Traffic MemoryLog,
    Reaches MemoryLog.backend (on (Bus.new .standard .empty none)) x ∧
    x.bus.desk.waits.find? 0 = some ⟨"x", .returned (.error (Desk.notFound "x")), none, false⟩ ∧
    x.bus.desk.waits.keys = [0] ∧ x.bus.desk.senders.find? "x" = some [0] := by
  have hregister := (Step.register (b := MemoryLog.backend)
    (on (Bus.new .standard .empty none)) "x").reaches
  have hlook := hregister.trans (Step.look _ 0 _ _ _ rfl rfl rfl rfl).reaches
  have hgo := hlook.trans (Step.go _ 0 none _ rfl).reaches
  have hprune := hgo.trans (Step.prune _ 0).reaches
  exact ⟨_, hprune, rfl, rfl, rfl⟩

/-- A wait that finds no message leaves itself on the list. -/
theorem waiter_of_idle : ¬ ∀ x : Traffic MemoryLog,
    Reaches MemoryLog.backend (on (Bus.new .standard .empty none)) x →
      ∀ id, x.bus.desk.Idle id → x.bus.desk.senders.find? id = none := by
  intro h
  obtain ⟨x, hx, hw, hkeys, hleft⟩ := unknown_reaches
  have hidle : x.bus.desk.Idle "x" := by
    intro t w ht _
    have hmem : t ∈ x.bus.desk.waits.keys := Table.valueIn_isSome_iff.mp (by
      rw [show Table.valueIn t x.bus.desk.waits.entries = some w from ht, Option.isSome_some])
    rw [hkeys, List.mem_singleton] at hmem
    subst hmem
    obtain rfl := Option.some.inj (hw.symm.trans ht)
    rintro (hp | ⟨_, hp⟩ | ⟨_, hp⟩) <;> cases hp
  rw [h x hx "x" hidle] at hleft
  cases hleft

theorem waiters_left_unknown : ∃ x y : Traffic MemoryLog,
    Reaches MemoryLog.backend (on (Bus.new .standard .empty none)) x ∧
    (∃ w, x.bus.desk.waits.find? 0 = some w ∧ w.Failed) ∧
    Step MemoryLog.backend x (.pass 1) y ∧ y.bus.desk.senders.find? "x" = some [0] := by
  obtain ⟨x, hx, hw, -, hleft⟩ := unknown_reaches
  obtain ⟨hlisted, hstays⟩ := waiters_left hx
  obtain ⟨-, hwaits⟩ := hlisted "x" [0] hleft
  obtain ⟨w, hw', -, hunder | hfailed⟩ := hwaits 0 List.mem_cons_self
  · obtain rfl := Option.some.inj (hw.symm.trans hw')
    rcases hunder with hp | ⟨_, hp⟩ | ⟨_, hp⟩ <;> cases hp
  · have hpass := Step.pass (b := MemoryLog.backend) x 1
    have hstays := hstays _ _ "x" hpass (Option.some_ne_none "x").symm
    exact ⟨x, _, hx, ⟨w, hw', hfailed⟩, hpass, hstays.trans hleft⟩

end Traffic

end Parley
