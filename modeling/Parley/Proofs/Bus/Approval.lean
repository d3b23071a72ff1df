import Parley.Proofs.Bus.Completion
import Parley.Proofs.Bus.Desk
import Parley.Proofs.Bus.Run
import Parley.Proofs.Json.Fields
import Parley.Proofs.Store.MemoryLog

namespace Parley.Bus

open MemoryLog (backend)

def Event.verdict? (e : Event) : Option (String × Bool) :=
  match e.op, e.answer with
  | .decide _ id _ approved, .decided (.ok true) => some (id, approved)
  | _, _ => none

/-- The ids that an event of a send gave to the store, each with the decision its message
already carried: the sender's message has whatever the sender filled in, and what follows it
has none. -/
def Event.entered (e : Event) : List (String × Option Bool) :=
  match e.op, e.answer with
  | .send fresh m, .sent (.ok r) =>
    (m.id, m.approved) :: if r.escalated && !m.escalated then [(fresh.messageId, none)] else []
  | _, _ => []

def lastVerdict (events : List Event) (id : String) : Option Bool :=
  (events.filterMap Event.verdict?).reverse.lookup id

def sentVerdict (events : List Event) (id : String) : Option Bool :=
  ((events.flatMap Event.entered).lookup id).join

def storedVerdict (l : MemoryLog) (id : String) : Option Bool := (l.find? id).bind Message.approved

/-- For each id that was entered, the log has the last of the decisions on it, or else what its
message came with. -/
structure Stored (entries : List (String × Option Bool)) (verdicts : List (String × Bool))
    (l : MemoryLog) : Prop where
  sound : l.Sound
  approved : ∀ id, (l.find? id).map Message.approved =
    (entries.lookup id).map fun a => (verdicts.reverse.lookup id).or a
  known : ∀ id, entries.lookup id = none → verdicts.reverse.lookup id = none

variable {entries : List (String × Option Bool)} {verdicts : List (String × Bool)} {l : MemoryLog}

theorem stored_empty : Stored [] [] MemoryLog.empty :=
  ⟨MemoryLog.empty_sound, fun _ => rfl, fun _ _ => rfl⟩

theorem stored_append (h : Stored entries verdicts l) (m : Message) :
    Stored (entries ++ [(m.id, m.approved)]) verdicts (l.append m) := by
  refine ⟨MemoryLog.append_sound h.sound m, ?_, ?_⟩
  · intro id
    have ha := h.approved id
    rw [MemoryLog.find?_append h.sound, List.lookup_append]
    cases he : entries.lookup id with
    | some a =>
        rw [he, Option.map_some, Option.map_eq_some_iff] at ha
        obtain ⟨n, hn, hna⟩ := ha
        simp [hn, hna]
    | none =>
        rw [he, Option.map_none, Option.map_eq_none_iff] at ha
        by_cases hid : m.id = id
        · subst hid
          simp [ha, h.known m.id he]
        · simp [ha, hid, Fields.lookup_cons, Ne.symm hid]
  · intro id hid
    rw [List.lookup_append, Option.or_eq_none_iff] at hid
    exact h.known id hid.1

theorem stored_decide (h : Stored entries verdicts l) {id : String} (hid : l.holds id = true)
    (a : Approval) : Stored entries (verdicts ++ [(id, a.approved)]) (l.decide id a).2 := by
  have hk : (entries.lookup id).isSome := by
    have ha := congrArg Option.isSome (h.approved id)
    rw [Option.isSome_map, Option.isSome_map, MemoryLog.find?_isSome h.sound, hid] at ha
    exact ha.symm
  refine ⟨MemoryLog.decide_sound h.sound id a, ?_, ?_⟩
  · intro i
    have ha := h.approved i
    rw [MemoryLog.find?_decide h.sound, Option.map_map, List.reverse_append]
    by_cases hi : i = id
    · subst hi
      obtain ⟨b, hb⟩ := Option.isSome_iff_exists.mp hk
      rw [hb, Option.map_some, Option.map_eq_some_iff] at ha
      obtain ⟨n, hn, -⟩ := ha
      have hni := MemoryLog.find?_id h.sound hn
      simp [hn, hb, hni, MemoryLog.marked, Approval.apply]
    · have hsame : ∀ n, l.find? i = some n → (MemoryLog.marked id a n).approved = n.approved := by
        intro n hn
        have hni := MemoryLog.find?_id h.sound hn
        simp [MemoryLog.marked, hni, hi]
      have hlook : ([(id, a.approved)].reverse ++ verdicts.reverse).lookup i =
          verdicts.reverse.lookup i := by
        exact (Fields.lookup_cons id _ _ i).trans (if_neg hi)
      rw [hlook, ← ha]
      cases hn : l.find? i with
      | none => rfl
      | some n => simp [hsame n hn]
  · intro i hi
    have hne : i ≠ id := by
      rintro rfl
      rw [hi] at hk
      cases hk
    rw [List.reverse_append]
    exact ((Fields.lookup_cons id _ _ i).trans (if_neg hne)).trans (h.known i hi)

theorem stored_foldl_append (h : Stored entries verdicts l) (messages : List Message) :
    Stored (entries ++ messages.map fun m => (m.id, m.approved)) verdicts
      (messages.foldl .append l) := by
  induction messages generalizing entries l with
  | nil => simpa using h
  | cons m messages ih => simpa using ih (stored_append h m)

/-- Some decision on an id, or what its message came with, accounts for an outcome. -/
def Justified (events : List Event) (id : String) (o : Outcome) : Prop :=
  ∀ v, o = .ofVerdict v →
    (∃ e ∈ events, e.verdict? = some (id, v)) ∨ sentVerdict events id = some v

theorem justified_append {events : List Event} {id : String} {o : Outcome}
    (h : Justified events id o) (more : List Event) : Justified (events ++ more) id o := by
  intro v hv
  rcases h v hv with ⟨e, he, hev⟩ | hs
  · exact .inl ⟨e, List.mem_append_left more he, hev⟩
  · right
    rw [sentVerdict, Option.join_eq_some_iff] at hs ⊢
    rw [List.flatMap_append, List.lookup_append, hs, Option.some_or]

theorem justified_timedOut (events : List Event) (id : String) : Justified events id .timedOut := by
  intro v hv
  cases v <;> cases hv

theorem justified_cancelled (events : List Event) (id : String) :
    Justified events id .cancelled := by
  intro v hv
  cases v <;> cases hv

structure Told (events : List Event) (d : Desk) : Prop where
  listed : d.Listed
  backed : d.Backed (Justified events)
  started : ∀ id millis t, ⟨.wait id millis, .waiting t⟩ ∈ events → d.messageOf? t = some id

theorem told_empty : Told [] Desk.empty :=
  ⟨Desk.empty_listed, Desk.empty_backed, fun _ _ _ h => by cases h⟩

variable {events : List Event} {d d' : Desk}

theorem told_follows (h : Told events d) (e : Event) (hw : ∀ t, e.answer ≠ .waiting t)
    (hf : d.Follows d')
    (hb : d.Backed (Justified (events ++ [e])) → d'.Backed (Justified (events ++ [e]))) :
    Told (events ++ [e]) d' := by
  refine ⟨hf.listed h.listed, hb (h.backed.mono fun _ _ hj => justified_append hj [e]), ?_⟩
  intro id millis t ht
  rw [hf.messageOf? t]
  rcases List.mem_append.mp ht with ht | ht
  · exact h.started id millis t ht
  · rw [List.mem_singleton] at ht
    exact absurd (ht ▸ rfl) (hw t)

theorem told_same (h : Told events d) (e : Event) (hw : ∀ t, e.answer ≠ .waiting t) :
    Told (events ++ [e]) d :=
  told_follows h e hw (Desk.Follows.refl d) fun hb => hb

theorem told_settle (h : Told events d) (e : Event) (hw : ∀ t, e.answer ≠ .waiting t)
    (now : Nat) : Told (events ++ [e]) (d.settle now) :=
  told_follows h e hw (Desk.settle_follows d now)
    fun hb => Desk.settle_backed (justified_timedOut _) hb now

theorem told_notify (h : Told events d) (e : Event) (hw : ∀ t, e.answer ≠ .waiting t)
    {id : String} {o : Outcome} (ho : Justified (events ++ [e]) id o) (now : Nat) :
    Told (events ++ [e]) ((d.notify id o).2.settle now) :=
  told_follows h e hw ((Desk.notify_follows d id o).trans (Desk.settle_follows _ now))
    fun hb => Desk.settle_backed (justified_timedOut _) (Desk.notify_backed h.listed hb ho) now

theorem told_wait (h : Told events d) (id : String) (millis : Option Nat) (deadline now : Nat)
    (found : Except Error (Option Message))
    (hfound : ∀ m o, found = .ok (some m) → Outcome.ofMessage? m = some o →
      Justified events id o) :
    Told (events ++ [⟨.wait id millis, .waiting d.issued⟩])
      (((d.register id).2.lookedUp d.issued deadline found).settle now) := by
  have hl := Desk.register_listed h.listed id
  have hf := (Desk.lookedUp_follows (d.register id).2 d.issued deadline found).trans
    (Desk.settle_follows _ now)
  refine ⟨hf.listed hl, ?_, ?_⟩
  · have hb : d.Backed (Justified (events ++ [⟨.wait id millis, .waiting d.issued⟩])) :=
      h.backed.mono fun _ _ hj => justified_append hj _
    refine Desk.settle_backed (justified_timedOut _)
      (Desk.lookedUp_backed (Desk.register_backed hb id) _ _ _ ?_) now
    intro w m o hw hm ho
    have hid : w.message = id := by
      have hreg := Desk.register_messageOf? d id d.issued
      rw [Desk.messageOf?, hw, if_pos rfl] at hreg
      exact Option.some.inj hreg
    rw [hid]
    exact justified_append (hfound m o hm ho) _
  · intro i ms t ht
    rw [hf.messageOf? t, Desk.register_messageOf?]
    rcases List.mem_append.mp ht with ht | ht
    · have hold := h.started i ms t ht
      -- The ticket is a new one, so no wait that was started before has it.
      have hne : t ≠ d.issued := by
        rintro rfl
        rw [h.listed.unissued _ (Nat.le_refl _)] at hold
        cases hold
      rw [if_neg hne, hold]
    · rw [List.mem_singleton, Event.mk.injEq, Op.wait.injEq, Answer.waiting.injEq] at ht
      rw [if_pos ht.2, ht.1.1]

structure Accounted (r : Run MemoryLog) : Prop where
  stored : Stored (r.events.flatMap Event.entered) (r.events.filterMap Event.verdict?) r.bus.store
  told : Told r.events r.bus.desk

theorem accounted_new (settings : Settings) (trail : Option Audit.Trail) :
    Accounted ⟨[], new settings MemoryLog.empty trail⟩ :=
  ⟨stored_empty, told_empty⟩

variable {r : Run MemoryLog}

theorem justified_stored (h : Accounted r) {id : String} {m : Message} {o : Outcome}
    (hm : r.bus.store.find? id = some m) (ho : Outcome.ofMessage? m = some o) :
    Justified r.events id o := by
  rw [Outcome.ofMessage?, Option.map_eq_some_iff] at ho
  obtain ⟨u, hu, rfl⟩ := ho
  intro v hv
  obtain rfl := Outcome.ofVerdict_inj hv
  have ha := h.stored.approved id
  rw [hm, Option.map_some, hu, eq_comm, Option.map_eq_some_iff] at ha
  obtain ⟨a, hla, hor⟩ := ha
  rcases Option.or_eq_some_iff.mp hor with hv | ⟨-, hv⟩
  · left
    obtain ⟨l₁, l₂, hl, -⟩ := List.lookup_eq_some_iff.mp hv
    have hmem : (id, u) ∈ r.events.filterMap Event.verdict? := by
      rw [← List.mem_reverse, hl]
      simp
    obtain ⟨e, he, hev⟩ := List.mem_filterMap.mp hmem
    exact ⟨e, he, hev⟩
  · right
    rw [sentVerdict, hla, hv, Option.join_some]

theorem accounted_quiet (h : Accounted r) {e : Event} {bus : Bus MemoryLog}
    (he : e.entered = []) (hv : e.verdict? = none) (hs : bus.store = r.bus.store)
    (ht : Told (r.events ++ [e]) bus.desk) : Accounted ⟨r.events ++ [e], bus⟩ := by
  refine ⟨?_, ht⟩
  simpa [he, hv, hs] using h.stored

theorem entered_sent (bus : Bus MemoryLog) (fresh : Fresh) (m : Message) :
    Event.entered ⟨.send fresh m, .sent (.ok (bus.finished fresh (withThread m)).1)⟩ =
      ((bus.finished fresh (withThread m)).1 ::
        (bus.finished fresh (withThread m)).2.toList).map fun m => (m.id, m.approved) := by
  have hid : (bus.finished fresh (withThread m)).1.id = m.id := complete_id _ _ _ _
  have happ : (bus.finished fresh (withThread m)).1.approved = m.approved :=
    complete_approved _ _ _ _
  have hsome : (bus.finished fresh (withThread m)).2.isSome =
      ((bus.finished fresh (withThread m)).1.escalated && !m.escalated) :=
    complete_follower_isSome _ _ _ _
  rw [List.map_cons, hid, happ]
  simp only [Event.entered, List.cons.injEq, true_and]
  rw [← hsome]
  cases hf : (bus.finished fresh (withThread m)).2 with
  | none => rfl
  | some e =>
      obtain ⟨hei, hea⟩ := complete_follower hf
      simp [hei, hea]

theorem accounted_send (h : Accounted r) (fresh : Fresh) (m : Message) :
    Accounted (r.step backend (.send fresh m)) := by
  have hw (a : Except Error Message) (t : Nat) : Answer.sent a ≠ .waiting t := nofun
  cases hc : checked m with
  | error e =>
      have hs := send_of_flaw hc fresh r.bus
      simp only [Run.step, perform, answering, hs]
      exact accounted_quiet h rfl rfl rfl (told_same h.told _ (hw _))
  | ok n =>
      have hs := send_of_checked hc fresh r.bus
      obtain ⟨-, -, rfl⟩ := checked_eq_ok_iff.mp hc
      simp only [Run.step, perform, answering, hs]
      refine ⟨?_, ?_⟩
      · have hst := stored_foldl_append h.stored
          ((r.bus.finished fresh (withThread m)).1 :: (r.bus.finished fresh (withThread m)).2.toList)
        rw [List.flatMap_append, List.flatMap_singleton, List.filterMap_append, entered_sent,
          fanOutBoth_store, keepBoth_store]
        simpa [List.filterMap_cons, Event.verdict?] using hst
      · refine fanOutBoth_induction (Q := fun bus => Told _ bus.desk) ?_ _ _ ?_
        · intro bus millis history ht
          refine ⟨(Desk.settle_follows _ _).listed ht.listed,
            Desk.settle_backed (justified_timedOut _) ht.backed _, ?_⟩
          intro id ms t hmem
          exact ((Desk.settle_follows _ _).messageOf? t).trans (ht.started id ms t hmem)
        · rw [keepBoth_desk]
          exact told_same h.told _ (hw _)

theorem accounted_decide (h : Accounted r) (fresh : Fresh) (id approver : String)
    (approved : Bool) : Accounted (r.step backend (.decide fresh id approver approved)) := by
  have hw (a : Except Error Bool) (t : Nat) : Answer.decided a ≠ .waiting t := nofun
  have hisSome := MemoryLog.find?_isSome h.stored.sound id
  have hknown := MemoryLog.decide_fst h.stored.sound id ⟨approved, approver, fresh.time⟩
  simp only [Run.step, perform, answering]
  cases hf : r.bus.store.find? id with
  | none =>
      have hd : r.bus.decide backend fresh id approver approved = (.ok false, r.bus) := by
        simp [decide, backend, hf]
      rw [hd]
      exact accounted_quiet h rfl rfl rfl (told_same h.told _ (hw _))
  | some m =>
      rw [hf, Option.isSome_some] at hisSome
      rw [← hisSome] at hknown
      have hst := stored_decide h.stored hisSome.symm ⟨approved, approver, fresh.time⟩
      cases hl : r.bus.store.decide id ⟨approved, approver, fresh.time⟩ with
      | mk known l =>
      rw [hl] at hknown hst
      obtain rfl : known = true := hknown
      simp only [decide, backend, hf, hl]
      refine ⟨?_, ?_⟩
      · change Stored _ _ l
        simpa [Event.entered, Event.verdict?] using hst
      · refine told_notify h.told _ (hw _) ?_ _
        intro v hv
        obtain rfl := Outcome.ofVerdict_inj hv
        exact .inl ⟨_, List.mem_append_right _ (List.mem_singleton_self _), rfl⟩

theorem accounted_wait (h : Accounted r) (id : String) (millis : Option Nat) :
    Accounted (r.step backend (.wait id millis)) := by
  simp only [Run.step, perform, answering]
  refine accounted_quiet h rfl rfl rfl (told_wait h.told id millis _ _ _ ?_)
  intro m o hm ho
  exact justified_stored h (Except.ok.inj hm) ho

theorem accounted_step (h : Accounted r) (op : Op) : Accounted (r.step backend op) := by
  cases op with
  | send fresh m => exact accounted_send h fresh m
  | decide fresh id approver approved => exact accounted_decide h fresh id approver approved
  | wait id millis => exact accounted_wait h id millis
  | await ticket =>
      simp only [Run.step, perform, answering, await]
      split
      · exact accounted_quiet h rfl rfl rfl (told_settle h.told _ (by intro t ht; cases ht) _)
      · exact accounted_quiet h rfl rfl rfl (told_same h.told _ (by intro t ht; cases ht))
  | cancel id =>
      exact accounted_quiet h rfl rfl rfl
        (told_notify h.told _ (by intro t ht; cases ht) (justified_cancelled _ _) _)
  | abandon ticket =>
      exact accounted_quiet h rfl rfl rfl
        (told_follows h.told _ (by intro t ht; cases ht) (Desk.abandon_follows _ ticket)
          fun hb => Desk.abandon_backed hb ticket)
  | advance millis =>
      exact accounted_quiet h rfl rfl rfl (told_settle h.told _ (by intro t ht; cases ht) _)
  | flushTrail =>
      simp only [Run.step, perform, answering, flushTrail]
      split <;> exact accounted_quiet h rfl rfl rfl (told_same h.told _ (by intro t ht; cases ht))
  | subscribe | unsubscribe | thread | messagesOf | pendingOf | health =>
      exact accounted_quiet h rfl rfl rfl (told_same h.told _ (by intro t ht; cases ht))

theorem accounted_run (settings : Settings) (trail : Option Audit.Trail) (ops : List Op) :
    Accounted (run backend (new settings MemoryLog.empty trail) ops) :=
  run_induction (accounted_new settings trail) (fun _ op h => accounted_step h op) ops

theorem storedVerdict_eq (h : Accounted r) (id : String) :
    storedVerdict r.bus.store id =
      (lastVerdict r.events id).or (sentVerdict r.events id) := by
  have ha := h.stored.approved id
  cases he : (r.events.flatMap Event.entered).lookup id with
  | none =>
      rw [he, Option.map_none, Option.map_eq_none_iff] at ha
      rw [storedVerdict, ha, lastVerdict, h.stored.known id he, sentVerdict, he]
      rfl
  | some a =>
      rw [he, Option.map_some, Option.map_eq_some_iff] at ha
      obtain ⟨m, hm, hma⟩ := ha
      rw [storedVerdict, hm, Option.bind_some, hma, sentVerdict, he, Option.join_some, lastVerdict]

theorem justified_await (h : Accounted r) {id : String} {millis : Option Nat} {t : Nat}
    {o : Outcome} (hw : ⟨.wait id millis, .waiting t⟩ ∈ r.events)
    (ho : (r.bus.await t).1 = some (.ok o)) : Justified r.events id o := by
  have hs := accounted_step h (.await t)
  have hid : (r.bus.await t).2.desk.messageOf? t = some id :=
    hs.told.started id millis t (List.mem_append_left _ hw)
  have hj := Desk.answer?_backed hs.told.backed hid ho
  intro v hv
  rcases hj v hv with ⟨e, he, hev⟩ | hsent
  · rcases List.mem_append.mp he with he | he
    · exact .inl ⟨e, he, hev⟩
    · rw [List.mem_singleton] at he
      subst he
      cases hev
  · right
    simpa [Run.step, perform, answering, sentVerdict, Event.entered] using hsent

/-- What a tenant sent is pending as long as neither a decision was put on it nor it came with
one. -/
theorem pendingOf_eq (h : Accounted r) (tenant : String) :
    (r.bus.pendingOf backend tenant).1 = .ok (r.bus.store.log.filter fun m =>
      m.fromTenant = tenant &&
        ((lastVerdict r.events m.id).or (sentVerdict r.events m.id)).isNone) := by
  have hlist : (r.bus.pendingOf backend tenant).1 = .ok ((r.bus.store.ofTenant tenant).filter
      fun m => m.fromTenant = tenant && m.awaitsDecision) := rfl
  rw [hlist, MemoryLog.ofTenant, List.filter_filter]
  congr 1
  apply List.filter_congr
  intro m hm
  have hv := storedVerdict_eq h m.id
  rw [storedVerdict, MemoryLog.find?_of_mem h.stored.sound hm, Option.bind_some] at hv
  rw [← hv]
  by_cases hf : m.fromTenant = tenant <;> simp [hf, Message.concerns, Message.awaitsDecision]

/-- Where the decision on a message comes from, for every run of a bus that starts with an empty
log. The store has the last decision that was put on an id, or else the one its message came
with; so it has exactly the decisions that were put on the id as long as the message came with
none or a later decision covers it. -/
theorem approval_provenance (settings : Settings) (trail : Option Audit.Trail) (ops : List Op) :
    let r := run backend (new settings MemoryLog.empty trail) ops
    (∀ id, storedVerdict r.bus.store id =
      (lastVerdict r.events id).or (sentVerdict r.events id)) ∧
    (∀ id, (∀ b, storedVerdict r.bus.store id = some b ↔ lastVerdict r.events id = some b) ↔
      (sentVerdict r.events id = none ∨ lastVerdict r.events id ≠ none)) ∧
    (∀ tenant, (r.bus.pendingOf backend tenant).1 = .ok (r.bus.store.log.filter fun m =>
      m.fromTenant = tenant &&
        ((lastVerdict r.events m.id).or (sentVerdict r.events m.id)).isNone)) ∧
    ∀ id millis t v, ⟨.wait id millis, .waiting t⟩ ∈ r.events →
      (r.bus.await t).1 = some (.ok (.ofVerdict v)) →
      (∃ e ∈ r.events, e.verdict? = some (id, v)) ∨ sentVerdict r.events id = some v := by
  intro r
  have h : Accounted r := accounted_run settings trail ops
  refine ⟨storedVerdict_eq h, ?_, pendingOf_eq h, ?_⟩
  · intro id
    rw [storedVerdict_eq h id]
    cases hl : lastVerdict r.events id with
    | some v => simp
    | none => cases hs : sentVerdict r.events id <;> simp
  · intro id millis t v hw ha
    exact justified_await h hw ha v rfl

def decidedQuestion : Message :=
  { Message.new "q" ⟨0, 0, 0⟩ "auditor" "auditee" "agent" .question "Why?" with
    approved := some true }

/-- No human ever decided, yet the message is stored as approved, does not wait for a decision,
and whoever waits for one is told that it is approved. -/
theorem approval_provenance_broken :
    let r := run backend (new .standard MemoryLog.empty none)
      [.send ⟨⟨0, 0, 0⟩, "e", "a", "b"⟩ decidedQuestion, .wait "q" none]
    storedVerdict r.bus.store "q" = some true ∧ lastVerdict r.events "q" = none ∧
    (r.bus.pendingOf backend "auditor").1 = .ok [] ∧
    (r.bus.await 0).1 = some (.ok .approved) := by
  refine ⟨by decide +kernel, by decide +kernel, ?_, ?_⟩
  · rfl
  · rfl

end Parley.Bus
