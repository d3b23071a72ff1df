import Parley.Proofs.Bus.Views

namespace Parley.Bus

open MemoryLog (backend)

def Event.made? (e : Event) : Option (String × String) :=
  match e.op, e.answer with
  | .send fresh m, .sent (.ok r) =>
    if r.escalated && !m.escalated then some (m.id, fresh.messageId) else none
  | _, _ => none

def made (events : List Event) : List (String × String) := events.filterMap Event.made?

/-- The messages of a log, each by what it follows and by its own id. -/
def lineage (l : MemoryLog) : List (Option String × String) :=
  l.log.map fun n => (n.parent, n.id)

/-- The messages with the ids of the second places are in the log one for each pair, in their
order, and follow what the first places say. -/
def Traces (pairs : List (String × String)) (l : MemoryLog) : Prop :=
  (lineage l).filter (fun p => p.2 ∈ pairs.map Prod.snd) = pairs.map fun p => (some p.1, p.2)

def Unused (id : String) (l : MemoryLog) : Prop := ∀ n ∈ l.log, n.id ≠ id

/-- Every send of some operations has an id of its own for what is to follow its message. -/
def Apart (bus : Bus MemoryLog) : List Op → Prop
  | [] => True
  | op :: ops =>
    (∀ fresh m, op = .send fresh m → fresh.messageId ≠ m.id ∧ Unused fresh.messageId bus.store) ∧
      Apart (bus.perform backend op).2 ops

variable {settings : Settings} {bus : Bus MemoryLog} {past : Run MemoryLog} {l l' : MemoryLog}
  {pairs : List (String × String)} {fresh : Fresh} {m r : Message} {follower : Option Message}

theorem holds_iff {id : String} : l.holds id = true ↔ id ∈ (lineage l).map Prod.snd := by
  simp [MemoryLog.holds, lineage]

theorem unused_iff {id : String} : Unused id l ↔ id ∉ (lineage l).map Prod.snd := by
  simp [Unused, lineage]

theorem traces_nil (l : MemoryLog) : Traces [] l :=
  List.filter_eq_nil_iff.mpr fun _ _ => by simp

theorem Traces.mem (h : Traces pairs l) {id : String} (hid : id ∈ pairs.map Prod.snd) :
    id ∈ (lineage l).map Prod.snd := by
  obtain ⟨p, hp, rfl⟩ := List.mem_map.mp hid
  have hmem : (some p.1, p.2) ∈ pairs.map fun p => (some p.1, p.2) := List.mem_map_of_mem hp
  rw [← h] at hmem
  exact List.mem_map_of_mem (List.mem_of_mem_filter hmem)

theorem Traces.grow (h : Traces pairs l) {extra : List (Option String × String)}
    {added : List (String × String)}
    (hl : lineage l' = lineage l ++ extra ++ added.map fun p => (some p.1, p.2))
    (hextra : ∀ p ∈ extra, p.2 ∉ (lineage l).map Prod.snd ∧ p.2 ∉ added.map Prod.snd)
    (hadded : ∀ p ∈ added, p.2 ∉ (lineage l).map Prod.snd) : Traces (pairs ++ added) l' := by
  have hold : (lineage l).filter (fun p => p.2 ∈ (pairs ++ added).map Prod.snd) =
      (lineage l).filter (fun p => p.2 ∈ pairs.map Prod.snd) := by
    apply List.filter_congr
    intro p hp
    have hnot : p.2 ∉ added.map Prod.snd := by
      intro hmem
      obtain ⟨q, hq, hqp⟩ := List.mem_map.mp hmem
      exact hadded q hq (hqp ▸ List.mem_map_of_mem hp)
    rw [List.map_append, decide_eq_decide, List.mem_append, or_iff_left hnot]
  have hdropped : extra.filter (fun p => p.2 ∈ (pairs ++ added).map Prod.snd) = [] := by
    rw [List.filter_eq_nil_iff]
    intro p hp
    rw [decide_eq_true_eq, List.map_append, List.mem_append]
    rintro (hmem | hmem)
    · exact (hextra p hp).1 (h.mem hmem)
    · exact (hextra p hp).2 hmem
  have hkept : (added.map fun p => (some p.1, p.2)).filter
      (fun p => p.2 ∈ (pairs ++ added).map Prod.snd) = added.map fun p => (some p.1, p.2) := by
    rw [List.filter_eq_self]
    intro q hq
    obtain ⟨p, hp, rfl⟩ := List.mem_map.mp hq
    rw [decide_eq_true_eq, List.map_append, List.mem_append]
    exact .inr (List.mem_map_of_mem hp)
  rw [Traces, hl, List.filter_append, List.filter_append, hold, hdropped, hkept, h,
    List.append_nil, List.map_append]

theorem finished_follower {e : Message} (h : (bus.finished fresh (withThread m)).2 = some e) :
    e.id = fresh.messageId ∧ e.parent = some m.id := by
  obtain ⟨reason, -, hfollower⟩ := complete_follows fresh m _ e h
  exact ⟨hfollower.origin.1, hfollower.place.2.2⟩

theorem made?_sent (h : bus.finished fresh (withThread m) = (r, follower)) :
    Event.made? ⟨.send fresh m, .sent (.ok r)⟩ = follower.map fun e => (m.id, e.id) := by
  have hsome : (bus.finished fresh (withThread m)).2.isSome =
      ((bus.finished fresh (withThread m)).1.escalated && !m.escalated) :=
    complete_follower_isSome _ _ _ _
  have hid (e : Message) (he : (bus.finished fresh (withThread m)).2 = some e) :
      e.id = fresh.messageId := (finished_follower he).1
  rw [h] at hsome hid
  simp only [Event.made?, ← hsome]
  cases follower with
  | none => rfl
  | some e => simp [hid e rfl]

theorem made?_of_quiet {e : Event} (h : ∀ fresh m r, e ≠ ⟨.send fresh m, .sent (.ok r)⟩) :
    e.made? = none := by
  obtain ⟨op, answer⟩ := e
  cases op with
  | send fresh m =>
      cases answer with
      | sent result =>
          cases result with
          | ok r => exact absurd rfl (h fresh m r)
          | error => rfl
      | _ => rfl
  | _ => rfl

theorem perform_cases (h : bus.store.Sound) (op : Op) :
    (∃ fresh m r follower, op = .send fresh m ∧ (bus.perform backend op).1 = .sent (.ok r) ∧
      checked m = .ok (withThread m) ∧ bus.finished fresh (withThread m) = (r, follower) ∧
      (bus.perform backend op).2.store = (r :: follower.toList).foldl .append bus.store) ∨
    (∀ fresh m r, (⟨op, (bus.perform backend op).1⟩ : Event) ≠ ⟨.send fresh m, .sent (.ok r)⟩) ∧
      lineage (bus.perform backend op).2.store = lineage bus.store := by
  cases op with
  | send fresh m =>
      cases hc : checked m with
      | error e =>
          right
          simp [perform, answering, send_of_flaw hc]
      | ok n =>
          obtain ⟨-, -, rfl⟩ := checked_eq_ok_iff.mp hc
          left
          simp only [perform, answering, send_of_checked hc, fanOutBoth_store, keepBoth_store]
          exact ⟨fresh, m, _, _, rfl, rfl, hc, rfl, rfl⟩
  | decide fresh id approver approved =>
      refine .inr ⟨by simp, ?_⟩
      simp only [perform, answering]
      rcases (decide_frame fresh id approver approved bus).2 with hs | hs
      · rw [hs]
      · rw [hs, lineage, lineage, MemoryLog.decide_log h, List.map_map]
        apply List.map_congr_left
        intro n _
        by_cases hn : n.id = id <;> simp [MemoryLog.marked, hn, Approval.apply]
  | await ticket =>
      refine .inr ⟨by simp, ?_⟩
      simp only [perform, answering, await]
      split <;> rfl
  | flushTrail =>
      refine .inr ⟨by simp, ?_⟩
      simp only [perform, answering, flushTrail]
      split <;> rfl
  | _ => exact .inr ⟨by simp, rfl⟩

structure Sent (settings : Settings) (past : Run MemoryLog) : Prop where
  sound : past.bus.store.Sound
  settings : past.bus.settings = settings
  fit : ∀ fresh m r, ⟨.send fresh m, .sent (.ok r)⟩ ∈ past.events →
    checked m = .ok (withThread m)
  holds : ∀ fresh m r, ⟨.send fresh m, .sent (.ok r)⟩ ∈ past.events →
    past.bus.store.holds m.id = true

theorem Sent.step (h : Sent settings past) (op : Op) : Sent settings (past.step backend op) := by
  have hsound := perform_sound h.sound op
  have hset := (perform_settings op past.bus).trans h.settings
  have hkept (id : String) (hid : past.bus.store.holds id = true) :
      (past.step backend op).bus.store.holds id = true := by
    change (past.bus.perform backend op).2.store.holds id = true
    rcases perform_cases h.sound op with ⟨_, _, r, follower, -, -, -, -, hstore⟩ | ⟨-, hlineage⟩
    · rw [hstore, MemoryLog.holds_foldl_append h.sound, hid, Bool.true_or]
    · rwa [holds_iff, hlineage, ← holds_iff]
  -- An event is an old one, or that of a send which put its message into the log just now.
  have hevent (f : Fresh) (n s : Message)
      (hmem : ⟨.send f n, .sent (.ok s)⟩ ∈ (past.step backend op).events) :
      ⟨.send f n, .sent (.ok s)⟩ ∈ past.events ∨
        checked n = .ok (withThread n) ∧ (past.step backend op).bus.store.holds n.id = true := by
    refine (List.mem_append.mp hmem).imp_right fun hmem => ?_
    have heq := List.mem_singleton.mp hmem
    rcases perform_cases h.sound op with
      ⟨fresh, m, r, follower, rfl, -, hc, hfinished, hstore⟩ | ⟨hquiet, -⟩
    · rw [Event.mk.injEq, Op.send.injEq] at heq
      obtain ⟨⟨-, rfl⟩, -⟩ := heq
      have hid : r.id = n.id := finished_id hfinished
      refine ⟨hc, ?_⟩
      change (past.bus.perform backend _).2.store.holds n.id = true
      rw [hstore, MemoryLog.holds_foldl_append h.sound]
      simp [hid]
    · exact absurd heq.symm (hquiet f n s)
  refine ⟨hsound, hset, ?_, ?_⟩
  · intro f n s hmem
    exact (hevent f n s hmem).elim (h.fit f n s) And.left
  · intro f n s hmem
    exact (hevent f n s hmem).elim (fun hold => hkept _ (h.holds f n s hold)) And.right

theorem Sent.traces (h : Sent settings past) {op : Op} (hmade : Traces (made past.events) past.bus.store)
    (hfresh : ∀ fresh m, op = .send fresh m →
      fresh.messageId ≠ m.id ∧ Unused fresh.messageId past.bus.store) :
    Traces (made (past.step backend op).events) (past.step backend op).bus.store := by
  have hevents : made (past.step backend op).events = made past.events ++
      (Event.made? ⟨op, (past.bus.perform backend op).1⟩).toList := by
    rw [Run.step, made, List.filterMap_append]
    cases he : Event.made? ⟨op, (past.bus.perform backend op).1⟩ <;> simp [made, he]
  rw [hevents]
  change Traces _ (past.bus.perform backend op).2.store
  rcases perform_cases h.sound op with
    ⟨fresh, m, r, follower, rfl, hanswer, -, hfinished, hstore⟩ | ⟨hquiet, hlineage⟩
  · obtain ⟨hne, hunused⟩ := hfresh fresh m rfl
    have hid : r.id = m.id := finished_id hfinished
    have hfollower (e : Message) (he : follower = some e) :
        e.id = fresh.messageId ∧ e.parent = some m.id :=
      finished_follower ((congrArg Prod.snd hfinished).trans he)
    have hlog := append_both_log h.sound r follower fun e he => by
      rw [(hfollower e he).1, hid]
      exact ⟨hne, hunused⟩
    rw [hanswer, made?_sent hfinished]
    have hadded : ∀ p ∈ (follower.map fun e => (m.id, e.id)).toList, p.2 = fresh.messageId := by
      cases follower with
      | none => exact List.forall_mem_nil _
      | some e => simpa using (hfollower e rfl).1
    have hlineage : lineage ((r :: follower.toList).foldl .append past.bus.store) =
        lineage past.bus.store ++ (if past.bus.store.holds r.id then [] else [(r.parent, r.id)]) ++
          (follower.map fun e => (m.id, e.id)).toList.map fun p => (some p.1, p.2) := by
      rw [lineage, hlog, List.map_append, List.map_append]
      congr 1
      · cases past.bus.store.holds r.id <;> rfl
      · cases follower with
        | none => rfl
        | some e => simp [hfollower e rfl]
    refine hmade.grow (hstore ▸ hlineage) ?_ ?_
    · intro p hp
      cases hheld : past.bus.store.holds r.id with
      | true => simp [hheld] at hp
      | false =>
          obtain rfl : p = (r.parent, r.id) := by simpa [hheld] using hp
          refine ⟨by rw [← holds_iff, hheld]; exact Bool.false_ne_true, ?_⟩
          intro hmem
          obtain ⟨q, hq, hqr⟩ := List.mem_map.mp hmem
          exact hne (by rw [← hadded q hq, hqr, hid])
    · intro p hp
      rw [hadded p hp]
      exact unused_iff.mp hunused
  · rw [made?_of_quiet hquiet, Option.toList_none, List.append_nil, Traces, hlineage]
    exact hmade

theorem sent_run (settings : Settings) (earlier : List Backend.Op) (trail : Option Audit.Trail)
    (ops : List Op) : Sent settings
      (run backend (new settings (backend.runAll MemoryLog.empty earlier).2 trail) ops) := by
  refine run_induction ?_ (fun _ op h => h.step op) ops
  exact ⟨MemoryLog.runAll_sound MemoryLog.empty_sound earlier, rfl,
    fun _ _ _ h => absurd h List.not_mem_nil, fun _ _ _ h => absurd h List.not_mem_nil⟩

theorem Sent.traces_foldl (h : Sent settings past) (hmade : Traces (made past.events) past.bus.store)
    {ops : List Op} (hapart : Apart past.bus ops) :
    Traces (made (ops.foldl (Run.step backend) past).events)
      (ops.foldl (Run.step backend) past).bus.store := by
  induction ops generalizing past with
  | nil => exact hmade
  | cons op ops ih => exact ih (h.step op) (h.traces hmade hapart.1) hapart.2

/-- A message that was sent is never stored again, but each further send of it stores one more
message that follows it, if it is due to a human. So over a whole run the log has, for each send of
such a message, one that follows it. -/
theorem resend_log (settings : Settings) (earlier : List Backend.Op) (trail : Option Audit.Trail)
    (ops : List Op) (past : Run MemoryLog)
    (hpast : past = run backend (new settings (backend.runAll MemoryLog.empty earlier).2 trail) ops) :
    (∀ first m sent again, ⟨.send first m, .sent (.ok sent)⟩ ∈ past.events →
      Unused again.messageId past.bus.store →
      ∃ r bus' follower, past.bus.send backend again m = (.ok r, bus') ∧
        bus'.store.log = past.bus.store.log ++ follower.toList ∧
        (follower.isSome = true ↔ ∃ reason, Due settings m reason) ∧
        ∀ e, follower = some e → e.id = again.messageId ∧ e.parent = some m.id) ∧
    (Apart (new settings (backend.runAll MemoryLog.empty earlier).2 trail) ops →
      Traces (made past.events) past.bus.store) := by
  have hsent : Sent settings past := hpast ▸ sent_run settings earlier trail ops
  refine ⟨?_, ?_⟩
  · intro first m sent again hmem hunused
    have hc := hsent.fit first m sent hmem
    have hheld := hsent.holds first m sent hmem
    have hid : (past.bus.finished again (withThread m)).1.id = m.id := finished_id rfl
    have hdue : (past.bus.finished again (withThread m)).2.isSome = true ↔
        ∃ reason, Due settings m reason := by
      rw [finished, hsent.settings]
      exact complete_isSome_iff again m _
    refine ⟨_, _, (past.bus.finished again (withThread m)).2, send_of_checked hc again past.bus, ?_,
      hdue, fun e he => finished_follower he⟩
    rw [fanOutBoth_store, keepBoth_store, append_both_log hsent.sound, hid, hheld, if_pos rfl,
      List.append_nil]
    intro e he
    rw [(finished_follower he).1, hid]
    obtain ⟨n, hn, hnid⟩ := List.any_eq_true.mp hheld
    exact ⟨fun heq => hunused n hn ((of_decide_eq_true hnid).trans heq.symm), hunused⟩
  · intro hapart
    subst hpast
    exact (sent_run settings earlier trail []).traces_foldl (traces_nil _) hapart

def otherFresh : Fresh := ⟨⟨1, 0, 0⟩, "f", "c", "d"⟩

def unsureOps : List Op := [.send someFresh unsureQuestion, .send otherFresh unsureQuestion]

def unsureRun : Run MemoryLog := run backend (new .standard MemoryLog.empty none) (unsureOps.take 1)

theorem unused_otherFresh : Unused otherFresh.messageId unsureRun.bus.store := by
  rw [unused_iff]
  decide +kernel

theorem resend_log_unsure :
    (∃ sent, ⟨.send someFresh unsureQuestion, .sent (.ok sent)⟩ ∈ unsureRun.events) ∧
    Unused otherFresh.messageId unsureRun.bus.store ∧
    (∃ r bus' e, unsureRun.bus.send backend otherFresh unsureQuestion = (.ok r, bus') ∧
      bus'.store.log = unsureRun.bus.store.log ++ [e] ∧ e.parent = some unsureQuestion.id) ∧
    Apart (new .standard MemoryLog.empty none) unsureOps ∧
    Traces [("q", "e"), ("q", "f")]
      (run backend (new .standard MemoryLog.empty none) unsureOps).bus.store := by
  have hsent : ∃ sent, ⟨.send someFresh unsureQuestion, .sent (.ok sent)⟩ ∈ unsureRun.events :=
    ⟨_, List.mem_singleton_self _⟩
  have hapart : Apart (new .standard MemoryLog.empty none) unsureOps := by
    refine ⟨?_, ?_, trivial⟩
    · rintro fresh m ⟨⟩
      exact ⟨by decide, List.forall_mem_nil _⟩
    · rintro fresh m ⟨⟩
      exact ⟨by decide, unused_otherFresh⟩
  refine ⟨hsent, unused_otherFresh, ?_, hapart, ?_⟩
  · obtain ⟨sent, hsent⟩ := hsent
    obtain ⟨hagain, -⟩ := resend_log .standard [] none (unsureOps.take 1) unsureRun rfl
    obtain ⟨r, bus', follower, hr, hlog, hdue, hfollower⟩ :=
      hagain _ _ _ _ hsent unused_otherFresh
    obtain ⟨e, rfl⟩ := Option.isSome_iff_exists.mp
      (hdue.mpr ⟨.lowConfidence, rfl, .inl ⟨⟨0.5, rfl, by decide⟩, rfl⟩⟩)
    exact ⟨r, bus', e, hr, hlog, (hfollower e rfl).2⟩
  · exact (resend_log .standard [] none unsureOps _ rfl).2 hapart

theorem resent_followed_twice :
    (∃ sent, ⟨.send someFresh unsureQuestion, .sent (.ok sent)⟩ ∈ unsureRun.events) ∧
    (∃ r, (unsureRun.bus.send backend otherFresh unsureQuestion).1 = .ok r) ∧
    lineage unsureRun.bus.store = [(none, "q"), (some "q", "e")] ∧
    lineage (unsureRun.bus.send backend otherFresh unsureQuestion).2.store =
      [(none, "q"), (some "q", "e"), (some "q", "f")] :=
  ⟨⟨_, List.mem_singleton_self _⟩, ⟨_, rfl⟩, by decide +kernel, by decide +kernel⟩

end Parley.Bus
