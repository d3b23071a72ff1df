import Parley.Proofs.Audit.Session
import Parley.Proofs.Bus.Pipeline
import Parley.Proofs.Store.Keeping

namespace Parley.Bus

open Audit (Trail Entry)

variable {σ : Type}

structure Records (m : Message) (e : Entry) : Prop where
  tenant : e.deed.tenant = m.fromTenant
  actor : e.deed.actor = .agent m.fromAgent
  action : e.deed.action = .create
  resourceType : e.deed.resourceType = "dialogue_message"
  resource : e.deed.resourceId = m.id
  kind : e.deed.details.find? "message_type" = some (encode m.kind)
  receiver : e.deed.details.find? "to_tenant" = some (.str m.toTenant)
  thread : e.deed.details.find? "thread_id" = some (.str m.threadId)
  escalated : e.deed.details.find? "is_escalated" = some (.bool m.escalated)
  quality : e.deed.details.find? "quality_score" = m.quality.map Json.float
  confidence : e.deed.confidence = m.confidence

theorem records_of_deed {m : Message} {e : Entry} (h : e.deed = creation m) : Records m e := by
  have hquality : e.deed.details.find? "quality_score" = m.quality.map Json.float := by
    rw [h, creation]
    cases m.quality <;> rfl
  constructor
  case quality => exact hquality
  case receiver | thread =>
    rw [h, creation]
    cases m.quality <;> rfl
  all_goals rw [h]; rfl

/-- A trail that went on with one entry for each message, in their order. -/
def Extended (messages : List Message) (t t' : Trail) : Prop :=
  ∃ es : List Entry, t'.buffer = t.buffer ++ es ∧ List.Forall₂ Records messages es ∧
    Entry.verify t.lastHash es = true ∧ t'.lastHash = Entry.lastHash t.lastHash es

/-- Who is to get which message: every subscriber of the tenant it is for, in the order in
which they subscribed. -/
def addressees (bus : Bus σ) (messages : List Message) : List (Subscriber × Message) :=
  messages.flatMap fun m => (bus.subscribersOf m.toTenant).map fun s => (s, m)

def handedOut (bus : Bus σ) (messages : List Message) : List Delivery :=
  (bus.addressees messages).mapIdx fun i p => ⟨p.1.name, p.1.noticesOnly, p.2,
    handling bus.settings.subscriberMillis (p.1.reaction (bus.history.length + i))⟩

/-- The state in which the thread of a message has been read, if the message needs that. -/
def Read (b : Backend σ) (m : Message) (store : σ) (thread : List Message) (s : σ) : Prop :=
  if m.kind = .answer then b.thread m.threadId store = (.ok thread, s) else s = store

structure Finalized (s : Settings) (fresh : Fresh) (thread : List Message) (m r : Message)
    (follower : Option Message) : Prop where
  sendable : Sendable m
  returned : Returned s thread (follower.bind Message.reason) m r
  due : follower.isSome = true ↔ ∃ reason, Due s m reason
  follows : ∀ e, follower = some e → ∃ reason, Due s m reason ∧ Follower s fresh reason m e

/-- How a send may go: the call that fails, if one does, with what is answered and what is
left. -/
inductive Course (b : Backend σ) (log : σ → List Message) (fresh : Fresh) (m : Message)
    (bus : Bus σ) : Except Error Message → Bus σ → Prop
  | flawed (e : Error) (hm : ¬ Sendable m) : Course b log fresh m bus (.error e) bus
  | unread (e : Error) (s : σ) (hm : Sendable m) (hk : m.kind = .answer)
      (hfails : b.thread m.threadId bus.store = (.error e, s)) (hlog : log s = log bus.store) :
      Course b log fresh m bus (.error e) { bus with store := s }
  | unstored (e : Error) (thread : List Message) (r : Message) (follower : Option Message)
      (s s' : σ) (hread : Read b m bus.store thread s)
      (hr : Finalized bus.settings fresh thread m r follower)
      (hfails : b.append r s = (.error e, s')) (hlog : log s' = log bus.store) :
      Course b log fresh m bus (.error e) { bus with store := s' }
  | unfollowed (e : Error) (thread : List Message) (r follower : Message) (s s' s'' : σ)
      (trail : Option Trail) (hread : Read b m bus.store thread s)
      (hr : Finalized bus.settings fresh thread m r (some follower))
      (hstored : b.append r s = (.ok (), s')) (hfails : b.append follower s' = (.error e, s''))
      (hlog : log s'' = log bus.store ++ [r]) (htrail : Option.Rel (Extended [r]) bus.trail trail) :
      Course b log fresh m bus (.error e) { bus with store := s'', trail }
  | done (thread : List Message) (r : Message) (follower : Option Message) (s : σ) (bus' : Bus σ)
      (hread : Read b m bus.store thread s)
      (hr : Finalized bus.settings fresh thread m r follower)
      (hlog : log bus'.store = log bus.store ++ r :: follower.toList)
      (htrail : Option.Rel (Extended (r :: follower.toList)) bus.trail bus'.trail)
      (hhistory : bus'.history = bus.history ++ bus.handedOut (r :: follower.toList)) :
      Course b log fresh m bus (.ok r) bus'

variable {b : Backend σ} {log : σ → List Message} {Sound : σ → Prop} {bus bus' : Bus σ}
  {fresh : Fresh} {m : Message} {messages : List Message} {t t' : Trail}

theorem Extended.refl (t : Trail) : Extended [] t t :=
  ⟨[], (List.append_nil _).symm, .nil, rfl, rfl⟩

theorem Extended.record (h : Extended messages t t') (id : String) (time : Time.Instant)
    (m : Message) : Extended (messages ++ [m]) t (t'.record id time (creation m)).2 := by
  obtain ⟨es, hbuffer, hrecords, hverify, hlast⟩ := h
  have hentry : t'.entryFor id time (creation m) =
      Entry.after (Entry.lastHash t.lastHash es) ⟨id, time, creation m, "", ""⟩ := by
    rw [← hlast]
    rfl
  refine ⟨es ++ [t'.entryFor id time (creation m)], ?_, ?_, ?_, ?_⟩
  · simp only [Trail.record, Trail.push, hbuffer, List.append_assoc]
  · exact List.rel_append hrecords (.cons (records_of_deed rfl) .nil)
  · rw [hentry, Entry.verify_snoc]
    exact hverify
  · rw [Entry.lastHash_snoc]
    rfl

/-- A bus that stored and recorded some messages, and did nothing else. -/
structure Grown (log : σ → List Message) (Sound : σ → Prop) (messages : List Message)
    (bus bus' : Bus σ) : Prop where
  frame : bus' = { bus with store := bus'.store, trail := bus'.trail }
  sound : Sound bus'.store
  log : log bus'.store = log bus.store ++ messages
  trail : Option.Rel (Extended messages) bus.trail bus'.trail

theorem Grown.of_read {s : σ} (hs : Sound s) (hlog : log s = log bus.store) :
    Grown log Sound [] bus { bus with store := s } where
  frame := rfl
  sound := hs
  log := by rw [hlog, List.append_nil]
  trail := by
    cases bus.trail with
    | none => exact .none
    | some t => exact .some (.refl t)

theorem Grown.record (h : Grown log Sound messages bus bus') {s : σ} (hs : Sound s)
    (hlog : log s = log bus'.store ++ [m]) (id : String) (time : Time.Instant) :
    Grown log Sound (messages ++ [m]) bus
      (Bus.record id time (creation m) { bus' with store := s }) where
  frame := by
    rw [h.frame]
    rfl
  sound := hs
  log := by
    rw [← List.append_assoc, ← h.log]
    exact hlog
  trail := by
    obtain ⟨-, -, -, htrail⟩ := h
    simp only [Bus.record]
    generalize bus.trail = trail, bus'.trail = trail' at htrail
    cases htrail with
    | none => exact .none
    | some h => exact .some (h.record id time m)

theorem Grown.post_cases (hb : b.Keeps log Sound) (h : Grown log Sound messages bus bus')
    (hnew : ∀ n ∈ log bus.store ++ messages, n.id ≠ m.id) (id : String) (time : Time.Instant) :
    (∃ e s, b.append m bus'.store = (.error e, s) ∧ log s = log bus.store ++ messages ∧
      bus'.post b id time m = (.error e, { bus' with store := s })) ∨
    ∃ bus'', b.append m bus'.store = (.ok (), bus''.store) ∧
      Grown log Sound (messages ++ [m]) bus bus'' ∧ bus'.post b id time m = (.ok (), bus'') := by
  rw [← h.log] at hnew ⊢
  have hsound := hb.append_sound m bus'.store h.sound
  have hrefused := hb.refused m bus'.store
  have happended := hb.appended m bus'.store h.sound hnew
  cases happ : b.append m bus'.store with
  | mk result s =>
      rw [happ] at hsound hrefused happended
      cases result with
      | error e => exact .inl ⟨e, s, rfl, hrefused e h.sound rfl, by rw [post, happ]⟩
      | ok =>
          exact .inr ⟨_, rfl, h.record hsound (happended rfl) id time, by rw [post, happ]⟩

theorem threadFor_cases (hb : b.Keeps log Sound) (hs : Sound bus.store) (m : Message) :
    (∃ e s, m.kind = .answer ∧ b.thread m.threadId bus.store = (.error e, s) ∧
      log s = log bus.store ∧
      bus.threadFor b (withThread m) = (.error e, { bus with store := s })) ∨
    ∃ thread s, Read b m bus.store thread s ∧ Sound s ∧ log s = log bus.store ∧
      bus.threadFor b (withThread m) = (.ok thread, { bus with store := s }) := by
  have hsound := hb.thread_sound m.threadId bus.store hs
  have hlog := hb.read m.threadId bus.store hs
  by_cases hk : m.kind = .answer
  · have hfor : bus.threadFor b (withThread m) = ((b.thread m.threadId bus.store).1,
        { bus with store := (b.thread m.threadId bus.store).2 }) := if_pos hk
    cases hread : b.thread m.threadId bus.store with
    | mk result s =>
        rw [hread] at hsound hlog hfor
        cases result with
        | error e => exact .inl ⟨e, s, hk, rfl, hlog, hfor⟩
        | ok thread => exact .inr ⟨thread, s, by rwa [Read, if_pos hk], hsound, hlog, hfor⟩
  · exact .inr ⟨[], bus.store, by rw [Read, if_neg hk], hs, rfl, if_neg hk⟩

theorem finalized_complete (s : Settings) (fresh : Fresh) (thread : List Message)
    (hm : Sendable m) : Finalized s fresh thread m (complete s fresh (withThread m) thread).1
      (complete s fresh (withThread m) thread).2 where
  sendable := hm
  returned := complete_returned s fresh m thread
  due := complete_isSome_iff fresh m thread
  follows := complete_follows fresh m thread

theorem Finalized.id {s : Settings} {thread : List Message} {r : Message}
    {follower : Option Message} (h : Finalized s fresh thread m r follower) : r.id = m.id := by
  rw [h.returned.frame]

theorem Finalized.follower_id {s : Settings} {thread : List Message} {r e : Message}
    (h : Finalized s fresh thread m r (some e)) : e.id = fresh.messageId := by
  obtain ⟨_, _, hfollower⟩ := h.follows e rfl
  exact hfollower.origin.1

theorem foldl_deliver_history (addressees : List (Subscriber × Message)) (bus : Bus σ) :
    (addressees.foldl (fun bus p => deliver p.2 bus p.1) bus).history =
      bus.history ++ addressees.mapIdx fun i p => ⟨p.1.name, p.1.noticesOnly, p.2,
        handling bus.settings.subscriberMillis (p.1.reaction (bus.history.length + i))⟩ := by
  induction addressees generalizing bus with
  | nil => exact (List.append_nil _).symm
  | cons p rest ih =>
      rw [List.foldl_cons, ih, List.mapIdx_cons]
      simp only [deliver, advance, List.append_assoc, List.singleton_append, List.length_append,
        List.length_singleton, Nat.add_zero, Nat.add_assoc, Nat.add_comm 1]

theorem fanOut_eq_foldl (m : Message) (bus : Bus σ) :
    bus.fanOut m = (bus.addressees [m]).foldl (fun bus p => deliver p.2 bus p.1) bus := by
  rw [addressees, List.flatMap_singleton, List.foldl_map]
  rfl

theorem fanOutBoth_eq_foldl (m : Message) (follower : Option Message) (bus : Bus σ) :
    bus.fanOutBoth m follower = (bus.addressees (m :: follower.toList)).foldl
      (fun bus p => deliver p.2 bus p.1) bus := by
  cases follower with
  | none => exact fanOut_eq_foldl m bus
  | some e =>
      -- No delivery changes who has subscribed.
      have hsubscribers : (bus.fanOut m).subscribers = bus.subscribers :=
        fanOut_induction (Q := fun c => c.subscribers = bus.subscribers) (fun _ _ _ h => h) m rfl
      have haddressees : (bus.fanOut m).addressees [e] = bus.addressees [e] := by
        simp only [addressees, subscribersOf, hsubscribers]
      change (bus.fanOut m).fanOut e = _
      rw [fanOut_eq_foldl, haddressees, fanOut_eq_foldl, ← List.foldl_append, addressees,
        addressees, addressees, ← List.flatMap_append]
      rfl

theorem fanOutBoth_history (m : Message) (follower : Option Message) (bus : Bus σ) :
    (bus.fanOutBoth m follower).history =
      bus.history ++ bus.handedOut (m :: follower.toList) := by
  rw [fanOutBoth_eq_foldl, foldl_deliver_history, handedOut]

theorem fanOutBoth_trail (m : Message) (follower : Option Message) (bus : Bus σ) :
    (bus.fanOutBoth m follower).trail = bus.trail :=
  fanOutBoth_induction (Q := fun c => c.trail = bus.trail) (fun _ _ _ h => h) m follower rfl

theorem Grown.done {thread : List Message} {r : Message} {follower : Option Message} {s : σ}
    (h : Grown log Sound (r :: follower.toList) bus bus') (hread : Read b m bus.store thread s)
    (hr : Finalized bus.settings fresh thread m r follower) :
    Course b log fresh m bus (.ok r) (bus'.fanOutBoth r follower) := by
  refine .done thread r follower s _ hread hr ?_ ?_ ?_
  · rw [fanOutBoth_store]
    exact h.log
  · rw [fanOutBoth_trail]
    exact h.trail
  · rw [fanOutBoth_history, h.frame]
    rfl

theorem Course.history_of_error {result : Except Error Message} {bus' : Bus σ}
    (h : Course b log fresh m bus result bus') {e : Error} (he : result = .error e) :
    bus'.history = bus.history := by
  cases h with
  | flawed | unread | unstored | unfollowed => rfl
  | done => cases he

/-- A send takes one of its courses, whatever call to the backend fails. Where it fails, no
subscriber was given anything. -/
theorem send_course (hb : b.Keeps log Sound) (hs : Sound bus.store)
    (hm : ∀ n ∈ log bus.store, n.id ≠ m.id)
    (hfresh : fresh.messageId ≠ m.id ∧ ∀ n ∈ log bus.store, n.id ≠ fresh.messageId) :
    (∀ e, (bus.send b fresh m).1 = .error e → (bus.send b fresh m).2.history = bus.history) ∧
      Course b log fresh m bus (bus.send b fresh m).1 (bus.send b fresh m).2 := by
  suffices h : Course b log fresh m bus (bus.send b fresh m).1 (bus.send b fresh m).2 from
    ⟨fun _ he => h.history_of_error he, h⟩
  cases hc : checked m with
  | error e =>
      simp only [send, hc]
      refine .flawed e ?_
      intro h
      rw [checked_eq_ok_iff_sendable.mpr ⟨h, rfl⟩] at hc
      cases hc
  | ok n =>
      obtain ⟨hsend, rfl⟩ := checked_eq_ok_iff_sendable.mp hc
      simp only [send, hc]
      rcases threadFor_cases hb hs m with ⟨e, s, hk, hfails, hlog, hfor⟩ |
        ⟨thread, s, hread, hs, hlog, hfor⟩
      · rw [hfor]
        exact .unread e s hsend hk hfails hlog
      · rw [hfor]
        have hr := finalized_complete bus.settings fresh thread hsend
        simp only
        generalize complete bus.settings fresh (withThread m) thread = completed at hr ⊢
        obtain ⟨r, follower⟩ := completed
        have hnew : ∀ n ∈ log bus.store ++ [], n.id ≠ r.id := by
          rw [List.append_nil, hr.id]
          exact hm
        rcases (Grown.of_read hs hlog).post_cases hb hnew fresh.entryId fresh.time with
          ⟨e, s', hfails, hlog', hpost⟩ | ⟨bus₁, hstored, hgrown, hpost⟩
        · simp only [hpost]
          rw [List.append_nil] at hlog'
          exact .unstored e thread r follower s s' hread hr hfails hlog'
        · simp only [hpost]
          cases follower with
          | none => exact hgrown.done hread hr
          | some e =>
              have hnew' : ∀ n ∈ log bus.store ++ [r], n.id ≠ e.id := by
                rw [hr.follower_id, List.forall_mem_append, List.forall_mem_singleton, hr.id]
                exact ⟨hfresh.2, hfresh.1.symm⟩
              simp only [postFollower]
              rcases hgrown.post_cases hb hnew' fresh.secondEntryId fresh.time with
                ⟨e', s', hfails, hlog', hpost'⟩ | ⟨bus₂, -, hgrown', hpost'⟩
              · simp only [hpost']
                rw [hgrown.frame]
                exact .unfollowed e' thread r e s _ s' _ hread hr hstored hfails hlog' hgrown.trail
              · simp only [hpost']
                exact hgrown'.done hread hr

def busWithoutFollowers : Bus (Outage × MemoryLog) :=
  new .standard ({ Outage.none with appends := [.escalation] }, MemoryLog.empty) (some .start)

theorem unsureQuestion_sendable : Sendable unsureQuestion :=
  ⟨by decide, ⟨'W', by decide, by decide⟩, by decide, by decide, by rintro x ⟨⟩; decide, nofun⟩

def someFresh : Fresh := ⟨⟨0, 0, 0⟩, "e", "a", "b"⟩

theorem send_course_unfollowed :
    ((Outage.backend MemoryLog.backend).Keeps (fun s => s.2.log) (fun s => s.2.Sound) ∧
      busWithoutFollowers.store.2.Sound) ∧
    ((∀ n ∈ busWithoutFollowers.store.2.log, n.id ≠ unsureQuestion.id) ∧
      someFresh.messageId ≠ unsureQuestion.id ∧
      ∀ n ∈ busWithoutFollowers.store.2.log, n.id ≠ someFresh.messageId) ∧
    ∃ e r bus, busWithoutFollowers.send (Outage.backend MemoryLog.backend) someFresh
        unsureQuestion = (.error e, bus) ∧
      r.id = "q" ∧ bus.store.2.log = [r] ∧
      Option.Rel (Extended [r]) busWithoutFollowers.trail bus.trail ∧ bus.history = [] := by
  have hkeeps : (Outage.backend MemoryLog.backend).Keeps (fun s => s.2.log) (fun s => s.2.Sound) :=
    Backend.memory_keeps.outage
  have hsound : busWithoutFollowers.store.2.Sound := MemoryLog.empty_sound
  have hnew (id : String) : ∀ n ∈ busWithoutFollowers.store.2.log, n.id ≠ id :=
    List.forall_mem_nil _
  have hfresh : someFresh.messageId ≠ unsureQuestion.id := by decide
  have hfails : (busWithoutFollowers.send (Outage.backend MemoryLog.backend) someFresh
      unsureQuestion).1 = .error (.provider "") := by rfl
  obtain ⟨hhistory, hcourse⟩ := send_course hkeeps hsound (hnew _) ⟨hfresh, hnew _⟩
  have hempty := hhistory _ hfails
  refine ⟨⟨hkeeps, hsound⟩, ⟨hnew _, hfresh, hnew _⟩, .provider "", ?_⟩
  generalize busWithoutFollowers.send (Outage.backend MemoryLog.backend) someFresh
    unsureQuestion = sent at hfails hcourse hempty ⊢
  obtain ⟨result, bus⟩ := sent
  obtain rfl : result = .error (.provider "") := hfails
  cases hcourse with
  | flawed _ hm => exact absurd unsureQuestion_sendable hm
  | unread _ _ _ hk => cases hk
  | unstored _ thread r follower s s' hread hr happend =>
      -- The outage refuses escalations only.
      have hkind : r.kind = .question := by
        rw [hr.returned.frame]
        rfl
      have hpasses : ((Outage.backend MemoryLog.backend).append r busWithoutFollowers.store).1 =
          .ok () := by
        simp [busWithoutFollowers, Bus.new, Outage.backend, hkind, Outage.guard,
          MemoryLog.backend]
      obtain rfl : s = busWithoutFollowers.store := hread
      rw [happend] at hpasses
      cases hpasses
  | unfollowed _ _ r follower _ _ _ trail _ hr _ _ hlog htrail =>
      exact ⟨r, _, rfl, hr.id, hlog, htrail, hempty⟩

end Parley.Bus
