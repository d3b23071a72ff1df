import Parley.Proofs.Bus.Effects

namespace Parley.Bus

variable {σ : Type}

structure Handing where
  place : Nat
  subscriber : Subscriber
  message : Message

def Handing.delivery (s : Settings) (i : Nat) (h : Handing) : Delivery :=
  ⟨h.subscriber.name, h.subscriber.noticesOnly, h.message,
    handling s.subscriberMillis (h.subscriber.reaction i)⟩

namespace Event

def follower? (s : Settings) (fresh : Fresh) (m r : Message) : Option Message :=
  if r.escalated && !m.escalated then
    r.reason.map (Escalation.follow s.excerptChars fresh.messageId fresh.time r)
  else none

def handed (s : Settings) : Event → List Message
  | ⟨.send fresh m, .sent (.ok r)⟩ => r :: (follower? s fresh m r).toList
  | _ => []

def joiner? (tenant : String) (e : Event) : Option Subscriber :=
  match e.op with
  | .subscribe t s => if t = tenant then some s else none
  | _ => none

def clears (tenant : String) (e : Event) : Bool :=
  match e.op with
  | .unsubscribe t => t = tenant
  | _ => false

/-- A send that succeeded returned the message as it is stored, and handed it out with what
follows it. -/
def Finished (s : Settings) (e : Event) : Prop :=
  ∀ fresh m r, e = ⟨.send fresh m, .sent (.ok r)⟩ → ∃ thread follower,
    Finalized s fresh thread m r follower ∧ e.handed s = r :: follower.toList

end Event

/-- Whether one who registered for a tenant after `place` operations still is registered. -/
def remains (tenant : String) (place : Nat) (past : List Event) : Bool :=
  (past.drop (place + 1)).all fun e => !e.clears tenant

/-- Who is registered for a tenant, in order, each with the number of operations before. -/
def registered (tenant : String) (past : List Event) : List (Nat × Subscriber) :=
  past.zipIdx.filterMap fun e =>
    if remains tenant e.2 past then (e.1.joiner? tenant).map (Prod.mk e.2) else none

def handingsOf (past : List Event) (messages : List Message) : List Handing :=
  messages.flatMap fun m => (registered m.toTenant past).map fun p => ⟨p.1, p.2, m⟩

def handings (s : Settings) (past : List Event) : List Handing :=
  past.zipIdx.flatMap fun e => handingsOf (past.take e.2) (e.1.handed s)

def received (place : Nat) (list : List Handing) : List Message :=
  (list.filter fun h => h.place = place).map Handing.message

variable {b : Backend σ} {settings : Settings} {past : List Event} {e : Event} {tenant : String}
  {bus : Bus σ} {fresh : Fresh} {m : Message}

theorem remains_concat {k : Nat} (hk : k < past.length) (e : Event) :
    remains tenant k (past ++ [e]) = (remains tenant k past && !e.clears tenant) := by
  rw [remains, List.drop_append_of_le_length hk, List.all_append, remains]
  simp

theorem remains_length (tenant : String) (past : List Event) (e : Event) :
    remains tenant past.length (past ++ [e]) = true := by
  simp [remains]

theorem registered_concat (tenant : String) (past : List Event) (e : Event) :
    registered tenant (past ++ [e]) = (if e.clears tenant then [] else registered tenant past) ++
      ((e.joiner? tenant).map (Prod.mk past.length)).toList := by
  have hold : ∀ p ∈ past.zipIdx, (if remains tenant p.2 (past ++ [e]) then
      (p.1.joiner? tenant).map (Prod.mk p.2) else none) =
        if remains tenant p.2 past && !e.clears tenant then
          (p.1.joiner? tenant).map (Prod.mk p.2) else none := by
    intro p hp
    rw [remains_concat (List.snd_lt_of_mem_zipIdx hp)]
  rw [registered, List.zipIdx_append, List.filterMap_append, List.filterMap_congr hold]
  congr 1
  · cases e.clears tenant
    · simp [registered]
    · simp
  · rw [List.zipIdx_singleton, Nat.zero_add]
    cases hjoiner : e.joiner? tenant <;> simp [remains_length, List.filterMap, hjoiner]

theorem handings_concat (s : Settings) (past : List Event) (e : Event) :
    handings s (past ++ [e]) = handings s past ++ handingsOf past (e.handed s) := by
  have hold : ∀ p ∈ past.zipIdx, handingsOf ((past ++ [e]).take p.2) (p.1.handed s) =
      handingsOf (past.take p.2) (p.1.handed s) := by
    intro p hp
    rw [List.take_append_of_le_length (List.snd_lt_of_mem_zipIdx hp).le]
  rw [handings, List.zipIdx_append, List.flatMap_append, List.flatMap_congr hold, handings]
  simp

theorem post_frame (b : Backend σ) (id : String) (time : Time.Instant) (m : Message) (bus : Bus σ) :
    ∃ store trail, (bus.post b id time m).2 = { bus with store, trail } := by
  rw [post]
  split
  · exact ⟨_, _, rfl⟩
  · exact ⟨_, _, rfl⟩

theorem postFollower_frame (b : Backend σ) (fresh : Fresh) (follower : Option Message)
    (bus : Bus σ) : ∃ store trail, (bus.postFollower b fresh follower).2 = { bus with store, trail } := by
  cases follower with
  | none => exact ⟨_, _, rfl⟩
  | some e => exact post_frame b fresh.secondEntryId fresh.time e bus

theorem threadFor_frame (b : Backend σ) (m : Message) (bus : Bus σ) :
    ∃ store, (bus.threadFor b m).2 = { bus with store } := by
  rw [threadFor]
  split
  · exact ⟨_, rfl⟩
  · exact ⟨_, rfl⟩

/-- Until it hands anything out a send changes only the store and the trail, and it hands out only
if it succeeds. -/
theorem send_cases (b : Backend σ) (fresh : Fresh) (m : Message) (bus : Bus σ) :
    (∃ e store trail, bus.send b fresh m = (.error e, { bus with store, trail })) ∨
    ∃ thread r follower store trail, Finalized bus.settings fresh thread m r follower ∧
      complete bus.settings fresh (withThread m) thread = (r, follower) ∧
      bus.send b fresh m = (.ok r, { bus with store, trail }.fanOutBoth r follower) := by
  cases hc : checked m with
  | error e => exact .inl ⟨e, bus.store, bus.trail, by simp only [send, hc]⟩
  | ok n =>
      obtain ⟨hm, rfl⟩ := checked_eq_ok_iff_sendable.mp hc
      simp only [send, hc]
      obtain ⟨s₁, hread⟩ := threadFor_frame b (withThread m) bus
      generalize bus.threadFor b (withThread m) = read at hread ⊢
      obtain ⟨e | thread, bus₁⟩ := read
      · exact .inl ⟨e, _, _, congrArg (Prod.mk _) hread⟩
      · obtain rfl : bus₁ = _ := hread
        have hr := finalized_complete bus.settings fresh thread hm
        simp only
        rcases hdone : complete bus.settings fresh (withThread m) thread with ⟨r, follower⟩
        rw [hdone] at hr
        simp only
        obtain ⟨s₂, t₂, hpost⟩ := post_frame b fresh.entryId fresh.time r { bus with store := s₁ }
        generalize post b fresh.entryId fresh.time r { bus with store := s₁ } = posted at hpost ⊢
        obtain ⟨e | _, bus₂⟩ := posted
        · exact .inl ⟨e, _, _, congrArg (Prod.mk _) hpost⟩
        · obtain rfl : bus₂ = _ := hpost
          simp only
          obtain ⟨s₃, t₃, hfollow⟩ := postFollower_frame b fresh follower
            { bus with store := s₂, trail := t₂ }
          generalize postFollower b fresh follower { bus with store := s₂, trail := t₂ } = followed
            at hfollow ⊢
          obtain ⟨e | _, bus₃⟩ := followed
          · exact .inl ⟨e, _, _, congrArg (Prod.mk _) hfollow⟩
          · obtain rfl : bus₃ = _ := hfollow
            exact .inr ⟨thread, r, follower, _, _, hr, hdone, rfl⟩

theorem follower?_complete {thread : List Message} {r : Message} {follower : Option Message}
    (h : complete settings fresh (withThread m) thread = (r, follower)) :
    Event.follower? settings fresh m r = follower := by
  cases hd : Escalation.decide settings.threshold (withThread m) with
  | none =>
      rw [complete_of_none hd, Prod.mk.injEq] at h
      obtain ⟨rfl, rfl⟩ := h
      have hsame : (rated settings (withThread m) thread).escalated = m.escalated :=
        rated_escalated _ _ _
      rw [Event.follower?, hsame]
      cases m.escalated <;> rfl
  | some reason =>
      have hopen : m.escalated = false := (decide_eq_some_iff.mp hd).1
      rw [complete_of_some hd, Prod.mk.injEq] at h
      obtain ⟨rfl, rfl⟩ := h
      rw [Event.follower?, hopen]
      rfl

def Op.isQuiet : Op → Bool
  | .send _ _ | .subscribe _ _ | .unsubscribe _ => false
  | _ => true

theorem perform_frame (b : Backend σ) (bus : Bus σ) {op : Op} (hop : op.isQuiet = true) :
    (bus.perform b op).2.settings = bus.settings ∧
      (bus.perform b op).2.subscribers = bus.subscribers ∧
      (bus.perform b op).2.history = bus.history := by
  cases op with
  | send | subscribe | unsubscribe => cases hop
  | decide fresh id approver approved =>
      simp only [perform, answering, decide]
      split
      · exact ⟨rfl, rfl, rfl⟩
      · exact ⟨rfl, rfl, rfl⟩
      · split <;> exact ⟨rfl, rfl, rfl⟩
  | await ticket =>
      simp only [perform, answering, await]
      split <;> exact ⟨rfl, rfl, rfl⟩
  | flushTrail =>
      simp only [perform, answering, flushTrail]
      split <;> exact ⟨rfl, rfl, rfl⟩
  | _ => exact ⟨rfl, rfl, rfl⟩

def Run.event (b : Backend σ) (r : Run σ) (op : Op) : Event := ⟨op, (r.bus.perform b op).1⟩

/-- A bus on which those are registered, and that has made those deliveries, which the operations
of a run ask for. -/
structure Served (s : Settings) (run : Run σ) : Prop where
  settings : run.bus.settings = s
  subscribers : ∀ t, run.bus.subscribersOf t = (registered t run.events).map Prod.snd
  finished : ∀ e ∈ run.events, e.Finished s
  history : run.bus.history = (handings s run.events).mapIdx (Handing.delivery s)

variable {run : Run σ}

theorem Event.handed_of_clears (h : e.clears tenant = true) : e.handed settings = [] := by
  obtain ⟨op, answer⟩ := e
  cases op with
  | unsubscribe => rfl
  | _ => cases h

theorem mapIdx_map {α β γ : Type} (f : α → β) (g : Nat → β → γ) (list : List α) :
    (list.map f).mapIdx g = list.mapIdx fun i a => g i (f a) := by
  refine List.ext_getElem? fun i => ?_
  rw [List.getElem?_mapIdx, List.getElem?_mapIdx, List.getElem?_map, Option.map_map]
  rfl

theorem served_new (s : Settings) (store : σ) (trail : Option Audit.Trail) :
    Served s ⟨[], new s store trail⟩ :=
  ⟨rfl, fun _ => rfl, List.forall_mem_nil _, rfl⟩

theorem Served.handedOut (h : Served settings run) (messages : List Message) :
    run.bus.history ++ run.bus.handedOut messages =
      (handings settings run.events ++ handingsOf run.events messages).mapIdx
        (Handing.delivery settings) := by
  have haddressees : run.bus.addressees messages =
      (handingsOf run.events messages).map fun h => (h.subscriber, h.message) := by
    rw [addressees, handingsOf, List.map_flatMap]
    refine List.flatMap_congr fun m _ => ?_
    rw [h.subscribers, List.map_map, List.map_map]
    rfl
  rw [Bus.handedOut, haddressees, h.settings, h.history, List.length_mapIdx, List.mapIdx_append,
    mapIdx_map]
  simp only [Nat.add_comm]
  rfl

theorem Served.step_of (h : Served settings run) {op : Op}
    (hsettings : (run.bus.perform b op).2.settings = run.bus.settings)
    (hsubscribers : ∀ t, (run.bus.perform b op).2.subscribersOf t =
      (if (run.event b op).clears t then [] else run.bus.subscribersOf t) ++
        ((run.event b op).joiner? t).toList)
    (hfinished : (run.event b op).Finished settings)
    (hhistory : (run.bus.perform b op).2.history =
      run.bus.history ++ run.bus.handedOut ((run.event b op).handed settings)) :
    Served settings (run.step b op) where
  settings := hsettings.trans h.settings
  subscribers t := by
    change _ = (registered t (run.events ++ [run.event b op])).map Prod.snd
    rw [registered_concat, List.map_append, Run.step, hsubscribers, h.subscribers]
    congr 1
    · split <;> rfl
    · cases (run.event b op).joiner? t <;> rfl
  finished := List.forall_mem_append.mpr ⟨h.finished, List.forall_mem_singleton.mpr hfinished⟩
  history := by
    change _ = (handings settings (run.events ++ [run.event b op])).mapIdx _
    rw [handings_concat, ← h.handedOut]
    exact hhistory

theorem Served.send (h : Served settings run) (fresh : Fresh) (m : Message) :
    Served settings (run.step b (.send fresh m)) := by
  rcases send_cases b fresh m run.bus with ⟨e, store, trail, hsend⟩ |
    ⟨thread, r, follower, store, trail, hr, hdone, hsend⟩
  · refine h.step_of ?_ (fun t => ?_) ?_ ?_ <;> simp only [perform, answering, Run.event, hsend]
    · exact (List.append_nil _).symm
    · rintro fresh m r ⟨⟩
    · exact (List.append_nil _).symm
  · rw [h.settings] at hdone hr
    have hhanded : Event.handed settings ⟨.send fresh m, .sent (.ok r)⟩ = r :: follower.toList := by
      rw [Event.handed, follower?_complete hdone]
    refine h.step_of ?_ (fun t => ?_) ?_ ?_ <;> simp only [perform, answering, Run.event, hsend]
    · rw [fanOutBoth_settings]
    · have hsame : (Bus.fanOutBoth r follower { run.bus with store, trail }).subscribers =
          run.bus.subscribers :=
        fanOutBoth_induction (Q := fun c => c.subscribers = run.bus.subscribers)
          (fun _ _ _ h => h) r follower rfl
      rw [subscribersOf, hsame]
      exact (List.append_nil _).symm
    · rintro _ _ _ ⟨⟩
      exact ⟨thread, follower, hr, hhanded⟩
    · rw [fanOutBoth_history, hhanded]
      rfl

theorem Served.subscribe (h : Served settings run) (t : String) (s : Subscriber) :
    Served settings (run.step b (.subscribe t s)) := by
  refine h.step_of rfl (fun u => ?_) (by rintro _ _ _ ⟨⟩) (List.append_nil _).symm
  change (run.bus.subscribe t s).subscribersOf u =
    run.bus.subscribersOf u ++ (if t = u then some s else none).toList
  rw [subscribersOf, Bus.subscribe, Table.find?_set]
  by_cases hu : u = t
  · rw [if_pos hu, if_pos hu.symm, hu]
    rfl
  · rw [if_neg hu, if_neg (Ne.symm hu)]
    exact (List.append_nil _).symm

theorem Served.unsubscribe (h : Served settings run) (t : String) :
    Served settings (run.step b (.unsubscribe t)) := by
  refine h.step_of rfl (fun u => ?_) (by rintro _ _ _ ⟨⟩) (List.append_nil _).symm
  have hclears : (run.event b (.unsubscribe t)).clears u = Decidable.decide (t = u) := rfl
  change (run.bus.unsubscribe t).2.subscribersOf u = _ ++ []
  rw [subscribersOf, Bus.unsubscribe, Table.find?_erase, hclears, List.append_nil]
  by_cases hu : u = t
  · rw [if_pos hu, if_pos (by simpa using hu.symm)]
    rfl
  · rw [if_neg hu, if_neg (by simpa using Ne.symm hu), subscribersOf]

theorem Served.step (h : Served settings run) (op : Op) : Served settings (run.step b op) := by
  have hquiet (hq : op.isQuiet = true) : Served settings (run.step b op) := by
    obtain ⟨hsettings, hsubscribers, hhistory⟩ := perform_frame b run.bus hq
    refine h.step_of hsettings (fun t => ?_) ?_ ?_
    · rw [subscribersOf, hsubscribers]
      cases op with
      | send | subscribe | unsubscribe => cases hq
      | _ => exact (List.append_nil _).symm
    · intro fresh m r he
      obtain rfl : op = .send fresh m := congrArg Event.op he
      cases hq
    · rw [hhistory]
      cases op with
      | send | subscribe | unsubscribe => cases hq
      | _ => exact (List.append_nil _).symm
  cases op with
  | send fresh m => exact h.send fresh m
  | subscribe t s => exact h.subscribe t s
  | unsubscribe t => exact h.unsubscribe t
  | _ => exact hquiet rfl

theorem served_run (b : Backend σ) (s : Settings) (store : σ) (trail : Option Audit.Trail)
    (ops : List Op) : Served s (Bus.run b (new s store trail) ops) :=
  run_induction (served_new s store trail) (fun _ op h => h.step op) ops

/-! What one who registered is handed: from then on, until all who registered for the tenant are
removed. -/

variable {k : Nat} {s : Subscriber} {h : Handing} {messages : List Message}

theorem lt_of_mem_registered {p : Nat × Subscriber} (hp : p ∈ registered tenant past) :
    p.1 < past.length := by
  obtain ⟨e, he, hjoins⟩ := List.mem_filterMap.mp hp
  obtain ⟨-, hjoins⟩ := Option.ite_none_right_eq_some.mp hjoins
  obtain ⟨s, -, rfl⟩ := Option.map_eq_some_iff.mp hjoins
  exact List.snd_lt_of_mem_zipIdx he

theorem lt_of_mem_handingsOf (hh : h ∈ handingsOf past messages) : h.place < past.length := by
  obtain ⟨m, -, hh⟩ := List.mem_flatMap.mp hh
  obtain ⟨p, hp, rfl⟩ := List.mem_map.mp hh
  exact lt_of_mem_registered hp

theorem lt_of_mem_handings (hh : h ∈ handings settings past) : h.place < past.length := by
  induction past using List.reverseRecOn with
  | nil => cases hh
  | append_singleton past e ih =>
      rw [handings_concat] at hh
      rw [List.length_append, List.length_singleton]
      rcases List.mem_append.mp hh with hh | hh
      · exact (ih hh).trans (Nat.lt_succ_self _)
      · exact (lt_of_mem_handingsOf hh).trans (Nat.lt_succ_self _)

theorem received_append (place : Nat) (list list' : List Handing) :
    received place (list ++ list') = received place list ++ received place list' := by
  rw [received, List.filter_append, List.map_append, received, received]

theorem received_of_lt {list : List Handing} (hlt : ∀ h ∈ list, h.place < k) :
    received k list = [] := by
  rw [received, List.map_eq_nil_iff, List.filter_eq_nil_iff]
  intro h hh
  rw [decide_eq_true_iff]
  exact (hlt h hh).ne

theorem registered_filter (hk : past[k]?.map Event.op = some (.subscribe tenant s))
    (u : String) : (registered u past).filter (fun p => p.1 = k) =
      if u = tenant ∧ remains tenant k past then [(k, s)] else [] := by
  induction past using List.reverseRecOn with
  | nil => cases hk
  | append_singleton past e ih =>
      rw [registered_concat, List.filter_append]
      rcases Nat.lt_trichotomy k past.length with hlt | rfl | hgt
      · rw [List.getElem?_append_left hlt] at hk
        have hlater : (((e.joiner? u).map (Prod.mk past.length)).toList.filter fun p => p.1 = k) =
            [] := by
          cases e.joiner? u <;> simp [hlt.ne']
        rw [hlater, List.append_nil, remains_concat hlt]
        by_cases hu : u = tenant
        · subst hu
          cases e.clears u <;> simp [ih hk]
        · cases e.clears u <;> simp [ih hk, hu]
      · have hop : e.op = .subscribe tenant s := by simpa using hk
        have hnone : (registered u past).filter (fun p => p.1 = past.length) = [] :=
          List.filter_eq_nil_iff.mpr fun p hp => by simpa using (lt_of_mem_registered hp).ne
        have hclears : e.clears u = false := by rw [Event.clears, hop]
        simp only [Event.joiner?, hop, hclears, remains_length, and_true, eq_comm (a := u)]
        by_cases hu : tenant = u <;> simp [hu, hnone]
      · rw [List.getElem?_eq_none (by simp; omega)] at hk
        cases hk

theorem received_handingsOf (hk : past[k]?.map Event.op = some (.subscribe tenant s))
    (messages : List Message) : received k (handingsOf past messages) =
      if remains tenant k past then messages.filter fun m => m.toTenant = tenant else [] := by
  have hone (m : Message) : ((registered m.toTenant past).map fun p =>
      (⟨p.1, p.2, m⟩ : Handing)).filter (fun h => h.place = k) =
        ((registered m.toTenant past).filter fun p => p.1 = k).map fun p => ⟨p.1, p.2, m⟩ :=
    List.filter_map
  rw [received, handingsOf, List.filter_flatMap, List.map_flatMap]
  simp only [hone, registered_filter hk]
  cases remains tenant k past
  · simp
  · induction messages with
    | nil => rfl
    | cons m rest ih =>
        rw [List.flatMap_cons, ih]
        by_cases hm : m.toTenant = tenant <;> simp [hm]

theorem takeWhile_concat {α : Type} (p : α → Bool) (list : List α) (a : α) :
    (list ++ [a]).takeWhile p =
      list.takeWhile p ++ if list.all p then [a].takeWhile p else [] := by
  induction list with
  | nil => rfl
  | cons c rest ih => cases hc : p c <;> simp [hc, ih]

/-- One who registered is handed, in the order of the operations, what each of them hands out for
the tenant, until all of the tenant are removed. -/
theorem received_handings (hk : past[k]?.map Event.op = some (.subscribe tenant s)) :
    received k (handings settings past) =
      ((past.drop (k + 1)).takeWhile fun e => !e.clears tenant).flatMap fun e =>
        (e.handed settings).filter fun m => m.toTenant = tenant := by
  induction past using List.reverseRecOn with
  | nil => cases hk
  | append_singleton past e ih =>
      rw [handings_concat, received_append]
      rcases Nat.lt_trichotomy k past.length with hlt | rfl | hgt
      · rw [List.getElem?_append_left hlt] at hk
        rw [ih hk, received_handingsOf hk, List.drop_append_of_le_length hlt,
          takeWhile_concat, List.flatMap_append, remains]
        cases (past.drop (k + 1)).all fun e => !e.clears tenant with
        | false => rfl
        | true =>
            cases hc : e.clears tenant with
            | false => simp [hc]
            | true => simp [hc, Event.handed_of_clears hc]
      · have hop : e.op = .subscribe tenant s := by simpa using hk
        rw [received_of_lt fun h => lt_of_mem_handings, received_of_lt fun h => lt_of_mem_handingsOf]
        simp
      · rw [List.getElem?_eq_none (by simp; omega)] at hk
        cases hk

end Parley.Bus
