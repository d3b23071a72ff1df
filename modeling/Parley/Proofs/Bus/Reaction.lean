import Parley.Proofs.Bus.Registration

namespace Parley.Bus

variable {σ : Type}

def Op.reacting (reaction : Nat → Reaction) : Op → Op
  | .subscribe t s => .subscribe t { s with reaction }
  | op => op

def Event.sent? : Event → Option (Except Error Message)
  | ⟨_, .sent result⟩ => some result
  | _ => none

def label (p : Nat × Subscriber) : Nat × String × Bool := (p.1, p.2.name, p.2.noticesOnly)

def Handing.told (h : Handing) : (Nat × String × Bool) × Message :=
  (label (h.place, h.subscriber), h.message)

/-- Two buses that differ at most in who waits, who is registered and what was delivered. -/
structure Alike (x y : Bus σ) : Prop where
  settings : x.settings = y.settings
  store : x.store = y.store
  trail : x.trail = y.trail

def Agree {α : Type} (r r' : α × Bus σ) : Prop := r.1 = r'.1 ∧ Alike r.2 r'.2

variable {b : Backend σ} {x y : Bus σ}

theorem Alike.fanOutBoth (h : Alike x y) (m : Message) (follower : Option Message) :
    Alike (x.fanOutBoth m follower) (y.fanOutBoth m follower) where
  settings := by rw [fanOutBoth_settings, fanOutBoth_settings, h.settings]
  store := by rw [fanOutBoth_store, fanOutBoth_store, h.store]
  trail := by rw [fanOutBoth_trail, fanOutBoth_trail, h.trail]

theorem Alike.record (h : Alike x y) (s : σ) (id : String) (time : Time.Instant)
    (deed : Audit.Deed) : Alike (Bus.record id time deed { x with store := s })
      (Bus.record id time deed { y with store := s }) :=
  ⟨h.settings, rfl, by rw [Bus.record, Bus.record, h.trail]⟩

theorem Alike.post (h : Alike x y) (id : String) (time : Time.Instant) (m : Message) :
    Agree (x.post b id time m) (y.post b id time m) := by
  rw [Bus.post, Bus.post, h.store]
  rcases b.append m y.store with ⟨e | _, s⟩
  · exact ⟨rfl, h.settings, rfl, h.trail⟩
  · exact ⟨rfl, h.record s id time _⟩

theorem Alike.postFollower (h : Alike x y) (fresh : Fresh) (follower : Option Message) :
    Agree (x.postFollower b fresh follower) (y.postFollower b fresh follower) := by
  cases follower with
  | none => exact ⟨rfl, h⟩
  | some e => exact h.post fresh.secondEntryId fresh.time e

theorem Alike.threadFor (h : Alike x y) (m : Message) :
    Agree (x.threadFor b m) (y.threadFor b m) := by
  rw [Bus.threadFor, Bus.threadFor, h.store]
  split
  · exact ⟨rfl, h.settings, rfl, h.trail⟩
  · exact ⟨rfl, h⟩

/-- A send asks nothing but the settings, the store and the trail. -/
theorem Alike.send (h : Alike x y) (fresh : Fresh) (m : Message) :
    Agree (x.send b fresh m) (y.send b fresh m) := by
  simp only [Bus.send]
  rcases checked m with e | m
  · exact ⟨rfl, h⟩
  · simp only
    have hread := h.threadFor (b := b) m
    generalize x.threadFor b m = read, y.threadFor b m = read' at hread ⊢
    obtain ⟨result, x⟩ := read
    obtain ⟨result', y⟩ := read'
    obtain ⟨rfl, h⟩ : result = result' ∧ Alike x y := hread
    rcases result with e | thread
    · exact ⟨rfl, h⟩
    · simp only [h.settings]
      rcases complete y.settings fresh m thread with ⟨m, follower⟩
      have hpost := h.post (b := b) fresh.entryId fresh.time m
      generalize x.post b fresh.entryId fresh.time m = posted,
        y.post b fresh.entryId fresh.time m = posted' at hpost ⊢
      obtain ⟨result, x⟩ := posted
      obtain ⟨result', y⟩ := posted'
      obtain ⟨rfl, h⟩ : result = result' ∧ Alike x y := hpost
      rcases result with e | _
      · exact ⟨rfl, h⟩
      · have hfollow := h.postFollower (b := b) fresh follower
        simp only
        generalize x.postFollower b fresh follower = followed,
          y.postFollower b fresh follower = followed' at hfollow ⊢
        obtain ⟨result, x⟩ := followed
        obtain ⟨result', y⟩ := followed'
        obtain ⟨rfl, h⟩ : result = result' ∧ Alike x y := hfollow
        rcases result with e | _
        · exact ⟨rfl, h⟩
        · exact ⟨rfl, h.fanOutBoth m follower⟩

theorem Alike.decide (h : Alike x y) (fresh : Fresh) (id approver : String) (approved : Bool) :
    Alike (x.decide b fresh id approver approved).2 (y.decide b fresh id approver approved).2 := by
  simp only [Bus.decide, h.store]
  rcases b.find id y.store with ⟨e | _ | m, s⟩
  · exact ⟨h.settings, rfl, h.trail⟩
  · exact ⟨h.settings, rfl, h.trail⟩
  · simp only
    rcases b.decide id ⟨approved, approver, fresh.time⟩ s with ⟨e | _ | _, s⟩
    · exact ⟨h.settings, rfl, h.trail⟩
    · exact ⟨h.settings, rfl, h.trail⟩
    · exact ⟨h.settings, rfl, (h.record s _ _ _).trail⟩

theorem Alike.perform (h : Alike x y) (op : Op) (reaction : Nat → Reaction) :
    Alike (x.perform b op).2 (y.perform b (op.reacting reaction)).2 := by
  cases op with
  | send fresh m => exact (h.send fresh m).2
  | decide fresh id approver approved => exact h.decide fresh id approver approved
  | await ticket =>
      simp only [Op.reacting, Bus.perform, answering, await]
      split <;> split <;> exact ⟨h.settings, h.store, h.trail⟩
  | flushTrail =>
      simp only [Op.reacting, Bus.perform, answering, flushTrail, h.trail]
      split
      · exact h
      · exact ⟨h.settings, h.store, rfl⟩
  | wait id millis =>
      refine ⟨h.settings, ?_, h.trail⟩
      change (b.find id x.store).2 = (b.find id y.store).2
      rw [h.store]
  | thread id =>
      refine ⟨h.settings, ?_, h.trail⟩
      change (b.thread id x.store).2 = (b.thread id y.store).2
      rw [h.store]
  | messagesOf tenant | pendingOf tenant =>
      refine ⟨h.settings, ?_, h.trail⟩
      change (b.tenant tenant x.store).2 = (b.tenant tenant y.store).2
      rw [h.store]
  | health =>
      refine ⟨h.settings, ?_, h.trail⟩
      change (b.health x.store).2 = (b.health y.store).2
      rw [h.store]
  | _ => exact ⟨h.settings, h.store, h.trail⟩

/-- Two runs that differ at most in what the subscribers do with what they are handed, and in what
follows from the time that this takes. -/
structure Matched (s : Settings) (run run' : Run σ) : Prop where
  alike : Alike run.bus run'.bus
  length : run'.events.length = run.events.length
  sent : run'.events.map Event.sent? = run.events.map Event.sent?
  labels : ∀ t, (registered t run'.events).map label = (registered t run.events).map label
  told : (handings s run'.events).map Handing.told = (handings s run.events).map Handing.told

variable {settings : Settings} {run run' : Run σ}

theorem Matched.refl (settings : Settings) (run : Run σ) : Matched settings run run :=
  ⟨⟨rfl, rfl, rfl⟩, rfl, rfl, fun _ => rfl, rfl⟩

theorem map_told_handingsOf (past : List Event) (messages : List Message) :
    (handingsOf past messages).map Handing.told =
      messages.flatMap fun m => ((registered m.toTenant past).map label).map fun l => (l, m) := by
  rw [handingsOf, List.map_flatMap]
  refine List.flatMap_congr fun m _ => ?_
  rw [List.map_map, List.map_map]
  rfl

theorem Matched.event_sent (h : Matched settings run run') (op : Op) (reaction : Nat → Reaction) :
    (run'.event b (op.reacting reaction)).sent? = (run.event b op).sent? := by
  cases op with
  | send fresh m => exact congrArg some (h.alike.send fresh m).1.symm
  | _ => rfl

theorem Matched.event_handed (h : Matched settings run run') (op : Op)
    (reaction : Nat → Reaction) :
    (run'.event b (op.reacting reaction)).handed settings = (run.event b op).handed settings := by
  cases op with
  | send fresh m =>
      change Event.handed settings ⟨.send fresh m, .sent (run'.bus.send b fresh m).1⟩ =
        Event.handed settings ⟨.send fresh m, .sent (run.bus.send b fresh m).1⟩
      rw [(h.alike.send fresh m).1]
  | _ => rfl

theorem event_clears (b : Backend σ) (run run' : Run σ) (op : Op) (reaction : Nat → Reaction)
    (t : String) :
    (run'.event b (op.reacting reaction)).clears t = (run.event b op).clears t := by
  cases op <;> rfl

theorem event_joiner (b : Backend σ) (run run' : Run σ) (op : Op) (reaction : Nat → Reaction)
    (t : String) (i : Nat) :
    ((run'.event b (op.reacting reaction)).joiner? t).toList.map (fun s => label (i, s)) =
      ((run.event b op).joiner? t).toList.map fun s => label (i, s) := by
  cases op with
  | subscribe u s =>
      change (if u = t then some { s with reaction } else none).toList.map _ =
        (if u = t then some s else none).toList.map _
      split <;> rfl
  | _ => rfl

theorem map_label_registered_concat (t : String) (past : List Event) (e : Event) :
    (registered t (past ++ [e])).map label =
      (if e.clears t then [] else (registered t past).map label) ++
        (e.joiner? t).toList.map fun s => label (past.length, s) := by
  rw [registered_concat, List.map_append]
  congr 1
  · split <;> rfl
  · cases e.joiner? t <;> rfl

theorem Matched.step (h : Matched settings run run') (op : Op) (reaction : Nat → Reaction) :
    Matched settings (run.step b op) (run'.step b (op.reacting reaction)) where
  alike := h.alike.perform op reaction
  length := by simp only [Run.step, List.length_append, h.length, List.length_singleton]
  sent := by
    change (run'.events ++ [run'.event b (op.reacting reaction)]).map _ =
      (run.events ++ [run.event b op]).map _
    rw [List.map_append, List.map_append, h.sent, List.map_singleton, List.map_singleton,
      h.event_sent]
  labels t := by
    change (registered t (run'.events ++ [run'.event b (op.reacting reaction)])).map label =
      (registered t (run.events ++ [run.event b op])).map label
    rw [map_label_registered_concat, map_label_registered_concat, h.labels, h.length,
      event_clears b run, event_joiner b run]
  told := by
    change (handings settings (run'.events ++ [run'.event b (op.reacting reaction)])).map _ =
      (handings settings (run.events ++ [run.event b op])).map _
    rw [handings_concat, handings_concat, List.map_append, List.map_append, h.told, h.event_handed,
      map_told_handingsOf, map_told_handingsOf]
    simp only [h.labels]

/-- Whatever those who register do with what they are handed, nothing comes of it for anyone else,
for what is stored or for what is returned. -/
theorem matched_run (b : Backend σ) (settings : Settings) (store : σ) (trail : Option Audit.Trail)
    (reactions : Nat → Nat → Reaction) (ops : List Op) :
    Matched settings (Bus.run b (new settings store trail) ops)
      (Bus.run b (new settings store trail)
        (ops.mapIdx fun k op => op.reacting (reactions k))) := by
  induction ops using List.reverseRecOn with
  | nil => exact .refl settings _
  | append_singleton ops op ih =>
      rw [List.mapIdx_concat, Bus.run, Bus.run, List.foldl_append, List.foldl_append]
      exact ih.step op _

theorem map_op_run (b : Backend σ) (bus : Bus σ) (ops : List Op) :
    (Bus.run b bus ops).events.map Event.op = ops := by
  induction ops using List.reverseRecOn with
  | nil => rfl
  | append_singleton ops op ih =>
      rw [Bus.run, List.foldl_append]
      change ((Bus.run b bus ops).events ++ [_]).map Event.op = _
      rw [List.map_append, ih]
      rfl

/-- In every run, whatever fails: the deliveries are the messages which the sends that succeeded
returned, each with what follows it, one after the other to all who were registered for its tenant
by then, in their order. So one who registers is handed what is for the tenant from then on, until
all of the tenant are removed. What the subscribers do with it changes neither what is stored, nor
what a send returns, nor what anyone is handed. -/
theorem deliveries_of_run (b : Backend σ) (settings : Settings) (store : σ)
    (trail : Option Audit.Trail) (ops : List Op) :
    ∃ events bus, Bus.run b (new settings store trail) ops = ⟨events, bus⟩ ∧
      events.map Event.op = ops ∧
      (∀ e ∈ events, e.Finished settings) ∧
      bus.history = (handings settings events).mapIdx (Handing.delivery settings) ∧
      (∀ k t s, ops[k]? = some (.subscribe t s) → received k (handings settings events) =
        ((events.drop (k + 1)).takeWhile fun e => !e.clears t).flatMap fun e =>
          (e.handed settings).filter fun m => m.toTenant = t) ∧
      ∀ reactions : Nat → Nat → Reaction, ∃ events' bus', Bus.run b (new settings store trail)
          (ops.mapIdx fun k op => op.reacting (reactions k)) = ⟨events', bus'⟩ ∧
        bus'.store = bus.store ∧ bus'.trail = bus.trail ∧
        events'.map Event.sent? = events.map Event.sent? ∧
        (handings settings events').map Handing.told =
          (handings settings events).map Handing.told := by
  have hserved := served_run b settings store trail ops
  have hops := map_op_run b (new settings store trail) ops
  have hmatched := fun reactions => matched_run b settings store trail reactions ops
  generalize Bus.run b (new settings store trail) ops = run at hserved hops hmatched ⊢
  refine ⟨run.events, run.bus, rfl, hops, hserved.finished, hserved.history, fun k t s hk => ?_,
    fun reactions => ?_⟩
  · rw [← hops, List.getElem?_map] at hk
    exact received_handings hk
  · obtain ⟨halike, -, hsent, -, htold⟩ := hmatched reactions
    exact ⟨_, _, rfl, halike.store.symm, halike.trail.symm, hsent, htold⟩

end Parley.Bus
