import Parley.Proofs.Bus.Exchange
import Parley.Proofs.Store.PlainList

namespace Parley

open MemoryLog (backend undecided)

namespace Sending

def ids (s : Sending) : List String := [s.message.id, s.fresh.messageId]

/-- What a step of a call does on a bus over a log in memory: it puts the messages `new` there. -/
structure Advances (bus : Bus MemoryLog) (s : Sending) (stage : Stage) (bus' : Bus MemoryLog)
    (new : List Message) : Prop where
  settings : bus'.settings = bus.settings
  store : bus'.store = new.foldl .append bus.store
  posted : stage.posted = s.stage.posted ++ new
  settled : s.stage.settled = true → stage.settled = true ∧ new = []
  kept : ∀ made, s.stage.made? = some made → stage.made? = some made
  finalized : ∀ r follower, stage.made? = some (r, follower) → s.stage.made? = some (r, follower) ∨
    ∃ thread, Bus.Finalized bus.settings s.fresh thread s.message r follower

structure Later (s t : Sending) : Prop where
  message : t.message = s.message
  fresh : t.fresh = s.fresh
  posted : s.stage.posted ⊆ t.stage.posted

variable {bus bus' : Bus MemoryLog} {s t u : Sending} {stage : Stage} {r n p : Message}
  {follower : Option Message}

theorem next_advances (s : Sending) (bus : Bus MemoryLog) :
    ∃ new, Advances bus s (s.next backend bus).1 (s.next backend bus).2 new := by
  obtain ⟨m, fresh, stage⟩ := s
  have hopen {P : Prop} (h : false = true) : P := absurd h Bool.false_ne_true
  have hunmade {P : Prop} {made : Message × Option Message} (h : none = some made) : P :=
    absurd h.symm (Option.some_ne_none made)
  cases stage with
  | started =>
      cases hc : Bus.checked m with
      | error e =>
          simp only [next, hc]
          exact ⟨[], rfl, rfl, rfl, hopen, fun _ => hunmade, fun _ _ => hunmade⟩
      | ok n =>
          obtain ⟨hsend, rfl⟩ := Bus.checked_eq_ok_iff_sendable.mp hc
          have hr := Bus.finalized_complete bus.settings fresh
            (bus.threadBefore (Bus.withThread m)) hsend
          simp only [next, hc, Bus.threadFor_memory]
          generalize Bus.complete bus.settings fresh (Bus.withThread m)
            (bus.threadBefore (Bus.withThread m)) = made at hr ⊢
          refine ⟨[], rfl, rfl, rfl, hopen, fun _ => hunmade, fun r follower h => .inr ?_⟩
          obtain rfl : made = (r, follower) := Option.some.inj h
          exact ⟨_, hr⟩
  | completed r follower => exact ⟨[r], rfl, rfl, rfl, hopen, fun _ => id, fun _ _ => .inl⟩
  | stored r follower =>
      cases follower with
      | none => exact ⟨[], rfl, rfl, rfl, hopen, fun _ => id, fun _ _ => .inl⟩
      | some e => exact ⟨[e], rfl, rfl, rfl, hopen, fun _ => id, fun _ _ => .inl⟩
  | followed r follower =>
      simp only [next]
      exact ⟨[], Bus.fanOutBoth_settings .., Bus.fanOutBoth_store .., (List.append_nil _).symm,
        fun _ => ⟨rfl, rfl⟩, fun _ => id, fun _ _ => .inl⟩
  | done r follower =>
      exact ⟨[], rfl, rfl, (List.append_nil _).symm, fun _ => ⟨rfl, rfl⟩, fun _ => id,
        fun _ _ => .inl⟩
  | failed e => exact ⟨[], rfl, rfl, rfl, fun _ => ⟨rfl, rfl⟩, fun _ => id, fun _ _ => .inl⟩

theorem made?_of_posted (h : n ∈ stage.posted) :
    ∃ r follower, stage.made? = some (r, follower) ∧ n ∈ r :: follower.toList := by
  cases stage with
  | stored r follower =>
      exact ⟨r, follower, rfl, List.mem_cons.mpr (.inl (List.mem_singleton.mp h))⟩
  | followed r follower | done r follower => exact ⟨r, follower, rfl, h⟩
  | _ => cases h

theorem Later.refl (s : Sending) : Later s s := ⟨rfl, rfl, List.Subset.refl _⟩

theorem Later.trans (h : Later s t) (h' : Later t u) : Later s u :=
  ⟨h'.message.trans h.message, h'.fresh.trans h.fresh, List.Subset.trans h.posted h'.posted⟩

theorem Later.ids (h : Later s t) : t.ids = s.ids := by
  rw [Sending.ids, Sending.ids, h.message, h.fresh]

theorem Advances.later {new : List Message} (h : Advances bus s stage bus' new) :
    Later s { s with stage } :=
  ⟨rfl, rfl, h.posted ▸ List.subset_append_left _ _⟩

end Sending

namespace Bus.Finalized

variable {settings : Settings} {fresh : Fresh} {thread : List Message} {m r n : Message}
  {follower : Option Message}

theorem mem_ids (h : Finalized settings fresh thread m r follower) (hn : n ∈ r :: follower.toList) :
    n.id = m.id ∨ n.id = fresh.messageId := by
  rcases List.mem_cons.mp hn with rfl | hn
  · exact .inl h.id
  · obtain rfl := Option.mem_toList.mp hn
    exact .inr h.follower_id

theorem threadId_eq (h : Finalized settings fresh thread m r follower)
    (hn : n ∈ r :: follower.toList) : n.threadId = m.threadId := by
  rcases List.mem_cons.mp hn with rfl | hn
  · rw [h.returned.frame]
    rfl
  · obtain ⟨_, -, hfollower⟩ := h.follows n (Option.mem_toList.mp hn)
    rw [Message.threadId, hfollower.place.2.1]
    rfl

theorem ids_nodup (h : Finalized settings fresh thread m r follower) (hm : m.id ≠ fresh.messageId) :
    ((r :: follower.toList).map Message.id).Nodup := by
  cases follower with
  | none => exact List.nodup_singleton _
  | some e =>
      rw [← h.id, ← h.follower_id] at hm
      exact List.nodup_cons.mpr
        ⟨fun hmem => hm (List.mem_singleton.mp hmem), List.nodup_singleton _⟩

end Bus.Finalized

namespace Bus

theorem perform_undecided {bus : Bus MemoryLog} (h : bus.store.Sound) {op : Op}
    (hop : op.isSend = false) :
    (bus.perform backend op).2.store.log.map undecided = bus.store.log.map undecided := by
  cases op with
  | send fresh m => cases hop
  | decide fresh id approver approved =>
      simp only [perform, answering]
      rcases (decide_frame fresh id approver approved bus).2 with hs | hs
      · rw [hs]
      · rw [hs, MemoryLog.decide_log h, List.map_map]
        exact List.map_congr_left fun m _ => MemoryLog.undecided_marked id _ m
  | await ticket =>
      simp only [perform, answering, await]
      split <;> rfl
  | flushTrail =>
      simp only [perform, answering, flushTrail]
      split <;> rfl
  | _ => rfl

end Bus

namespace Exchange

/-- What has come of some calls on a bus that had a log `l`. -/
structure Tracked (l : MemoryLog) (settings : Settings) (x : Exchange MemoryLog) : Prop where
  sound : x.bus.store.Sound
  kept : x.bus.settings = settings
  finalized : ∀ s ∈ x.sends, ∀ r follower, s.stage.made? = some (r, follower) →
    ∃ thread, Bus.Finalized settings s.fresh thread s.message r follower
  held : ∀ s ∈ x.sends, ∀ n ∈ s.stage.posted, x.bus.store.holds n.id = true
  origin : ∀ n ∈ x.bus.store.log, undecided n ∈ l.log.map undecided ∨
    ∃ s ∈ x.sends, undecided n ∈ s.stage.posted.map undecided

variable {bus : Bus MemoryLog} {l : MemoryLog} {settings : Settings} {x y : Exchange MemoryLog}
  {moves : List Move} {m n : Message} {fresh : Fresh} {s t : Sending}
  {parts : List (Sending × List Message)}

theorem mem_middle {α : Type} {a b : α} {before after : List α} :
    b ∈ before ++ a :: after ↔ b = a ∨ b ∈ before ++ after :=
  List.perm_middle.mem_iff.trans List.mem_cons

/-- What a move does: nothing to the messages, but for decisions; or a call begins; or one goes
on. -/
theorem step_cases (h : x.bus.store.Sound) (move : Move) :
    ((x.step backend move).sends = x.sends ∧
      (x.step backend move).bus.settings = x.bus.settings ∧
      (x.step backend move).bus.store.Sound ∧
      (x.step backend move).bus.store.log.map undecided = x.bus.store.log.map undecided) ∨
    (∃ m fresh, move = .begin fresh m ∧ (x.step backend move).bus = x.bus ∧
      (x.step backend move).sends = x.sends ++ [⟨m, fresh, .started⟩]) ∨
    ∃ before s after stage new, x.sends = before ++ s :: after ∧
      (x.step backend move).sends = before ++ { s with stage } :: after ∧
      Sending.Advances x.bus s stage (x.step backend move).bus new := by
  cases move with
  | begin fresh m => exact .inr (.inl ⟨m, fresh, rfl, rfl, rfl⟩)
  | go place =>
      cases hs : x.sends[place]? with
      | none =>
          simp only [step, hs]
          exact .inl ⟨rfl, rfl, h, rfl⟩
      | some s =>
          obtain ⟨new, hnew⟩ := Sending.next_advances s x.bus
          simp only [step, hs]
          obtain ⟨hlt, hplace⟩ := List.getElem?_eq_some_iff.mp hs
          refine .inr (.inr ⟨x.sends.take place, s, x.sends.drop (place + 1), _, new, ?_, ?_, hnew⟩)
          · rw [← hplace, List.getElem_cons_drop, List.take_append_drop]
          · exact List.set_eq_take_append_cons_drop.trans (if_pos hlt)
  | other op hop =>
      refine .inl ⟨rfl, Bus.perform_settings op x.bus, Bus.perform_sound h op, ?_⟩
      exact Bus.perform_undecided h hop

theorem tracked_on (h : bus.store.Sound) : Tracked bus.store bus.settings (on bus) where
  sound := h
  kept := rfl
  finalized := List.forall_mem_nil _
  held := List.forall_mem_nil _
  origin _ hn := .inl (List.mem_map_of_mem hn)

theorem Tracked.quiet (h : Tracked l settings x) (hsends : y.sends = x.sends)
    (hsettings : y.bus.settings = x.bus.settings) (hsound : y.bus.store.Sound)
    (hlog : y.bus.store.log.map undecided = x.bus.store.log.map undecided) :
    Tracked l settings y where
  sound := hsound
  kept := hsettings.trans h.kept
  finalized := hsends ▸ h.finalized
  held s hs n hn := by
    rw [MemoryLog.holds_eq_of_undecided hlog]
    exact h.held s (hsends ▸ hs) n hn
  origin n hn := by
    have hmem : undecided n ∈ x.bus.store.log.map undecided := hlog ▸ List.mem_map_of_mem hn
    obtain ⟨n', hn', heq⟩ := List.mem_map.mp hmem
    rw [hsends, ← heq]
    exact h.origin n' hn'

theorem Tracked.begin (h : Tracked l settings x) (hbus : y.bus = x.bus)
    (hsends : y.sends = x.sends ++ [⟨m, fresh, .started⟩]) : Tracked l settings y where
  sound := hbus ▸ h.sound
  kept := hbus ▸ h.kept
  finalized := by
    rw [hsends, List.forall_mem_append, List.forall_mem_singleton]
    exact ⟨h.finalized, fun _ _ => nofun⟩
  held := by
    rw [hsends, hbus, List.forall_mem_append, List.forall_mem_singleton]
    exact ⟨h.held, List.forall_mem_nil _⟩
  origin n hn := by
    rw [hbus] at hn
    rw [hsends]
    exact (h.origin n hn).imp_right fun ⟨s, hs, hposted⟩ => ⟨s, List.mem_append_left _ hs, hposted⟩

theorem Tracked.advance {before after : List Sending} {stage : Sending.Stage}
    {new : List Message} (h : Tracked l settings x)
    (hs : x.sends = before ++ s :: after) (hsends : y.sends = before ++ { s with stage } :: after)
    (hnew : Sending.Advances x.bus s stage y.bus new) : Tracked l settings y := by
  have hmem : s ∈ x.sends := hs ▸ mem_middle.mpr (.inl rfl)
  have hothers : ∀ t ∈ before ++ after, t ∈ x.sends := fun t ht => hs ▸ mem_middle.mpr (.inr ht)
  refine ⟨?_, hnew.settings.trans h.kept, ?_, ?_, ?_⟩
  · rw [hnew.store]
    exact MemoryLog.foldl_append_sound h.sound new
  · intro t ht r follower hr
    rw [hsends] at ht
    rcases mem_middle.mp ht with rfl | ht
    · rcases hnew.finalized r follower hr with hr | hr
      · exact h.finalized s hmem r follower hr
      · exact h.kept ▸ hr
    · exact h.finalized t (hothers t ht) r follower hr
  · intro t ht n hn
    rw [hnew.store, MemoryLog.holds_foldl_append h.sound, Bool.or_eq_true]
    rw [hsends] at ht
    rcases mem_middle.mp ht with rfl | ht
    · rw [hnew.posted, List.mem_append] at hn
      rcases hn with hn | hn
      · exact .inl (h.held s hmem n hn)
      · exact .inr (List.any_eq_true.mpr ⟨n, hn, decide_eq_true rfl⟩)
    · exact .inl (h.held t (hothers t ht) n hn)
  · intro n hn
    obtain ⟨kept, hkept, hlog⟩ := MemoryLog.foldl_append_kept h.sound new
    rw [hnew.store, hlog, List.mem_append] at hn
    rw [hsends]
    rcases hn with hn | hn
    · rcases h.origin n hn with hold | ⟨t, ht, hposted⟩
      · exact .inl hold
      · right
        rw [hs] at ht
        rcases mem_middle.mp ht with rfl | ht
        · refine ⟨_, mem_middle.mpr (.inl rfl), ?_⟩
          rw [hnew.posted, List.map_append]
          exact List.mem_append_left _ hposted
        · exact ⟨t, mem_middle.mpr (.inr ht), hposted⟩
    · refine .inr ⟨_, mem_middle.mpr (.inl rfl), List.mem_map_of_mem ?_⟩
      rw [hnew.posted]
      exact List.mem_append_right _ (hkept.subset hn)

theorem Tracked.step (h : Tracked l settings x) (move : Move) :
    Tracked l settings (x.step backend move) := by
  rcases step_cases h.sound move with ⟨hsends, hsettings, hsound, hlog⟩ |
    ⟨m, fresh, -, hbus, hsends⟩ | ⟨before, s, after, stage, new, hs, hsends, hnew⟩
  · exact h.quiet hsends hsettings hsound hlog
  · exact h.begin hbus hsends
  · exact h.advance hs hsends hnew

theorem step_later (h : x.bus.store.Sound) (move : Move) (hs : s ∈ x.sends) :
    ∃ t ∈ (x.step backend move).sends, s.Later t := by
  rcases step_cases h move with ⟨hsends, -⟩ | ⟨m, fresh, -, -, hsends⟩ |
    ⟨before, t, after, stage, new, ht, hsends, hnew⟩
  · exact ⟨s, hsends ▸ hs, .refl s⟩
  · exact ⟨s, hsends ▸ List.mem_append_left _ hs, .refl s⟩
  · rw [hsends]
    rw [ht] at hs
    rcases mem_middle.mp hs with rfl | hs
    · exact ⟨_, mem_middle.mpr (.inl rfl), hnew.later⟩
    · exact ⟨s, mem_middle.mpr (.inr hs), .refl s⟩

theorem run_tracked (h : Tracked l settings x) (moves : List Move) :
    Tracked l settings (run backend x moves) := by
  induction moves generalizing x with
  | nil => exact h
  | cons move moves ih => exact ih (h.step move)

theorem run_later (h : Tracked l settings x) (moves : List Move) (hs : s ∈ x.sends) :
    ∃ t ∈ (run backend x moves).sends, s.Later t := by
  induction moves generalizing x s with
  | nil => exact ⟨s, hs, .refl s⟩
  | cons move moves ih =>
      obtain ⟨t, ht, hst⟩ := step_later h.sound move hs
      obtain ⟨u, hu, htu⟩ := ih (h.step move) ht
      exact ⟨u, hu, hst.trans htu⟩

theorem Tracked.mem_ids (h : Tracked l settings x) (hs : s ∈ x.sends) (hn : n ∈ s.stage.posted) :
    n.id ∈ s.ids := by
  obtain ⟨r, follower, hr, hmem⟩ := Sending.made?_of_posted hn
  obtain ⟨thread, hfinal⟩ := h.finalized s hs r follower hr
  simpa [Sending.ids] using hfinal.mem_ids hmem

/-- What a log has become through calls that began in turn: to what it had, each of the calls has
added its part. -/
structure InParts (l : MemoryLog) (x : Exchange MemoryLog) (parts : List (Sending × List Message)) :
    Prop where
  sends : parts.map Prod.fst = x.sends
  log : x.bus.store.log.map undecided = l.log.map undecided ++ parts.flatMap Prod.snd
  within : ∀ p ∈ parts, p.2.Sublist (p.1.stage.posted.map undecided)
  settled : x.sends.Pairwise fun s _ => s.stage.settled = true

theorem inParts_on (bus : Bus MemoryLog) : InParts bus.store (on bus) [] :=
  ⟨rfl, (List.append_nil _).symm, List.forall_mem_nil _, .nil⟩

theorem InParts.begin (h : InParts l x parts) (hall : ∀ s ∈ x.sends, s.stage.settled = true)
    (hbus : y.bus = x.bus) (hsends : y.sends = x.sends ++ [⟨m, fresh, .started⟩]) :
    InParts l y (parts ++ [(⟨m, fresh, .started⟩, [])]) where
  sends := by rw [List.map_append, h.sends, hsends]; rfl
  log := by rw [hbus, h.log, List.flatMap_append, List.flatMap_singleton, List.append_nil]
  within := by
    rw [List.forall_mem_append, List.forall_mem_singleton]
    exact ⟨h.within, .slnil⟩
  settled := by
    rw [hsends, List.pairwise_append]
    exact ⟨h.settled, List.pairwise_singleton _ _, fun s hs _ _ => hall s hs⟩

theorem InParts.advance {before after : List Sending} {stage : Sending.Stage}
    {new : List Message} (hsound : x.bus.store.Sound) (h : InParts l x parts)
    (hs : x.sends = before ++ s :: after) (hsends : y.sends = before ++ { s with stage } :: after)
    (hnew : Sending.Advances x.bus s stage y.bus new) : ∃ parts, InParts l y parts := by
  obtain ⟨kept, hkept, hlog⟩ := MemoryLog.foldl_append_kept hsound new
  have hsettled := h.settled
  rw [hs, List.pairwise_append, List.pairwise_cons] at hsettled
  obtain ⟨hbefore, ⟨hthis, hafter⟩, hothers⟩ := hsettled
  -- A call after which another has begun adds nothing more.
  have hlast : after = [] ∨ stage.settled = true ∧ new = [] := by
    cases after with
    | nil => exact .inl rfl
    | cons t after => exact .inr (hnew.settled (hthis t List.mem_cons_self))
  have hparts := h.sends.trans hs
  obtain ⟨pb, pc, rfl, rfl, hpc⟩ := List.map_eq_append_iff.mp hparts
  obtain ⟨⟨s', part⟩, pa, rfl, hs', rfl⟩ := List.map_eq_cons_iff.mp hpc
  obtain rfl : s' = s := hs'
  refine ⟨pb ++ ({ s' with stage }, part ++ kept.map undecided) :: pa, ?_, ?_, ?_, ?_⟩
  · rw [hsends, List.map_append, List.map_cons]
  · have hx := h.log
    rw [hnew.store, hlog, List.map_append, hx]
    rcases hlast with hnil | ⟨-, rfl⟩
    · obtain rfl := List.map_eq_nil_iff.mp hnil
      simp
    · obtain rfl := List.sublist_nil.mp hkept
      simp
  · intro p hp
    rcases mem_middle.mp hp with rfl | hp
    · rw [hnew.posted, List.map_append]
      exact (h.within (s', part) (mem_middle.mpr (.inl rfl))).append (hkept.map _)
    · exact h.within p (mem_middle.mpr (.inr hp))
  · rw [hsends, List.pairwise_append, List.pairwise_cons]
    refine ⟨hbefore, ⟨fun t ht => ?_, hafter⟩, fun t ht _ _ => hothers t ht s' List.mem_cons_self⟩
    exact (hlast.resolve_left (List.ne_nil_of_mem ht)).1

theorem InParts.step (hsound : x.bus.store.Sound) (h : InParts l x parts) {move : Move}
    (hturn : move.begun?.isSome = true → ∀ s ∈ x.sends, s.stage.settled = true) :
    ∃ parts, InParts l (x.step backend move) parts := by
  rcases step_cases hsound move with ⟨hsends, -, -, hlog⟩ |
    ⟨m, fresh, rfl, hbus, hsends⟩ | ⟨before, s, after, stage, new, hs, hsends, hnew⟩
  · exact ⟨parts, hsends ▸ h.sends, hlog.trans h.log, h.within, hsends ▸ h.settled⟩
  · exact ⟨_, h.begin (hturn rfl) hbus hsends⟩
  · exact h.advance hsound hs hsends hnew

theorem inParts_run (htracked : Tracked l settings x) (h : InParts l x parts)
    (hturn : InTurn backend x moves) : ∃ parts, InParts l (run backend x moves) parts := by
  induction moves generalizing x parts with
  | nil => exact ⟨parts, h⟩
  | cons move moves ih =>
      obtain ⟨parts, hparts⟩ := h.step htracked.sound hturn.1
      exact ih (htracked.step move) hparts hturn.2

end Exchange

end Parley
