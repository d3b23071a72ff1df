import Parley.Proofs.Bus.Effects

namespace Parley.Bus

open MemoryLog (backend)

/-- A bus over a log in memory, after anything was done with either. -/
def Reached (settings : Settings) (bus : Bus MemoryLog) : Prop :=
  ∃ earlier trail ops,
    bus = (run backend (new settings (backend.runAll MemoryLog.empty earlier).2 trail) ops).bus

/-- Whoever looks for the id of a message, by any view of the log, sees this message and no
other. -/
structure Shown (l : MemoryLog) (m : Message) : Prop where
  find : l.find? m.id = some m
  thread : ∀ n, n.id = m.id → (n ∈ l.thread n.threadId ↔ n = m)
  tenant : ∀ n, n.id = m.id → ∀ t, (n ∈ l.ofTenant t ↔ n = m ∧ n.concerns t = true)

variable {settings : Settings} {bus bus' : Bus MemoryLog} {l : MemoryLog} {fresh : Fresh}
  {m r : Message}

theorem Reached.invariant (h : Reached settings bus) :
    bus.store.Sound ∧ bus.settings = settings := by
  obtain ⟨earlier, trail, ops, rfl⟩ := h
  refine run_induction
    (P := fun r : Run MemoryLog => r.bus.store.Sound ∧ r.bus.settings = settings) ?_ ?_ ops
  · exact ⟨MemoryLog.runAll_sound MemoryLog.empty_sound earlier, rfl⟩
  · intro r op h
    exact ⟨perform_sound h.1 op, (perform_settings op r.bus).trans h.2⟩

theorem shown_iff (h : l.Sound) : Shown l m ↔ l.find? m.id = some m := by
  refine ⟨Shown.find, fun hm => ?_⟩
  have hmem : ∀ n, n.id = m.id → (n ∈ l.log ↔ n = m) := by
    intro n hid
    constructor
    · intro hn
      have hfind := MemoryLog.find?_of_mem h hn
      rw [hid, hm] at hfind
      exact (Option.some.inj hfind).symm
    · rintro rfl
      exact MemoryLog.mem_of_find? h hm
  refine ⟨hm, ?_, ?_⟩
  · intro n hid
    rw [MemoryLog.mem_thread_iff h, hmem n hid]
    exact and_iff_left rfl
  · intro n hid t
    rw [MemoryLog.ofTenant, List.mem_filter, hmem n hid]

theorem keepBoth_trail (fresh : Fresh) (m : Message) (follower : Option Message)
    (bus : Bus MemoryLog) :
    Option.Rel (Extended (m :: follower.toList)) bus.trail (bus.keepBoth fresh m follower).trail := by
  cases ht : bus.trail with
  | none =>
      have hnone : (bus.keepBoth fresh m follower).trail = none := by
        cases follower <;> simp [keepBoth, keep, record, ht]
      rw [hnone]
      exact .none
  | some t =>
      have hone := (Extended.refl t).record fresh.entryId fresh.time m
      cases follower with
      | none =>
          simp only [keepBoth, Option.elim, keep, record, ht, Option.map_some]
          exact .some hone
      | some e =>
          simp only [keepBoth, Option.elim, keep, record, ht, Option.map_some]
          exact .some (hone.record fresh.secondEntryId fresh.time e)

theorem keepBoth_handedOut (fresh : Fresh) (m : Message) (follower : Option Message)
    (bus : Bus MemoryLog) (messages : List Message) :
    (bus.keepBoth fresh m follower).history ++ (bus.keepBoth fresh m follower).handedOut messages =
      bus.history ++ bus.handedOut messages := by
  cases follower <;> rfl

theorem send_spec (h : bus.send backend fresh m = (.ok r, bus')) :
    ∃ follower, bus.finished fresh (withThread m) = (r, follower) ∧
      bus'.store = (r :: follower.toList).foldl .append bus.store ∧
      bus'.history = bus.history ++ bus.handedOut (r :: follower.toList) ∧
      Option.Rel (Extended (r :: follower.toList)) bus.trail bus'.trail := by
  cases hc : checked m with
  | error e =>
      rw [send_of_flaw hc] at h
      cases h
  | ok n =>
      obtain ⟨-, -, rfl⟩ := checked_eq_ok_iff.mp hc
      rw [send_of_checked hc, Prod.mk.injEq, Except.ok.injEq] at h
      generalize bus.finished fresh (withThread m) = finished at h ⊢
      obtain ⟨r, follower⟩ := finished
      obtain ⟨rfl, rfl⟩ := h
      refine ⟨follower, rfl, ?_, ?_, ?_⟩
      · rw [fanOutBoth_store, keepBoth_store]
      · rw [fanOutBoth_history, keepBoth_handedOut]
      · rw [fanOutBoth_trail]
        exact keepBoth_trail fresh r follower bus

theorem finished_id {follower : Option Message}
    (h : bus.finished fresh (withThread m) = (r, follower)) : r.id = m.id := by
  have hid : (bus.finished fresh (withThread m)).1.id = (withThread m).id := complete_id _ _ _ _
  rwa [h] at hid

/-- What a send that succeeds leaves behind, whether or not its id was known. The message that is
returned, handed out and recorded is the one that the log shows exactly if its id was new or
what was stored under it was the same; else the log still shows what was stored first. -/
theorem send_ok_views (hbus : Reached settings bus)
    (hr : bus.send backend fresh m = (.ok r, bus')) :
    r.id = m.id ∧
    Shown bus'.store ((bus.store.find? m.id).getD r) ∧
    (Shown bus'.store r ↔ ∀ x, bus.store.find? m.id = some x → x = r) ∧
    ∃ follower : Option Message,
      bus'.history = bus.history ++ bus.handedOut (r :: follower.toList) ∧
      Option.Rel (Extended (r :: follower.toList)) bus.trail bus'.trail := by
  obtain ⟨hsound, -⟩ := hbus.invariant
  obtain ⟨follower, hfinished, hstore, hhistory, htrail⟩ := send_spec hr
  have hid : r.id = m.id := finished_id hfinished
  have hsound' : bus'.store.Sound := by
    rw [hstore]
    exact MemoryLog.foldl_append_sound hsound _
  have hfind : bus'.store.find? m.id = some ((bus.store.find? m.id).getD r) := by
    rw [hstore, MemoryLog.find?_foldl_append hsound, List.find?_cons_of_pos (by simpa using hid)]
    cases bus.store.find? m.id <;> rfl
  have hstored : ((bus.store.find? m.id).getD r).id = m.id := MemoryLog.find?_id hsound' hfind
  refine ⟨hid, ?_, ?_, follower, hhistory, htrail⟩
  · rw [shown_iff hsound', hstored, hfind]
  · rw [shown_iff hsound', hid, hfind, Option.some.injEq]
    cases bus.store.find? m.id <;> simp

def question : Message := .new "q" ⟨0, 0, 0⟩ "auditor" "auditee" "agent" .question "Why?"

def approvedBus : Bus MemoryLog :=
  (run backend (new .standard MemoryLog.empty (some .start))
    [.send someFresh question, .decide ⟨⟨1, 0, 0⟩, "f", "c", "d"⟩ "q" "user-1" true]).bus

theorem approvedBus_reached : Reached .standard approvedBus := ⟨[], _, _, rfl⟩

theorem send_ok_views_again :
    Reached .standard approvedBus ∧
    ∃ r bus', approvedBus.send backend someFresh question = (.ok r, bus') ∧
      r.awaitsDecision = true ∧ ¬ Shown bus'.store r ∧
      ∃ x, Shown bus'.store x ∧ x.approved = some true := by
  have hsent : approvedBus.send backend someFresh question =
      (.ok { question with thread := some "q" },
        (approvedBus.send backend someFresh question).2) := rfl
  have hstored : approvedBus.store.find? question.id = some
      { question with
        thread := some "q", approved := some true, approvedBy := some "user-1"
        approvedAt := some ⟨1, 0, 0⟩ } := rfl
  obtain ⟨-, hshown, hiff, -⟩ := send_ok_views approvedBus_reached hsent
  refine ⟨approvedBus_reached, _, _, hsent, rfl, ?_, _, hshown, ?_⟩
  · rw [hiff]
    intro h
    have happroved := congrArg Message.approved (h _ hstored)
    cases happroved
  · rw [hstored]
    rfl

/-- A send may return a message that the log does not have. -/
theorem returned_not_stored : ∃ r bus', approvedBus.send backend someFresh question = (.ok r, bus') ∧
    bus'.store.find? r.id ≠ some r := by
  refine ⟨_, _, rfl, ?_⟩
  intro h
  have happroved : some (some true) = some none := congrArg (Option.map Message.approved) h
  cases happroved

end Parley.Bus
