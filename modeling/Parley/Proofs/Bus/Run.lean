import Mathlib.Data.List.Induction
import Parley.Bus.Basic
import Parley.Proofs.Store.MemoryLog

namespace Parley.Bus

variable {σ : Type}

inductive Op
  | send (fresh : Fresh) (m : Message)
  | decide (fresh : Fresh) (id approver : String) (approved : Bool)
  | wait (id : String) (millis : Option Nat)
  | await (ticket : Nat)
  | cancel (id : String)
  | abandon (ticket : Nat)
  | advance (millis : Nat)
  | subscribe (tenant : String) (s : Subscriber)
  | unsubscribe (tenant : String)
  | thread (id : String)
  | messagesOf (tenant : String)
  | pendingOf (tenant : String)
  | health
  | flushTrail

inductive Answer
  | sent (result : Except Error Message)
  | decided (result : Except Error Bool)
  | waiting (ticket : Nat)
  | waited (result : Option (Except Error Outcome))
  | count (n : Nat)
  | messages (result : Except Error (List Message))
  | healthy (result : Except Error Bool)
  | entries (list : Option (List Audit.Entry))
  | done

structure Event where
  op : Op
  answer : Answer

def answering {α : Type} (answer : α → Answer) (r : α × Bus σ) : Answer × Bus σ := (answer r.1, r.2)

def perform (b : Backend σ) (bus : Bus σ) : Op → Answer × Bus σ
  | .send fresh m => answering .sent (bus.send b fresh m)
  | .decide fresh id approver approved =>
    answering .decided (bus.decide b fresh id approver approved)
  | .wait id millis => answering .waiting (bus.wait b id millis)
  | .await ticket => answering .waited (bus.await ticket)
  | .cancel id => answering .count (bus.cancel id)
  | .abandon ticket => (.done, bus.abandon ticket)
  | .advance millis => (.done, bus.advance millis)
  | .subscribe tenant s => (.done, bus.subscribe tenant s)
  | .unsubscribe tenant => answering .count (bus.unsubscribe tenant)
  | .thread id => answering .messages (bus.thread b id)
  | .messagesOf tenant => answering .messages (bus.messagesOf b tenant)
  | .pendingOf tenant => answering .messages (bus.pendingOf b tenant)
  | .health => answering .healthy (bus.health b)
  | .flushTrail => answering .entries bus.flushTrail

structure Run (σ : Type) where
  events : List Event
  bus : Bus σ

def Run.step (b : Backend σ) (r : Run σ) (op : Op) : Run σ :=
  ⟨r.events ++ [⟨op, (r.bus.perform b op).1⟩], (r.bus.perform b op).2⟩

def run (b : Backend σ) (bus : Bus σ) (ops : List Op) : Run σ :=
  ops.foldl (Run.step b) ⟨[], bus⟩

theorem run_induction {P : Run σ → Prop} {b : Backend σ} {bus : Bus σ} (h : P ⟨[], bus⟩)
    (hs : ∀ r op, P r → P (r.step b op)) (ops : List Op) : P (run b bus ops) := by
  induction ops using List.reverseRecOn with
  | nil => exact h
  | append_singleton ops op ih =>
      rw [run, List.foldl_append]
      exact hs _ op ih

theorem fanOut_induction {Q : Bus σ → Prop}
    (h : ∀ bus millis history, Q bus → Q { bus.advance millis with history })
    (m : Message) {bus : Bus σ} (hb : Q bus) : Q (bus.fanOut m) := by
  rw [fanOut]
  generalize bus.subscribersOf m.toTenant = subscribers
  induction subscribers generalizing bus with
  | nil => exact hb
  | cons s subscribers ih => exact ih (h _ _ _ hb)

theorem fanOutBoth_induction {Q : Bus σ → Prop}
    (h : ∀ bus millis history, Q bus → Q { bus.advance millis with history })
    (m : Message) (follower : Option Message) {bus : Bus σ} (hb : Q bus) :
    Q (bus.fanOutBoth m follower) := by
  have hm := fanOut_induction h m hb
  cases follower with
  | none => exact hm
  | some e => exact fanOut_induction h e hm

theorem fanOutBoth_store (m : Message) (follower : Option Message) (bus : Bus σ) :
    (bus.fanOutBoth m follower).store = bus.store :=
  fanOutBoth_induction (Q := fun c => c.store = bus.store) (fun _ _ _ h => h) m follower rfl

theorem fanOutBoth_settings (m : Message) (follower : Option Message) (bus : Bus σ) :
    (bus.fanOutBoth m follower).settings = bus.settings :=
  fanOutBoth_induction (Q := fun c => c.settings = bus.settings) (fun _ _ _ h => h) m follower rfl

/-! A bus over a log in memory. No call to the log fails, so that the only thing which can stop
a message is a flaw of its own. -/

open MemoryLog (backend)

def keep (entryId : String) (time : Time.Instant) (m : Message) (bus : Bus MemoryLog) :
    Bus MemoryLog :=
  { bus with store := bus.store.append m }.record entryId time (creation m)

def keepBoth (fresh : Fresh) (m : Message) (follower : Option Message) (bus : Bus MemoryLog) :
    Bus MemoryLog :=
  follower.elim (bus.keep fresh.entryId fresh.time m) fun e =>
    (bus.keep fresh.entryId fresh.time m).keep fresh.secondEntryId fresh.time e

def threadBefore (bus : Bus MemoryLog) (m : Message) : List Message :=
  if m.kind = .answer then bus.store.thread m.threadId else []

def finished (bus : Bus MemoryLog) (fresh : Fresh) (m : Message) : Message × Option Message :=
  complete bus.settings fresh m (bus.threadBefore m)

theorem send_of_flaw {m : Message} {e : Error} (h : checked m = .error e) (fresh : Fresh)
    (bus : Bus MemoryLog) : bus.send backend fresh m = (.error e, bus) := by
  simp only [send, h]

theorem threadFor_memory (bus : Bus MemoryLog) (m : Message) :
    bus.threadFor backend m = (.ok (bus.threadBefore m), bus) := by
  by_cases hk : m.kind = .answer <;> simp [threadFor, threadBefore, hk, backend]

theorem thread_memory (bus : Bus MemoryLog) (id : String) :
    bus.thread backend id = (.ok (bus.store.thread id), bus) := rfl

theorem send_of_checked {m n : Message} (h : checked m = .ok n) (fresh : Fresh)
    (bus : Bus MemoryLog) :
    bus.send backend fresh m = (.ok (bus.finished fresh n).1,
      (bus.keepBoth fresh (bus.finished fresh n).1 (bus.finished fresh n).2).fanOutBoth
        (bus.finished fresh n).1 (bus.finished fresh n).2) := by
  simp only [send, h, threadFor_memory, finished]
  rcases complete bus.settings fresh n (bus.threadBefore n) with ⟨r, _ | e⟩ <;> rfl

theorem keepBoth_store (fresh : Fresh) (m : Message) (follower : Option Message)
    (bus : Bus MemoryLog) :
    (bus.keepBoth fresh m follower).store = (m :: follower.toList).foldl .append bus.store := by
  cases follower <;> rfl

theorem keepBoth_desk (fresh : Fresh) (m : Message) (follower : Option Message)
    (bus : Bus MemoryLog) : (bus.keepBoth fresh m follower).desk = bus.desk := by
  cases follower <;> rfl

theorem decide_frame (fresh : Fresh) (id approver : String) (approved : Bool)
    (bus : Bus MemoryLog) :
    (bus.decide backend fresh id approver approved).2.settings = bus.settings ∧
    ((bus.decide backend fresh id approver approved).2.store = bus.store ∨
      (bus.decide backend fresh id approver approved).2.store =
        (bus.store.decide id ⟨approved, approver, fresh.time⟩).2) := by
  simp only [decide, backend]
  cases hf : bus.store.find? id with
  | none => exact ⟨rfl, .inl rfl⟩
  | some m =>
      simp only
      cases bus.store.decide id ⟨approved, approver, fresh.time⟩ with
      | mk known l => cases known <;> exact ⟨rfl, .inr rfl⟩

theorem perform_settings (op : Op) (bus : Bus MemoryLog) :
    (bus.perform backend op).2.settings = bus.settings := by
  cases op with
  | send fresh m =>
      cases hc : checked m with
      | error e => simp only [perform, answering, send_of_flaw hc]
      | ok n =>
          simp only [perform, answering, send_of_checked hc, fanOutBoth_settings]
          cases (bus.finished fresh n).2 <;> rfl
  | decide fresh id approver approved => exact (decide_frame fresh id approver approved bus).1
  | await ticket =>
      simp only [perform, answering, await]
      split <;> rfl
  | flushTrail =>
      simp only [perform, answering, flushTrail]
      split <;> rfl
  | _ => rfl

theorem perform_sound {bus : Bus MemoryLog} (h : bus.store.Sound) (op : Op) :
    (bus.perform backend op).2.store.Sound := by
  cases op with
  | send fresh m =>
      cases hc : checked m with
      | error e =>
          simp only [perform, answering, send_of_flaw hc]
          exact h
      | ok n =>
          simp only [perform, answering, send_of_checked hc, fanOutBoth_store, keepBoth_store]
          exact MemoryLog.foldl_append_sound h _
  | decide fresh id approver approved =>
      simp only [perform, answering]
      rcases (decide_frame fresh id approver approved bus).2 with hs | hs
      · rw [hs]
        exact h
      · rw [hs]
        exact MemoryLog.decide_sound h id _
  | await ticket =>
      simp only [perform, answering, await]
      split <;> exact h
  | flushTrail =>
      simp only [perform, answering, flushTrail]
      split <;> exact h
  | _ => exact h

end Parley.Bus
