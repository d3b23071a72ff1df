import Parley.Audit.Trail
import Parley.Proofs.Audit.Tamper

namespace Parley.Audit

open Time (Instant)

namespace Trail

inductive Op
  | record (id : String) (time : Instant) (deed : Deed)
  | decide (id : String) (time : Instant) (decision : AgentDecision)
  | flush
  | pending
  | lastHash

inductive Answer
  | entry (e : Entry)
  | batch (entries : List Entry)
  | count (n : Nat)
  | hash (h : String)

def Op.draft? : Op → Option Entry
  | .record id time deed => some ⟨id, time, deed, "", ""⟩
  | .decide id time d => some ⟨id, time, d.deed, "", ""⟩
  | .flush | .pending | .lastHash => none

def Answer.entry? : Answer → Option Entry
  | .entry e => some e
  | _ => none

def Answer.batch? : Answer → Option (List Entry)
  | .batch entries => some entries
  | _ => none

def perform (t : Trail) : Op → Answer × Trail
  | .record id time deed => (.entry (t.record id time deed).1, (t.record id time deed).2)
  | .decide id time d => (.entry (t.record id time d.deed).1, (t.record id time d.deed).2)
  | .flush => (.batch t.flush.1, t.flush.2)
  | .pending => (.count t.pending, t)
  | .lastHash => (.hash t.lastHash, t)

structure Run where
  answers : List Answer
  trail : Trail

namespace Run

def recorded (r : Run) : List Entry := r.answers.filterMap Answer.entry?

def batches (r : Run) : List (List Entry) := r.answers.filterMap Answer.batch?

def step (r : Run) (op : Op) : Run :=
  ⟨r.answers ++ [(r.trail.perform op).1], (r.trail.perform op).2⟩

end Run

def run (start : String) (ops : List Op) : Run := ops.foldl Run.step ⟨[], resume start⟩

/-- All that is recorded by trails of which each goes on after the last hash of the one before. -/
def inTurn (start : String) : List (List Op) → List Entry
  | [] => []
  | ops :: rest =>
    (run start ops).recorded ++ inTurn (run start ops).trail.lastHash rest

variable {start : String} {r : Run} {ops : List Op} {op : Op} {drafts : List Entry}

theorem Run.step_cases (r : Run) (op : Op) :
    (∃ e, op.draft? = some e ∧ (r.step op).recorded = r.recorded ++ [e.after r.trail.lastHash] ∧
      (r.step op).batches = r.batches ∧
      (r.step op).trail = r.trail.push (e.after r.trail.lastHash)) ∨
    (op.draft? = none ∧ (r.step op).recorded = r.recorded ∧
      (r.step op).batches = r.batches ++ [r.trail.buffer] ∧
      (r.step op).trail = { r.trail with buffer := [] }) ∨
    (op.draft? = none ∧ (r.step op).recorded = r.recorded ∧
      (r.step op).batches = r.batches ∧ (r.step op).trail = r.trail) := by
  simp only [Run.recorded, Run.batches, Run.step, List.filterMap_append]
  cases op with
  | record | decide => exact .inl ⟨_, rfl, rfl, List.append_nil _, rfl⟩
  | flush => exact .inr (.inl ⟨rfl, List.append_nil _, rfl, rfl⟩)
  | pending | lastHash =>
      exact .inr (.inr ⟨rfl, List.append_nil _, List.append_nil _, rfl⟩)

/-- What was recorded is the chain of the drafts, all of it handed over or buffered, and the
trail stands at its end. -/
structure Run.Chains (start : String) (drafts : List Entry) (r : Run) : Prop where
  recorded : r.recorded = Entry.chain start drafts
  whole : r.batches.flatten ++ r.trail.buffer = r.recorded
  last : r.trail.lastHash = Entry.lastHash start r.recorded

theorem Run.Chains.step (h : r.Chains start drafts) (op : Op) :
    (r.step op).Chains start (drafts ++ op.draft?.toList) := by
  obtain ⟨hrecorded, hwhole, hlast⟩ := h
  rcases r.step_cases op with ⟨e, hdraft, hrec, hbatches, htrail⟩ |
    ⟨hdraft, hrec, hbatches, htrail⟩ | ⟨hdraft, hrec, hbatches, htrail⟩
  -- The new entry follows the hash that the trail stands at, which is the last of the chain.
  · refine ⟨?_, ?_, ?_⟩
    · rw [hrec, hdraft, hlast, hrecorded, Option.toList_some, Entry.chain_append]
      rfl
    · rw [hrec, hbatches, htrail, ← hwhole, List.append_assoc]
      rfl
    · rw [hrec, htrail, Entry.lastHash_append]
      rfl
  · refine ⟨?_, ?_, ?_⟩
    · rw [hrec, hdraft, hrecorded, Option.toList_none, List.append_nil]
    · rw [hrec, hbatches, htrail, ← hwhole, List.flatten_append, List.flatten_singleton,
        List.append_nil]
    · rw [hrec, htrail]
      exact hlast
  · refine ⟨?_, ?_, ?_⟩
    · rw [hrec, hdraft, hrecorded, Option.toList_none, List.append_nil]
    · rw [hrec, hbatches, htrail, hwhole]
    · rw [hrec, htrail, hlast]

theorem Run.Chains.foldl (h : r.Chains start drafts) (ops : List Op) :
    (ops.foldl Run.step r).Chains start (drafts ++ ops.filterMap Op.draft?) := by
  induction ops generalizing r drafts with
  | nil => rwa [List.filterMap_nil, List.append_nil]
  | cons op ops ih =>
      have hdrafts : drafts ++ (op :: ops).filterMap Op.draft? =
          drafts ++ op.draft?.toList ++ ops.filterMap Op.draft? := by
        rw [List.append_assoc]
        cases hop : op.draft? with
        | none => rw [List.filterMap_cons_none hop, Option.toList_none, List.nil_append]
        | some e => rw [List.filterMap_cons_some hop, Option.toList_some, List.singleton_append]
      rw [hdrafts]
      exact ih (h.step op)

theorem run_chains (start : String) (ops : List Op) :
    (run start ops).Chains start (ops.filterMap Op.draft?) := by
  have hresumed : Run.Chains start [] ⟨[], resume start⟩ := ⟨rfl, rfl, rfl⟩
  exact hresumed.foldl ops

theorem inTurn_eq_chain (start : String) (parts : List (List Op)) :
    inTurn start parts = Entry.chain start (parts.flatten.filterMap Op.draft?) := by
  induction parts generalizing start with
  | nil => rfl
  | cons ops rest ih =>
      obtain ⟨hrecorded, -, hlast⟩ := run_chains start ops
      rw [inTurn, ih, hlast, hrecorded, List.flatten_cons, List.filterMap_append,
        Entry.chain_append]

theorem verify_batch {batches before after : List (List Entry)} {batch rest : List Entry}
    (h : Entry.verify start (batches.flatten ++ rest) = true)
    (hbatches : batches = before ++ batch :: after) :
    Entry.verify (Entry.lastHash start before.flatten) batch = true := by
  rw [hbatches, List.flatten_append, List.flatten_cons, List.append_assoc, List.append_assoc,
    Entry.verify_append, Entry.verify_append] at h
  exact h.2.1

/-- In every run of a trail each record that was asked for is returned once, and the batches
handed over and the buffer are just these entries in their order. What the trail says of itself
is so, each batch follows the hash before it, and the entries are one chain, also when other
trails go on after it, one after the other. -/
theorem run_history (start : String) (ops : List Op) (rest : List (List Op)) :
    (run start ops).recorded = Entry.chain start (ops.filterMap Op.draft?) ∧
    (run start ops).batches.flatten ++ (run start ops).trail.buffer = (run start ops).recorded ∧
    (run start ops).trail.perform .pending =
      (.count (run start ops).trail.buffer.length, (run start ops).trail) ∧
    (run start ops).trail.perform .lastHash =
      (.hash (Entry.lastHash start (run start ops).recorded), (run start ops).trail) ∧
    (∀ before batch after, (run start ops).batches = before ++ batch :: after →
      Entry.verify (Entry.lastHash start before.flatten) batch = true) ∧
    Entry.verify start (run start ops).recorded = true ∧
    Entry.verify start
      ((run start ops).recorded ++ inTurn (run start ops).trail.lastHash rest) = true := by
  obtain ⟨hrecorded, hwhole, hlast⟩ := run_chains start ops
  have hverified : Entry.verify start (run start ops).recorded = true := by
    rw [hrecorded]
    exact Entry.verify_chain start _
  refine ⟨hrecorded, hwhole, rfl, ?_, ?_, hverified, ?_⟩
  · rw [← hlast]
    rfl
  · intro before batch after hbatches
    rw [← hwhole] at hverified
    exact verify_batch hverified hbatches
  · have hall := inTurn_eq_chain start (ops :: rest)
    rw [inTurn] at hall
    rw [hall]
    exact Entry.verify_chain start _

end Trail

end Parley.Audit
