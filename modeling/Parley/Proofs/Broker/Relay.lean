import Parley.Broker.Stream
import Parley.Proofs.Store.PlainList

namespace Parley.Broker

open Backend (Op Answer)

variable {ω σ τ α : Type}

/-- A backend and an outlet of which both have all of one state. -/
def relayIn (b : Backend ω) (o : Outlet ω) : Backend ω where
  name := "nats"
  append m w :=
    match b.append m w with
    | (.error e, w) => (.error e, w)
    | (.ok (), w) => (.ok (), (o.publish m w).2)
  thread := b.thread
  tenant := b.tenant
  find := b.find
  decide := b.decide
  health w := if o.isConnected w then b.health w else (.ok false, w)

def insideOf (b : Backend σ) : Backend (σ × τ) where
  name := b.name
  append m := inner (b.append m)
  thread id := inner (b.thread id)
  tenant id := inner (b.tenant id)
  find id := inner (b.find id)
  decide id a := inner (b.decide id a)
  health := inner b.health

def besideOf (o : Outlet τ) : Outlet (σ × τ) where
  publish m s := ((o.publish m s.2).1, s.1, (o.publish m s.2).2)
  isConnected s := o.isConnected s.2

/-- A call to the backend inside, with its answer, or to the broker. -/
inductive Call
  | inside (op : Op) (answer : Except Error Answer)
  | publish (m : Message)

def noting (op : Op) (answer : α → Answer) (f : ω → Except Error α × ω) (s : ω × List Call) :
    Except Error α × ω × List Call :=
  ((f s.1).1, (f s.1).2, s.2 ++ [.inside op ((f s.1).1.map answer)])

def notedBackend (b : Backend ω) : Backend (ω × List Call) where
  name := b.name
  append m := noting (.append m) (fun _ => .done) (b.append m)
  thread id := noting (.thread id) .messages (b.thread id)
  tenant id := noting (.tenant id) .messages (b.tenant id)
  find id := noting (.find id) .message (b.find id)
  decide id a := noting (.decide id a) .known (b.decide id a)
  health s := ((b.health s.1).1, (b.health s.1).2, s.2)

def notedOutlet (o : Outlet ω) : Outlet (ω × List Call) where
  publish m s := ((o.publish m s.1).1, (o.publish m s.1).2, s.2 ++ [.publish m])
  isConnected s := o.isConnected s.1

def notedRelay (b : Backend σ) (o : Outlet τ) : Backend ((σ × τ) × List Call) :=
  relayIn (notedBackend (insideOf b)) (notedOutlet (besideOf o))

def callsOf : Op × Except Error Answer → List Call
  | (.append m, .ok answer) => [.inside (.append m) (.ok answer), .publish m]
  | (op, answer) => [.inside op answer]

variable {b : Backend σ} {o : Outlet τ} {s : σ} {t : τ} {ops : List Op} {op : Op} {m : Message}
  {c : Config} {p : Publication} {passages : List Passage} {stream : Stream}

theorem inner_eq (f : σ → Except Error α × σ) (s : σ × τ) :
    inner f s = ((f s.1).1, (f s.1).2, s.2) := rfl

theorem relay_eq_relayIn (b : Backend σ) (o : Outlet τ) :
    relay b o = relayIn (insideOf b) (besideOf o) := by
  have happend : (relay b o).append = (relayIn (insideOf b) (besideOf o)).append := by
    funext m s
    simp only [relay, relayIn, insideOf, besideOf, inner_eq]
    cases b.append m s.1 with
    | mk result s' => cases result <;> rfl
  exact congrArg (fun append => { relay b o with append }) happend

theorem relay_run (b : Backend σ) (o : Outlet τ) (s : σ) (t : τ) (op : Op) :
    ∃ t', (relay b o).run (s, t) op = ((b.run s op).1, (b.run s op).2, t') := by
  cases op with
  | append m =>
      simp only [Backend.run, relay, Backend.map]
      rcases b.append m s with ⟨e | _, s'⟩
      · exact ⟨t, rfl⟩
      · exact ⟨_, rfl⟩
  | thread | tenant | find | decide => exact ⟨t, rfl⟩

theorem relay_runAll (b : Backend σ) (o : Outlet τ) (s : σ) (t : τ) (ops : List Op) :
    ∃ t', (relay b o).runAll (s, t) ops = ((b.runAll s ops).1, (b.runAll s ops).2, t') := by
  induction ops generalizing s t with
  | nil => exact ⟨t, rfl⟩
  | cons op ops ih =>
      obtain ⟨t', hrun⟩ := relay_run b o s t op
      obtain ⟨t'', hrest⟩ := ih (b.run s op).2 t'
      refine ⟨t'', ?_⟩
      simp only [Backend.runAll, hrun, hrest]

theorem relayIn_run_noted (b : Backend ω) (o : Outlet ω) (w : ω) (calls : List Call) (op : Op) :
    (relayIn (notedBackend b) (notedOutlet o)).run (w, calls) op =
      (((relayIn b o).run w op).1, ((relayIn b o).run w op).2,
        calls ++ callsOf (op, ((relayIn b o).run w op).1)) := by
  cases op with
  | append m =>
      simp only [Backend.run, relayIn, notedBackend, notedOutlet, noting, Backend.map]
      rcases b.append m w with ⟨e | _, w'⟩
      · rfl
      · simp only [List.append_assoc]
        rfl
  | thread | tenant | find | decide => rfl

theorem relayIn_runAll_noted (b : Backend ω) (o : Outlet ω) (w : ω) (calls : List Call)
    (ops : List Op) :
    (relayIn (notedBackend b) (notedOutlet o)).runAll (w, calls) ops =
      (((relayIn b o).runAll w ops).1, ((relayIn b o).runAll w ops).2,
        calls ++ (ops.zip ((relayIn b o).runAll w ops).1).flatMap callsOf) := by
  induction ops generalizing w calls with
  | nil =>
      rw [Backend.runAll, Backend.runAll]
      simp
  | cons op ops ih =>
      simp only [Backend.runAll, relayIn_run_noted, ih, List.zip_cons_cons, List.flatMap_cons,
        List.append_assoc]

theorem mem_entries_publish (h : p ∈ (c.lossyOutlet.publish m (passages, stream)).2.2.entries) :
    p = c.publication m ∨ p ∈ stream.entries := by
  have hstored : p ∈ (stream.publish (c.publication m)).2.entries →
      p = c.publication m ∨ p ∈ stream.entries := by
    intro h
    simp only [Stream.publish] at h
    split at h
    · exact .inr h
    · exact (List.mem_append.mp h).symm.imp_left List.mem_singleton.mp
  cases passages with
  | nil => exact hstored h
  | cons passage rest =>
      cases passage with
      | stored => exact hstored h
      | refused reason => exact .inr h
      | unconfirmed reason kept =>
          cases kept with
          | true => exact hstored h
          | false => exact .inr h

theorem mem_entries_run
    (h : p ∈ ((relay b c.lossyOutlet).run (s, passages, stream) op).2.2.2.entries) :
    (∃ m, op = .append m ∧ p = c.publication m) ∨ p ∈ stream.entries := by
  cases op with
  | append m =>
      simp only [Backend.run, relay, Backend.map] at h
      split at h
      · exact .inr h
      · exact (mem_entries_publish h).imp_left fun hp => ⟨m, rfl, hp⟩
  | thread | tenant | find | decide => exact .inr h

theorem mem_entries_runAll
    (h : p ∈ ((relay b c.lossyOutlet).runAll (s, passages, stream) ops).2.2.2.entries) :
    (∃ m, .append m ∈ ops ∧ p = c.publication m) ∨ p ∈ stream.entries := by
  induction ops generalizing s passages stream with
  | nil => exact .inr h
  | cons op ops ih =>
      rcases ih h with ⟨m, hm, hp⟩ | hp
      · exact .inl ⟨m, List.mem_cons_of_mem op hm, hp⟩
      · rcases mem_entries_run hp with ⟨m, hop, hm⟩ | hp
        · exact .inl ⟨m, hop ▸ List.mem_cons_self, hm⟩
        · exact .inr hp

theorem append_mem_of_publish {answers : List (Except Error Answer)}
    (h : .publish m ∈ (ops.zip answers).flatMap callsOf) : .append m ∈ ops := by
  obtain ⟨⟨op, answer⟩, hmem, hcall⟩ := List.mem_flatMap.mp h
  have hop := List.of_mem_zip hmem
  cases op with
  | append n =>
      cases answer with
      | error e => simp [callsOf] at hcall
      | ok answer =>
          obtain rfl : m = n := by simpa [callsOf] using hcall
          exact hop.1
  | thread | tenant | find | decide => simp [callsOf] at hcall

theorem holds_of_append (earlier : List Op) (h : .append m ∈ ops) :
    (MemoryLog.backend.runAll (MemoryLog.backend.runAll .empty earlier).2 ops).2.holds m.id =
      true := by
  have hlists := MemoryLog.lists_runAll (earlier ++ ops)
  rw [Backend.runAll_append] at hlists
  refine (hlists.holds m.id).trans ?_
  rw [List.any_eq_true]
  exact ⟨.append m, List.mem_append_right _ h, by simp [MemoryLog.brings, MemoryLog.appended?]⟩

/-- Whatever the backend and the broker do, a relay answers as the backend alone would and leaves it
in the same state. The broker is called for a message right after the backend has stored it, once
each time, and for nothing else: the noted calls are those of a relay, which is the same with its
parts noted or not. So a log in memory has the id of every message for which the broker was called,
and of every entry that a stream got, whatever was lost on the way. -/
theorem relay_transparent (b : Backend σ) (o : Outlet τ) (s : σ) (t : τ) (ops : List Op) :
    relay b o = relayIn (insideOf b) (besideOf o) ∧
    (∃ answers s' t', b.runAll s ops = (answers, s') ∧
      (relay b o).runAll (s, t) ops = (answers, s', t') ∧
      (notedRelay b o).runAll ((s, t), []) ops =
        (answers, (s', t'), (ops.zip answers).flatMap callsOf)) ∧
    ∀ earlier,
      let log := (MemoryLog.backend.runAll .empty earlier).2
      let log' := (MemoryLog.backend.runAll log ops).2
      (∀ m, .publish m ∈ ((notedRelay MemoryLog.backend o).runAll ((log, t), []) ops).2.2 →
        log'.holds m.id = true) ∧
      ∀ c passages, ∀ p ∈ ((relay MemoryLog.backend (Config.lossyOutlet c)).runAll
          (log, passages, .empty) ops).2.2.2.entries,
        ∃ id, p.messageId = some id ∧ log'.holds id = true := by
  have hcalls {σ : Type} (b : Backend σ) (s : σ) :
      ∃ answers s' t', b.runAll s ops = (answers, s') ∧
        (relay b o).runAll (s, t) ops = (answers, s', t') ∧
        (notedRelay b o).runAll ((s, t), []) ops =
          (answers, (s', t'), (ops.zip answers).flatMap callsOf) := by
    obtain ⟨t', hrelay⟩ := relay_runAll b o s t ops
    refine ⟨_, _, t', rfl, hrelay, ?_⟩
    -- The calls are noted beside a run of the relay itself, so its answers decide them.
    rw [notedRelay, relayIn_runAll_noted, ← relay_eq_relayIn, hrelay, List.nil_append]
  refine ⟨relay_eq_relayIn b o, hcalls b s, ?_⟩
  intro earlier log log'
  constructor
  · intro m hm
    obtain ⟨answers, s', t', -, -, hnoted⟩ := hcalls MemoryLog.backend log
    rw [hnoted] at hm
    exact holds_of_append earlier (append_mem_of_publish hm)
  · intro c passages p hp
    rcases mem_entries_runAll hp with ⟨m, hm, rfl⟩ | hp
    · exact ⟨m.id, rfl, holds_of_append earlier hm⟩
    · cases hp

end Parley.Broker
