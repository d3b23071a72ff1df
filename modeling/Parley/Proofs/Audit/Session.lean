import Parley.Governance.Ledger
import Parley.Proofs.Audit.Tamper

namespace Parley.Audit

open Governance (Ledger)
open Time (Instant)

/-- What a trail is asked for, directly or by a ledger that keeps its decisions there. -/
inductive Call
  | record (id : String) (time : Instant) (deed : Deed)
  | decide (id : String) (time : Instant) (decision : AgentDecision)
  | log (id : String) (time : Instant) (case : Ledger.Case)
  | flush

namespace Call

def draft? : Call → Option Entry
  | record id time deed => some ⟨id, time, deed, "", ""⟩
  | decide id time d => some ⟨id, time, d.deed, "", ""⟩
  | log id time c => some ⟨id, time, (c.entry time).toAudit.deed, "", ""⟩
  | flush => none

def Sound : Call → Prop
  | record _ time deed => time.Valid ∧ Json.ProperMembers deed.details
  | decide _ time d => time.Valid ∧ Json.ProperMembers d.input
  | log _ time c => time.Valid ∧ Json.ProperMembers c.input
  | flush => True

end Call

/-- A ledger with its trail, and what the trail has handed over so far. -/
structure Session where
  ledger : Ledger
  flushed : List Entry

namespace Session

def start (config : Governance.Config) (hash : String) : Session :=
  ⟨Ledger.new config (some (Trail.resume hash)), []⟩

def write (s : Session) (id : String) (time : Instant) (deed : Deed) : Session :=
  { s with ledger := { s.ledger with trail := s.ledger.trail.map fun t =>
      (t.record id time deed).2 } }

def step (s : Session) : Call → Session
  | .record id time deed => s.write id time deed
  | .decide id time d => s.write id time d.deed
  | .log id time c => { s with ledger := (s.ledger.record none id time c).2 }
  | .flush => ⟨s.ledger.flushTrail.2, s.flushed ++ s.ledger.flushTrail.1.getD []⟩

def run (s : Session) (calls : List Call) : Session := calls.foldl step s

end Session

namespace Entry

theorem verify_snoc (start : String) (es : List Entry) (e : Entry) :
    verify start (es ++ [e.after (lastHash start es)]) = verify start es := by
  rw [Bool.eq_iff_iff, verify_append]
  exact and_iff_left (verify_chain _ [e])

theorem verify_append_left {start : String} {es fs : List Entry}
    (h : verify start (es ++ fs) = true) : verify start es = true :=
  (verify_append.mp h).1

theorem lastHash_snoc (start : String) (es : List Entry) (e : Entry) :
    lastHash start (es ++ [e]) = e.hash :=
  lastHash_append start es [e]

theorem mapM_eq_some_iff {f : Entry → Option Entry} {es es' : List Entry} :
    es.mapM f = some es' ↔ List.Forall₂ (fun e e' => f e = some e') es es' :=
  Parley.mapM_eq_some_iff

theorem hash_of_reread {e e' : Entry} (h : e.Sound) (hr : e.reread = some e') :
    e'.hash = e.hash := by
  rw [reread_eq h, Option.bind_eq_some_iff] at hr
  obtain ⟨details, -, hr⟩ := hr
  obtain ⟨confidence, -, rfl⟩ := Option.map_eq_some_iff.mp hr
  rfl

theorem lastHash_of_forall₂ {start : String} {es es' : List Entry}
    (h : List.Forall₂ (fun e e' => e'.hash = e.hash) es es') :
    lastHash start es' = lastHash start es := by
  induction h generalizing start with
  | nil => rfl
  | cons he _ ih => rw [lastHash_cons, lastHash_cons, he, ih]

theorem lasting_of_alike {es es' : List Entry} (hsound : ∀ e ∈ es, e.Sound)
    (hread : List.Forall₂ (fun e e' => e.reread = some e') es es')
    (hall : List.Forall₂ Alike es es') : ∀ e ∈ es, e.Lasting := by
  induction hread with
  | nil => exact List.forall_mem_nil _
  | cons he _ ih =>
      obtain ⟨halike, hall⟩ := List.forall₂_cons.mp hall
      rw [List.forall_mem_cons] at hsound ⊢
      refine ⟨?_, ih hsound.2 hall⟩
      have heq := eq_of_reread hsound.1 he halike.canonical
      exact (reread_eq_self_iff hsound.1).mp (he.trans (congrArg some heq))

/-- If what was written is read as a chain again, every entry was read as itself, unless two of
the texts that were hashed collide. -/
theorem lasting_or_collision {start : String} {es es' : List Entry} (hsound : ∀ e ∈ es, e.Sound)
    (hread : List.Forall₂ (fun e e' => e.reread = some e') es es')
    (h : verify start es = true) (h' : verify start es' = true) :
    (∀ e ∈ es, e.Lasting) ∨ Collision es es' := by
  have hhash : List.Forall₂ (fun e e' => e'.hash = e.hash) es es' :=
    ((List.forall₂_and_left ..).mpr ⟨hsound, hread⟩).imp fun _ _ hr => hash_of_reread hr.1 hr.2
  rcases alike_or_collision rfl hread.length_eq h h' (lastHash_of_forall₂ hhash).symm with
    ⟨-, hall⟩ | hcollision
  · exact .inl (lasting_of_alike hsound hread hall)
  · exact .inr hcollision

end Entry

theorem AgentDecision.proper_details {d : AgentDecision} (h : Json.ProperMembers d.input) :
    Json.ProperMembers d.deed.details := by
  have hdetails : d.deed.details = [("decision", .str d.decision), ("input_summary", .obj d.input),
      ("reasoning", .str d.reasoning)] := rfl
  have hlt : "decision" < "input_summary" ∧ "decision" < "reasoning" ∧
      "input_summary" < "reasoning" := by decide
  rw [hdetails]
  refine ⟨?_, trivial, ?_, h, List.forall_mem_nil _, trivial, trivial⟩
  · simp only [List.forall_mem_cons]
    exact ⟨hlt.1, hlt.2.1, List.forall_mem_nil _⟩
  · simp only [List.forall_mem_cons]
    exact ⟨hlt.2.2, List.forall_mem_nil _⟩

theorem Call.Sound.draft {c : Call} (h : c.Sound) {e : Entry} (he : c.draft? = some e) :
    e.Sound := by
  cases c with
  | record id time deed =>
      obtain rfl := Option.some.inj he
      exact ⟨h.1, h.2⟩
  | decide id time d =>
      obtain rfl := Option.some.inj he
      exact ⟨h.1, AgentDecision.proper_details h.2⟩
  | log id time c =>
      obtain rfl := Option.some.inj he
      exact ⟨h.1, AgentDecision.proper_details (d := (c.entry time).toAudit) h.2⟩
  | flush => cases he

namespace Session

variable {start : String} {s : Session} {c : Call} {calls : List Call}

/-- All that was written since a hash, handed over or not, is one chain, and the trail goes on
after it. -/
structure Chained (start : String) (s : Session) (t : Trail) : Prop where
  trail : s.ledger.trail = some t
  verified : Entry.verify start (s.flushed ++ t.buffer) = true
  last : t.lastHash = Entry.lastHash start (s.flushed ++ t.buffer)
  sound : ∀ e ∈ s.flushed ++ t.buffer, e.Sound

theorem chained_start (config : Governance.Config) (hash : String) :
    Chained hash (Session.start config hash) (Trail.resume hash) :=
  ⟨rfl, rfl, rfl, List.forall_mem_nil _⟩

theorem step_trail {t : Trail} (h : s.ledger.trail = some t) (c : Call) :
    (∃ e, c.draft? = some e ∧ (s.step c).flushed = s.flushed ∧
      (s.step c).ledger.trail = some (t.push (e.after t.lastHash))) ∨
    ((s.step c).flushed = s.flushed ++ t.buffer ∧
      (s.step c).ledger.trail = some { t with buffer := [] }) := by
  cases c with
  | record id time deed =>
      refine .inl ⟨_, rfl, rfl, ?_⟩
      simp only [step, write, h]
      rfl
  | decide id time d =>
      refine .inl ⟨_, rfl, rfl, ?_⟩
      simp only [step, write, h]
      rfl
  | log id time c =>
      refine .inl ⟨_, rfl, rfl, ?_⟩
      simp only [step, Ledger.record, h]
      rfl
  | flush =>
      right
      simp only [step, Ledger.flushTrail, h]
      exact ⟨rfl, rfl⟩

theorem Chained.step {t : Trail} (h : Chained start s t) (hc : c.Sound) :
    ∃ t', Chained start (s.step c) t' := by
  obtain ⟨htrail, hverified, hlast, hsound⟩ := h
  rcases step_trail htrail c with ⟨e, he, hflushed, htrail'⟩ | ⟨hflushed, htrail'⟩
  · refine ⟨_, htrail', ?_, ?_, ?_⟩
    · rw [hflushed, Trail.push, ← List.append_assoc, hlast, Entry.verify_snoc]
      exact hverified
    · rw [hflushed, Trail.push, ← List.append_assoc, Entry.lastHash_snoc]
      rfl
    · rw [hflushed, Trail.push, ← List.append_assoc, List.forall_mem_append,
        List.forall_mem_singleton]
      exact ⟨hsound, (hc.draft he).after _⟩
  · refine ⟨_, htrail', ?_, ?_, ?_⟩
    · rw [hflushed, List.append_nil]
      exact hverified
    · rw [hflushed, List.append_nil]
      exact hlast
    · rw [hflushed, List.append_nil]
      exact hsound

theorem Chained.run {t : Trail} (h : Chained start s t) (hcalls : ∀ c ∈ calls, c.Sound) :
    ∃ t', Chained start (s.run calls) t' := by
  induction calls generalizing s t with
  | nil => exact ⟨t, h⟩
  | cons c calls ih =>
      rw [List.forall_mem_cons] at hcalls
      obtain ⟨t', h'⟩ := h.step hcalls.1
      exact ih h' hcalls.2

/-- What a trail hands over in any run is verified, and is read as itself just if every entry of it
lasts. If it is read as anything that is verified, it is read as itself, or two of the texts that
were hashed collide. -/
theorem flushed_reread_iff_lasting (config : Governance.Config) (start : String)
    {calls : List Call} (hcalls : ∀ c ∈ calls, c.Sound) :
    Entry.verify start ((Session.start config start).run calls).flushed = true ∧
      (((Session.start config start).run calls).flushed.mapM Entry.reread =
          some ((Session.start config start).run calls).flushed ↔
        ∀ e ∈ ((Session.start config start).run calls).flushed, e.Lasting) ∧
      ∀ es, ((Session.start config start).run calls).flushed.mapM Entry.reread = some es →
        Entry.verify start es = true →
        (∀ e ∈ ((Session.start config start).run calls).flushed, e.Lasting) ∨
          Entry.Collision ((Session.start config start).run calls).flushed es := by
  obtain ⟨t, hchained⟩ := (chained_start config start).run hcalls
  generalize (Session.start config start).run calls = s at hchained
  have hsound : ∀ e ∈ s.flushed, e.Sound :=
    fun e he => hchained.sound e (List.mem_append_left _ he)
  have hverified := Entry.verify_append_left hchained.verified
  refine ⟨hverified, ?_, ?_⟩
  · rw [Entry.mapM_eq_some_iff, List.forall₂_same]
    exact forall₂_congr fun e he => Entry.reread_eq_self_iff (hsound e he)
  · intro es hes h
    exact Entry.lasting_or_collision hsound (Entry.mapM_eq_some_iff.mp hes) hverified h

def draftCalls : List Call :=
  [.record Entry.draft.id Entry.draft.recordedAt Entry.draft.deed, .flush]

theorem flushed_reread_of_draft : (∀ c ∈ draftCalls, c.Sound) ∧
    ((Session.start .standard Chain.genesis).run draftCalls).flushed.mapM Entry.reread =
      some ((Session.start .standard Chain.genesis).run draftCalls).flushed := by
  have hsound : ∀ c ∈ draftCalls, c.Sound := by
    rw [draftCalls, List.forall_mem_cons, List.forall_mem_singleton]
    exact ⟨⟨Entry.sound_draft.recordedAt, Entry.sound_draft.details⟩, trivial⟩
  have hflushed : ((Session.start .standard Chain.genesis).run draftCalls).flushed =
      [Entry.draft.after Chain.genesis] := rfl
  refine ⟨hsound, (flushed_reread_iff_lasting .standard Chain.genesis hsound).2.1.mpr ?_⟩
  rw [hflushed, List.forall_mem_singleton]
  exact Entry.lasting_draft.after Chain.genesis

end Session

end Parley.Audit
