import Parley.Proofs.Store.MemoryLog
import Parley.Proofs.StreamStore.Clear

namespace Parley.StreamStore

/-- A tenant that shares its key with no other role. -/
def Plain (tenant : String) : Prop := ¬ Reserved tenant ∧ ∀ id, tenant ≠ "thread:" ++ id

/-- The operations that a client carries out as a log in memory does: their tenants are plain,
their messages are read as they were written, and their decisions were made at some moment. -/
def Regular : Backend.Op → Prop
  | .append m => m.reread = some m ∧ ∀ tenant, m.concerns tenant = true → Plain tenant
  | .tenant id => Plain id
  | .decide _ a => a.approvedAt.Valid
  | .thread _ | .find _ => True

/-- A server holds the messages of a log in memory, and apart from them the decisions that are on
them there. -/
structure Agrees (c : Config) (s : Server) (l : MemoryLog) (sent : List Message)
    (verdict : String → Option Approval) : Prop where
  sound : l.Sound
  log : l.log = sent.map (ruled verdict)
  filled : Filled c sent verdict s
  legible : Legible verdict
  known : ∀ id, verdict id ≠ none → ∃ m ∈ sent, m.id = id
  reread : ∀ m ∈ sent, m.reread = some m
  plain : ∀ m ∈ sent, ∀ tenant, m.concerns tenant = true → Plain tenant

variable {φ : Type} {c : Config} {t : Session φ} {l : MemoryLog} {sent : List Message}
  {verdict : String → Option Approval} {m : Message} {id tenant : String} {a : Approval}

theorem ruled_id (verdict : String → Option Approval) (m : Message) :
    (ruled verdict m).id = m.id := by
  rw [ruled]
  cases verdict m.id <;> rfl

theorem ruled_threadId (verdict : String → Option Approval) (m : Message) :
    (ruled verdict m).threadId = m.threadId := by
  rw [ruled]
  cases verdict m.id <;> rfl

theorem ruled_concerns (verdict : String → Option Approval) (m : Message) (tenant : String) :
    (ruled verdict m).concerns tenant = m.concerns tenant := by
  rw [ruled]
  cases verdict m.id <;> rfl

theorem ruled_of_none (h : verdict m.id = none) : ruled verdict m = m := by
  rw [ruled, h]
  rfl

theorem ruled_update (verdict : String → Option Approval) (id : String) (a : Approval)
    (m : Message) :
    ruled (Function.update verdict id (some a)) m = MemoryLog.marked id a (ruled verdict m) := by
  rw [MemoryLog.marked, ruled_id, ruled, Function.update_apply]
  by_cases hid : m.id = id
  · rw [if_pos hid, if_pos hid, ruled]
    cases verdict m.id <;> rfl
  · rw [if_neg hid, if_neg hid, ruled]

theorem agrees_empty (c : Config) : Agrees c .empty .empty [] fun _ => none where
  sound := MemoryLog.empty_sound
  log := rfl
  filled := filled_empty c
  legible := nofun
  known := fun _ h => absurd rfl h
  reread := List.forall_mem_nil _
  plain := List.forall_mem_nil _

namespace Agrees

theorem nodup (h : Agrees c t.server l sent verdict) : (sent.map Message.id).Nodup := by
  have hn := h.sound.nodup
  rw [h.log, List.map_map] at hn
  have hid : Message.id ∘ ruled verdict = Message.id := funext (ruled_id verdict)
  rwa [hid] at hn

theorem holds (h : Agrees c t.server l sent verdict) (id : String) :
    l.holds id = sent.any fun m => m.id = id := by
  rw [MemoryLog.holds, h.log, List.any_map]
  congr 1
  funext m
  simp only [Function.comp_apply, ruled_id]

theorem filter_ruled (h : Agrees c t.server l sent verdict) {p : Message → Bool}
    (hp : ∀ m, p (ruled verdict m) = p m) :
    l.log.filter p = (sent.filter p).map (ruled verdict) := by
  have hcomp : p ∘ ruled verdict = p := funext hp
  rw [h.log, List.filter_map, hcomp]

theorem stream_eq (h : Agrees c t.server l sent verdict) {p : Message → Bool}
    (hp : ∀ m, p (ruled verdict m) = p m) {key : String}
    (hkey : ∀ m ∈ sent, (key ∈ c.streamKeys m ↔ p m = true)) :
    ((sent.filter fun m => key ∈ c.streamKeys m).filterMap Message.reread).map (ruled verdict) =
      l.log.filter p := by
  have hfilter : (sent.filter fun m => key ∈ c.streamKeys m) = sent.filter p :=
    List.filter_congr fun m hm => by rw [Bool.eq_iff_iff, decide_eq_true_iff, hkey m hm]
  have hread : (sent.filter p).filterMap Message.reread = sent.filter p := by
    rw [List.filterMap_congr fun m hm => h.reread m (List.mem_of_mem_filter hm),
      List.filterMap_some]
  rw [hfilter, hread, h.filter_ruled hp]

theorem reread_id (h : Agrees c t.server l sent verdict) :
    ∀ m ∈ sent, ∀ m' ∈ m.reread, m'.id = m.id := by
  intro m hm m' hm'
  rw [h.reread m hm] at hm'
  exact Option.some.inj hm' ▸ rfl

theorem thread_gives (h : Agrees c t.server l sent verdict) (id : String) :
    Gives Session.server (c.client.thread id t) (l.thread id) t.server := by
  have hgives := StreamStore.thread_gives h.filled h.legible h.nodup h.reread_id id
  rw [h.stream_eq (p := fun m => m.threadId = id)] at hgives
  · rwa [MemoryLog.thread_eq_filter h.sound]
  · intro m
    rw [ruled_threadId]
  · intro m hm
    rw [Config.threadKey_mem_streamKeys, decide_eq_true_iff, or_iff_left]
    exact fun hc => (h.plain m hm _ hc).2 id rfl

theorem ofTenant_gives (h : Agrees c t.server l sent verdict) (ht : Plain tenant) :
    Gives Session.server (c.client.ofTenant tenant t) (l.ofTenant tenant) t.server := by
  have hgives := StreamStore.ofTenant_gives h.filled h.legible h.nodup h.reread_id ht.1
  rwa [h.stream_eq (fun m => ruled_concerns verdict m tenant)] at hgives
  intro m _
  rw [Config.tenantKey_mem_streamKeys, or_iff_left (ht.2 _)]

theorem lookUp_gives (h : Agrees c t.server l sent verdict) (id : String) :
    Gives Session.server (Client.onLine (c.client.lookUp id) t) (l.find? id) t.server := by
  have hgives := onLine_gives (t := t) (StreamStore.lookUp_gives h.filled h.legible h.reread id)
  rwa [MemoryLog.find?_eq_find? h.sound, h.log, List.find?_map,
    show (fun m => decide (m.id = id)) ∘ ruled verdict = fun m => decide (m.id = id) from
      funext fun m => by rw [Function.comp_apply, ruled_id]]

theorem store (h : Agrees c t.server l sent verdict) (hread : m.reread = some m)
    (hm : ∀ tenant, m.concerns tenant = true → Plain tenant) :
    (c.client.store m t).1 = .ok () ∧
      ∃ sent', Agrees c (c.client.store m t).2.server (l.append m) sent' verdict := by
  obtain ⟨hanswer, hleft⟩ := store_gives h.filled.messages m
  refine ⟨hanswer, ?_⟩
  have hlog := MemoryLog.append_log h.sound m
  rw [h.holds] at hlog
  rw [hleft]
  cases hknown : sent.any fun n => n.id = m.id with
  | true =>
      rw [hknown, if_pos rfl] at hlog
      exact ⟨sent, MemoryLog.append_sound h.sound m, hlog.trans h.log, h.filled, h.legible, h.known,
        h.reread, h.plain⟩
  | false =>
      rw [hknown, if_neg Bool.false_ne_true] at hlog
      have hnew : ∀ n ∈ sent, n.id ≠ m.id := by simpa using hknown
      have hundecided : verdict m.id = none := by
        by_contra hv
        obtain ⟨n, hn, hid⟩ := h.known m.id hv
        exact hnew n hn hid
      refine ⟨sent ++ [m], MemoryLog.append_sound h.sound m, ?_, ?_, h.legible, ?_, ?_, ?_⟩
      · rw [hlog, h.log, List.map_append, List.map_singleton, ruled_of_none hundecided]
      · exact h.filled.write (fun tenant ht => (hm tenant ht).1) hnew
      · intro id hv
        obtain ⟨n, hn, hid⟩ := h.known id hv
        exact ⟨n, List.mem_append_left _ hn, hid⟩
      · rw [List.forall_mem_append, List.forall_mem_singleton]
        exact ⟨h.reread, hread⟩
      · rw [List.forall_mem_append, List.forall_mem_singleton]
        exact ⟨h.plain, hm⟩

theorem settle (h : Agrees c t.server l sent verdict) (id : String) (ha : a.approvedAt.Valid) :
    (c.client.settle id a t).1 = .ok (l.decide id a).1 ∧
      ∃ verdict', Agrees c (c.client.settle id a t).2.server (l.decide id a).2 sent verdict' := by
  obtain ⟨hanswer, hleft⟩ := settle_gives h.filled id a
  refine ⟨by rw [hanswer, MemoryLog.decide_fst h.sound, h.holds], ?_⟩
  have hlog := MemoryLog.decide_log h.sound id a
  rw [h.log, List.map_map] at hlog
  rw [hleft]
  cases hknown : sent.any fun m => m.id = id with
  | true =>
      refine ⟨Function.update verdict id (some a), MemoryLog.decide_sound h.sound id a, ?_,
        h.filled.settle id a, ?_, ?_, h.reread, h.plain⟩
      · rw [hlog]
        exact List.map_congr_left fun m _ => (ruled_update verdict id a m).symm
      · intro i b hb
        rw [Function.update_apply] at hb
        by_cases hid : i = id
        · rw [if_pos hid] at hb
          exact Option.some.inj hb ▸ ha
        · rw [if_neg hid] at hb
          exact h.legible i b hb
      · intro i hi
        rw [Function.update_apply] at hi
        by_cases hid : i = id
        · rw [hid]
          simpa using hknown
        · rw [if_neg hid] at hi
          exact h.known i hi
  | false =>
      have hother : ∀ m ∈ sent, m.id ≠ id := by simpa using hknown
      refine ⟨verdict, MemoryLog.decide_sound h.sound id a, ?_, h.filled, h.legible, h.known,
        h.reread, h.plain⟩
      rw [hlog]
      refine List.map_congr_left fun m hm => ?_
      rw [Function.comp_apply, MemoryLog.marked, ruled_id, if_neg (hother m hm)]

theorem run {op : Backend.Op} (h : Agrees c t.server l sent verdict) (hop : Regular op) :
    (c.client.backend.run t op).1 = (MemoryLog.backend.run l op).1 ∧
      ∃ sent' verdict', Agrees c (c.client.backend.run t op).2.server
        (MemoryLog.backend.run l op).2 sent' verdict' := by
  cases op with
  | append m =>
      obtain ⟨hanswer, sent', hagrees⟩ := h.store hop.1 hop.2
      exact ⟨congrArg (Except.map _) hanswer, sent', verdict, hagrees⟩
  | thread id =>
      obtain ⟨hanswer, hleft⟩ := h.thread_gives id
      exact ⟨congrArg (Except.map _) hanswer, sent, verdict, hleft ▸ h⟩
  | tenant id =>
      obtain ⟨hanswer, hleft⟩ := h.ofTenant_gives hop
      exact ⟨congrArg (Except.map _) hanswer, sent, verdict, hleft ▸ h⟩
  | find id =>
      obtain ⟨hanswer, hleft⟩ := h.lookUp_gives id
      exact ⟨congrArg (Except.map _) hanswer, sent, verdict, hleft ▸ h⟩
  | decide id a =>
      obtain ⟨hanswer, verdict', hagrees⟩ := h.settle id hop
      exact ⟨congrArg (Except.map _) hanswer, sent, verdict', hagrees⟩

theorem runAll {ops : List Backend.Op} (h : Agrees c t.server l sent verdict)
    (hops : ∀ op ∈ ops, Regular op) :
    (c.client.backend.runAll t ops).1 = (MemoryLog.backend.runAll l ops).1 := by
  induction ops generalizing t l sent verdict with
  | nil => rfl
  | cons op ops ih =>
      rw [List.forall_mem_cons] at hops
      obtain ⟨hanswer, sent', verdict', hagrees⟩ := h.run hops.1
      have hrest := ih hagrees hops.2
      simp only [Backend.runAll, hanswer, hrest]

end Agrees

/-- A client none of whose commands fails answers every sequence of regular operations as a log
in memory does. -/
theorem runAll_eq_memory (c : Config) (faults : φ) {ops : List Backend.Op}
    (hops : ∀ op ∈ ops, Regular op) :
    (c.client.backend.runAll (Session.new c .empty faults) ops).1 =
      (MemoryLog.backend.runAll .empty ops).1 :=
  (agrees_empty c).runAll hops

theorem plain_of_head {tenant : String} (hr : ¬ Reserved tenant)
    (ht : tenant.toList.head? ≠ some 't') : Plain tenant :=
  ⟨hr, fun id h => Config.thread_name_ne ht id h.symm⟩

def plainQuestion : Message :=
  Message.new "q" ⟨0, 0, 0⟩ "auditor" "auditee" "agent" .question "Why?"

theorem plainQuestion_sound : plainQuestion.Sound :=
  ⟨⟨by decide, by decide, .inl (by decide)⟩, nofun, trivial, trivial, List.forall_mem_nil _, nofun⟩

theorem plainQuestion_reread : plainQuestion.reread = some plainQuestion :=
  (Message.reread_eq_self_iff plainQuestion_sound).mpr ⟨trivial, nofun, nofun, trivial⟩

theorem plainQuestion_plain (tenant : String) (h : plainQuestion.concerns tenant = true) :
    Plain tenant := by
  rcases Config.concerns_iff.mp h with rfl | rfl
  · exact plain_of_head (by rintro (h | h) <;> revert h <;> decide) (by decide)
  · exact plain_of_head (by rintro (h | h) <;> revert h <;> decide) (by decide)

def approvalOfQuestion : Approval := ⟨true, "reviewer", ⟨0, 0, 0⟩⟩

def exchange : List Backend.Op :=
  [.append plainQuestion, .append plainQuestion, .tenant "auditee", .decide "q" approvalOfQuestion,
    .thread "q"]

theorem runAll_eq_memory_exchange : (∀ op ∈ exchange, Regular op) ∧
    (Config.standard.client.backend.runAll (Session.new Config.standard .empty ()) exchange).1 =
      [.ok .done, .ok .done, .ok (.messages [plainQuestion]), .ok (.known true),
        .ok (.messages [approvalOfQuestion.apply plainQuestion])] := by
  have hregular : ∀ op ∈ exchange, Regular op := by
    simp only [exchange, List.forall_mem_cons]
    exact ⟨⟨plainQuestion_reread, plainQuestion_plain⟩, ⟨plainQuestion_reread, plainQuestion_plain⟩,
      plainQuestion_plain "auditee" rfl, ⟨by decide, by decide, .inl (by decide)⟩, trivial,
      List.forall_mem_nil _⟩
  exact ⟨hregular, (runAll_eq_memory Config.standard () hregular).trans rfl⟩

end Parley.StreamStore
