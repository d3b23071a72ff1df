import Parley.Proofs.StreamStore.Filled
import Parley.StreamStore.Session

namespace Parley.StreamStore

variable {φ τ α : Type}

def Config.client (c : Config) : Client φ := ⟨c, clear⟩

theorem client_config (c : Config) : (c.client : Client φ).config = c := rfl

def Session.server (s : Session φ) : Server := s.line.server

/-- A call that gives a value and leaves the server in a state. -/
structure Gives (server : τ → Server) (r : Except Error α × τ) (value : α) (s : Server) : Prop where
  answer : r.1 = .ok value
  left : server r.2 = s

theorem Gives.exists_eq {server : τ → Server} {r : Except Error α × τ} {value : α} {s : Server}
    (h : Gives server r value s) : ∃ t, r = (.ok value, t) ∧ server t = s :=
  ⟨r.2, by rw [← h.answer], h.left⟩

def ruled (verdict : String → Option Approval) (m : Message) : Message :=
  ((verdict m.id).map (·.apply m)).getD m

variable {c : Config} {log entries : List Message} {index : String → Option Message}
  {verdict : String → Option Approval} {l : Line φ} {m : Message}

theorem call_clear (command : Command) (act : Server → Except String α × Server) (l : Line φ) :
    l.call clear command act = ((act l.server).1.mapError .reply,
      ⟨(act l.server).2, l.faults, l.sent ++ [(command, .answered)]⟩) := rfl

theorem ask_clear (command : Command) (read : Server → Except String α) (l : Line φ) :
    l.ask clear command read =
      ((read l.server).mapError .reply,
        ⟨l.server, l.faults, l.sent ++ [(command, .answered)]⟩) := rfl

theorem knows_of_index
    (h : l.server.valuesAt c.messagesKey = .ok fun id => (index id).map encodeText) (id : String) :
    Gives Line.server (c.client.knows id l) (index id).isSome l.server := by
  refine ⟨?_, rfl⟩
  simp only [Client.knows, Client.raise, Config.client, ask_clear, Server.has_eq, h]
  exact congrArg Except.ok Option.isSome_map

theorem knows_gives (h : Indexed c log l.server) (id : String) :
    Gives Line.server (c.client.knows id l) (log.any fun m => m.id = id) l.server := by
  rw [← List.isSome_find?]
  exact knows_of_index h id

theorem append_gives (h : Indexed c log l.server) (m : Message) :
    Gives Line.server (c.client.append m l) (!log.any fun n => n.id = m.id)
      (if log.any fun n => n.id = m.id then l.server
        else (l.server.transaction (c.writes m)).2) := by
  obtain ⟨l', hknows, hl'⟩ := (knows_gives h m.id).exists_eq
  rw [Client.append, hknows, ← hl']
  cases log.any fun n => n.id = m.id with
  | true => exact ⟨rfl, rfl⟩
  | false => exact ⟨rfl, rfl⟩

theorem filterMap_payloads (log : List Message) (count : Message → Nat) :
    (log.flatMap fun m => List.replicate (count m) (payload m)).filterMap
        (fun fields => (fields.lookup payloadField).bind decodeText) =
      log.flatMap fun m => m.reread.elim [] (List.replicate (count m)) := by
  rw [List.filterMap_flatMap]
  refine List.flatMap_congr fun m _ => ?_
  have hread : ((payload m).lookup payloadField).bind decodeText = m.reread := by
    rw [payload, List.lookup_cons_self, Option.bind_some]
    rfl
  rw [List.filterMap_replicate, hread]
  cases m.reread <;> rfl

theorem Holds.range_gives (h : Holds c entries index verdict l.server) {key : String}
    (hkey : c.IsStream key) :
    Gives Line.server (c.client.range key l)
      (firstOfEach ((entries.filter fun m => key ∈ c.streamKeys m).filterMap Message.reread))
      l.server := by
  refine ⟨?_, rfl⟩
  simp only [Client.range, Config.client, ask_clear]
  have hfields := Server.range_eq l.server key
  rw [h.streams key hkey] at hfields
  cases hr : l.server.range key with
  | error e =>
      rw [hr] at hfields
      cases hfields
  | ok read =>
      rw [hr] at hfields
      have hmap : read.map Entry.fields = _ := Except.ok.inj hfields
      have hcount (m : Message) : (c.streamKeys m).count key ≠ 0 ↔ key ∈ c.streamKeys m := by
        rw [← Nat.pos_iff_ne_zero, List.count_pos_iff]
      have hread : read.filterMap Entry.message? = (read.map Entry.fields).filterMap
          (fun fields => (fields.lookup payloadField).bind decodeText) := by
        rw [List.filterMap_map]
        rfl
      change Except.ok (firstOfEach (read.filterMap Entry.message?)) = _
      rw [hread, hmap, filterMap_payloads, firstOfEach, keepNew_copies, firstOfEach]
      simp only [hcount]

theorem firstOfEach_filterMap {p : Message → Bool} (hn : (log.map Message.id).Nodup)
    (hid : ∀ m ∈ log, ∀ m' ∈ m.reread, m'.id = m.id) :
    firstOfEach ((log.filter p).filterMap Message.reread) =
      (log.filter p).filterMap Message.reread := by
  have hsublist : (((log.filter p).filterMap Message.reread).map Message.id).Sublist
      ((log.filter p).map Message.id) :=
    map_id_filterMap_sublist fun m hm => hid m (List.mem_of_mem_filter hm)
  exact keepNew_eq_self (hn.sublist (hsublist.trans (List.filter_sublist.map Message.id)))
    fun _ _ => List.not_mem_nil

theorem approvals_gives (h : Holds c entries index verdict l.server) (ids : List String) :
    Gives Line.server (c.client.approvals ids l)
      (Client.decisions ids (ids.map fun id => (verdict id).map encodeText)) l.server := by
  rw [Client.approvals]
  split
  · rename_i hids
    subst hids
    exact ⟨rfl, rfl⟩
  · refine ⟨?_, rfl⟩
    simp only [Config.client, ask_clear, Server.getAll_eq, h.approvals]
    rfl

def Legible (verdict : String → Option Approval) : Prop :=
  ∀ id a, verdict id = some a → a.approvedAt.Valid

theorem decisions_cons (hv : Legible verdict) (id : String) (ids : List String) :
    Client.decisions (id :: ids) ((id :: ids).map fun id => (verdict id).map encodeText) =
      ((verdict id).map (id, ·)).toList ++
        Client.decisions ids (ids.map fun id => (verdict id).map encodeText) := by
  rw [Client.decisions, List.map_cons, List.zip_cons_cons, List.filterMap_cons]
  cases hi : verdict id with
  | none => rfl
  | some a =>
      simp only [Option.map_some, Option.bind_some, Approval.decodeText_encodeText (hv id a hi)]
      rfl

theorem lookup_decisions (hv : Legible verdict) (ids : List String) (id : String) :
    (Client.decisions ids (ids.map fun id => (verdict id).map encodeText)).lookup id =
      if id ∈ ids then verdict id else none := by
  induction ids with
  | nil => rfl
  | cons i ids ih =>
      rw [decisions_cons hv]
      cases hi : verdict i with
      | none =>
          rw [Option.map_none, Option.toList_none, List.nil_append, ih]
          by_cases hid : id = i
          · rw [hid, hi, if_pos List.mem_cons_self, ite_self]
          · simp only [List.mem_cons, hid, false_or]
      | some a =>
          rw [Option.map_some, Option.toList_some, List.singleton_append, Fields.lookup_cons, ih]
          by_cases hid : id = i
          · rw [if_pos hid, hid, if_pos List.mem_cons_self, hi]
          · simp only [List.mem_cons, hid, false_or, if_false]

theorem overlay_gives (h : Holds c entries index verdict l.server) (hv : Legible verdict)
    (ms : List Message) :
    Gives Line.server (c.client.overlay ms l) (ms.map (ruled verdict)) l.server := by
  obtain ⟨l', happrovals, hl'⟩ := (approvals_gives h (ms.map Message.id)).exists_eq
  rw [Client.overlay, happrovals]
  refine ⟨congrArg Except.ok ?_, hl'⟩
  refine List.map_congr_left fun m hm => ?_
  rw [Client.decided, lookup_decisions hv, if_pos (List.mem_map_of_mem hm)]
  rfl

theorem Holds.stream_gives (h : Holds c entries index verdict l.server) (hv : Legible verdict)
    {key : String} (hkey : c.IsStream key) :
    Gives Line.server (c.client.stream key l)
      ((firstOfEach ((entries.filter fun m => key ∈ c.streamKeys m).filterMap
        Message.reread)).map (ruled verdict)) l.server := by
  obtain ⟨l', hrange, hl'⟩ := (h.range_gives hkey).exists_eq
  rw [Client.stream, hrange, ← hl']
  exact overlay_gives (hl' ▸ h) hv _

theorem Holds.find_eq (h : Holds c entries index verdict l.server) (id : String) :
    (c.client.find id l).1 = Client.readPayload ((index id).map encodeText) ∧
      (c.client.find id l).2.server = l.server := by
  refine ⟨?_, rfl⟩
  simp only [Client.find, Config.client, ask_clear, Server.get_eq, h.messages]
  rfl

theorem Holds.lookUp_eq (h : Holds c entries index verdict l.server) (hv : Legible verdict)
    (id : String) (hid : ∀ m ∈ index id, ∀ m' ∈ m.reread, m'.id = id) :
    (c.client.lookUp id l).1 =
        (Client.readPayload ((index id).map encodeText)).map (Option.map (ruled verdict)) ∧
      (c.client.lookUp id l).2.server = l.server := by
  obtain ⟨hfound, hl'⟩ := h.find_eq id
  rw [Client.lookUp]
  generalize c.client.find id l = read at hfound hl' ⊢
  obtain ⟨result, l'⟩ := read
  obtain rfl : result = _ := hfound
  cases hm : index id with
  | none => exact ⟨rfl, hl'⟩
  | some m =>
      rw [Option.map_some, Client.readPayload]
      cases hr : m.reread with
      | none =>
          have hdecode : (decodeText (encodeText m) : Option Message) = none := hr
          rw [hdecode]
          exact ⟨rfl, hl'⟩
      | some m' =>
          have hdecode : decodeText (encodeText m) = some m' := hr
          obtain ⟨l'', happrovals, hl''⟩ :=
            (approvals_gives (l := l') (hl' ▸ h) [id]).exists_eq
          rw [hdecode]
          simp only [happrovals]
          refine ⟨congrArg Except.ok ?_, hl''.trans hl'⟩
          simp only [lookup_decisions hv, if_pos List.mem_cons_self, Option.map_some, ruled,
            hid m hm m' hr]

theorem lookUp_gives (h : Filled c log verdict l.server) (hv : Legible verdict)
    (hread : ∀ m ∈ log, m.reread = some m) (id : String) :
    Gives Line.server (c.client.lookUp id l)
      ((log.find? fun m => m.id = id).map (ruled verdict)) l.server := by
  have hsame (m : Message) (hm : m ∈ log.find? fun m => m.id = id) : m.reread = some m :=
    hread m (List.mem_of_find?_eq_some hm)
  obtain ⟨hanswer, hleft⟩ := h.holds.lookUp_eq hv id fun m hm m' hm' => by
    rw [hsame m hm] at hm'
    simpa [Option.some.inj hm'] using List.find?_some hm
  refine ⟨hanswer.trans ?_, hleft⟩
  cases hm : log.find? fun m => m.id = id with
  | none => rfl
  | some m =>
      have hdecode : decodeText (encodeText m) = some m := hsame m hm
      rw [Option.map_some, Client.readPayload, hdecode]
      rfl

theorem decide_gives (h : Filled c log verdict l.server) (id : String) (a : Approval) :
    Gives Line.server (c.client.decide id a l) (log.any fun m => m.id = id)
      (if log.any fun m => m.id = id then (l.server.set c.approvalsKey id (encodeText a)).2
        else l.server) := by
  obtain ⟨l', hknows, hl'⟩ := (knows_gives h.messages id).exists_eq
  rw [Client.decide, hknows, ← hl']
  cases log.any fun m => m.id = id with
  | false => exact ⟨rfl, rfl⟩
  | true =>
      refine ⟨?_, rfl⟩
      have hvalues : l'.server.valuesAt c.approvalsKey = _ := (hl' ▸ h).approvals
      simp only [Config.client, call_clear, Server.set_fst hvalues]
      rfl

variable {t : Session φ}

theorem onLine_gives {f : Line φ → Except Error α × Line φ} {value : α} {s : Server}
    (h : Gives Line.server (f t.line) value s) :
    Gives Session.server (Client.onLine f t) value s :=
  ⟨h.answer, h.left⟩

theorem persist_gives {f : Line φ → Except Error α × Line φ} {value : α} {s : Server}
    (h : Gives Line.server (f t.line) value s) (cl : Client φ) (target : String) :
    Gives Session.server (cl.persist target f t) value s := by
  obtain ⟨l', hf, hl'⟩ := h.exists_eq
  have hcall : Client.persist cl target f t = (.ok value, { t with line := l' }) := by
    rw [Client.persist, Retry.run]
    cases cl.config.retry.maxRetries.toNat <;>
      simp only [Retry.attemptFrom, Client.onLine, hf, Retry.Outcome.ofExcept]
  rw [hcall]
  exact ⟨rfl, hl'⟩

theorem store_gives (h : Indexed c log t.server) (m : Message) :
    Gives Session.server (c.client.store m t) ()
      (if log.any fun n => n.id = m.id then t.server
        else (t.server.transaction (c.writes m)).2) := by
  obtain ⟨t', happend, ht'⟩ := (persist_gives (t := t) (append_gives h m) c.client
    (c.tenantKey m.toTenant)).exists_eq
  rw [Client.store, client_config, happend]
  cases hknown : log.any fun n => n.id = m.id with
  | true =>
      rw [hknown] at ht'
      exact ⟨rfl, ht'⟩
  | false =>
      rw [hknown] at ht'
      exact ⟨rfl, ht'⟩

theorem Holds.thread_gives (h : Holds c entries index verdict t.server) (hv : Legible verdict)
    (id : String) :
    Gives Session.server (c.client.thread id t)
      ((firstOfEach ((entries.filter fun m => c.threadKey id ∈ c.streamKeys m).filterMap
        Message.reread)).map (ruled verdict)) t.server := by
  obtain ⟨t', hstream, ht'⟩ := (onLine_gives (t := t)
    (h.stream_gives hv (Config.isStream_threadKey c id))).exists_eq
  rw [Client.thread, client_config, hstream]
  exact ⟨rfl, ht'⟩

theorem Holds.ofTenant_gives (h : Holds c entries index verdict t.server) (hv : Legible verdict)
    {tenant : String} (ht : ¬ Reserved tenant) :
    Gives Session.server (c.client.ofTenant tenant t)
      ((firstOfEach ((entries.filter fun m => c.tenantKey tenant ∈ c.streamKeys m).filterMap
        Message.reread)).map (ruled verdict)) t.server :=
  onLine_gives (h.stream_gives hv (Config.isStream_tenantKey_iff.mpr ht))

theorem thread_gives (h : Filled c log verdict t.server) (hv : Legible verdict)
    (hn : (log.map Message.id).Nodup) (hid : ∀ m ∈ log, ∀ m' ∈ m.reread, m'.id = m.id)
    (id : String) :
    Gives Session.server (c.client.thread id t)
      (((log.filter fun m => c.threadKey id ∈ c.streamKeys m).filterMap Message.reread).map
        (ruled verdict)) t.server := by
  rw [← firstOfEach_filterMap hn hid]
  exact h.holds.thread_gives hv id

theorem ofTenant_gives (h : Filled c log verdict t.server) (hv : Legible verdict)
    (hn : (log.map Message.id).Nodup) (hid : ∀ m ∈ log, ∀ m' ∈ m.reread, m'.id = m.id)
    {tenant : String} (ht : ¬ Reserved tenant) :
    Gives Session.server (c.client.ofTenant tenant t)
      (((log.filter fun m => c.tenantKey tenant ∈ c.streamKeys m).filterMap Message.reread).map
        (ruled verdict)) t.server := by
  rw [← firstOfEach_filterMap hn hid]
  exact h.holds.ofTenant_gives hv ht

theorem settle_gives (h : Filled c log verdict t.server) (id : String) (a : Approval) :
    Gives Session.server (c.client.settle id a t) (log.any fun m => m.id = id)
      (if log.any fun m => m.id = id then (t.server.set c.approvalsKey id (encodeText a)).2
        else t.server) := by
  obtain ⟨t', hdecide, ht'⟩ := (persist_gives (t := t) (decide_gives h id a) c.client
    c.approvalsKey).exists_eq
  rw [Client.settle, client_config, hdecide]
  cases hknown : log.any fun m => m.id = id with
  | true =>
      rw [hknown] at ht'
      exact ⟨rfl, ht'⟩
  | false =>
      rw [hknown] at ht'
      exact ⟨rfl, ht'⟩

end Parley.StreamStore
