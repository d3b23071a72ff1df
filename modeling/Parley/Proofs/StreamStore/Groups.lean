import Mathlib.Data.List.Dedup
import Parley.Proofs.StreamStore.Isolation
import Parley.Proofs.StreamStore.Numbered
import Parley.Proofs.StreamStore.Retried

namespace Parley.StreamStore

variable {φ α : Type} {c : Config} {tenant : String} {s : Session φ} {t : Stream} {m : Message}
  {es : List Entry}

theorem count_tenantKey (ht : Plain tenant) (m : Message) :
    (c.streamKeys m).count (c.tenantKey tenant) = if m.concerns tenant then 1 else 0 := by
  have hthread : c.threadKey m.threadId ≠ c.tenantKey tenant :=
    fun h => ht.2 _ (Config.tenantKey_eq_threadKey_iff.mp h.symm)
  have hkey (id : String) : (c.tenantKey id == c.tenantKey tenant) = (id == tenant) := by
    rw [Bool.eq_iff_iff, beq_iff_eq, beq_iff_eq, Config.tenantKey_inj]
  rw [Config.streamKeys, List.count_cons, List.count_append, hkey]
  by_cases hsame : m.fromTenant = m.toTenant
  · simp [Message.concerns, hsame, hthread]
  · by_cases hto : m.toTenant = tenant
    · have hfrom : m.fromTenant ≠ tenant := fun h => hsame (h.trans hto.symm)
      simp [Message.concerns, hthread, hkey, List.count_singleton, hto, hfrom]
    · simp [Message.concerns, hsame, hthread, hkey, List.count_singleton, hto]

theorem messagesKey_mem_streamKeys : c.messagesKey ∈ c.streamKeys m ↔
    m.concerns "messages" = true := by
  rw [← Config.tenantKey_messages, Config.tenantKey_mem_streamKeys, or_iff_left]
  exact (Config.thread_name_ne (by decide) m.threadId).symm

/-- The writes of a new message put it under its id, unless it is a message of a tenant that is
named as the hash of the messages is, and there was no hash. -/
theorem indexed_writes {log : List Message} {server : Server} (h : Indexed c log server)
    (hnew : ∀ n ∈ log, n.id ≠ m.id) :
    Indexed c (log ++ [m]) (server.transaction (c.writes m)).2 ∨
      m.concerns "messages" = true ∧
        (server.transaction (c.writes m)).2.valuesAt c.messagesKey = .error Server.wrongType := by
  rw [transaction_writes]
  by_cases hm : m.concerns "messages" = true
  · rcases Server.additions_valuesAt_or server (c.streamKeys m) c.messagesKey (payload m) with
      hsame | hlost
    · exact .inl (Indexed.set (hsame.trans h) hnew)
    · exact .inr ⟨hm, by rw [Server.set_snd_of_error hlost, hlost]⟩
  · have hkey : c.messagesKey ∉ c.streamKeys m := mt messagesKey_mem_streamKeys.mp hm
    have hsame := Server.additions_valuesAt hkey server (payload m)
    exact .inl (Indexed.set (hsame.trans h) hnew)

theorem ensureGroup_server (c : Config) (tenant : String) (l : Line φ) :
    (c.client.ensureGroup tenant l).2.server =
      (Server.makeGroup (c.tenantKey tenant) (c.group tenant) l.server).2 := by
  simp only [Client.ensureGroup, Config.client, call_clear]
  cases (Server.makeGroup (c.tenantKey tenant) (c.group tenant) l.server).1 <;> rfl

theorem ensureGroup_ok {l : Line φ}
    (h : (Server.makeGroup (c.tenantKey tenant) (c.group tenant) l.server).1 = .ok () ∨
      (Server.makeGroup (c.tenantKey tenant) (c.group tenant) l.server).1 =
        .error Server.groupExists) :
    (c.client.ensureGroup tenant l).1 = .ok () := by
  simp only [Client.ensureGroup, Config.client, call_clear]
  rcases h with h | h
  · rw [h]
    rfl
  · rw [h]
    rfl

theorem joinGroup_regrouped (c : Config) (tenant : String) (s : Session φ) :
    Server.Regrouped (c.tenantKey tenant) s.server (c.client.joinGroup tenant s).2.server ∧
      ∀ u ∈ (c.client.joinGroup tenant s).2.groups, u = tenant ∨ u ∈ s.groups := by
  have hserver := ensureGroup_server c tenant s.line
  have hgroup := Server.makeGroup_regrouped (c.tenantKey tenant) (c.group tenant) s.server
  rw [Client.joinGroup]
  split
  · exact ⟨.refl _ _, fun u hu => .inr hu⟩
  · rw [Client.onLine]
    cases hr : c.client.ensureGroup tenant s.line with
    | mk r l =>
        rw [hr] at hserver
        have hleft : Server.Regrouped (c.tenantKey tenant) s.server l.server :=
          (hserver : l.server = _) ▸ hgroup
        cases r with
        | error e => exact ⟨hleft, fun u hu => .inr hu⟩
        | ok => exact ⟨hleft, fun u hu => List.mem_cons.mp hu⟩

theorem inGroup_regrouped {f : Line φ → Except Error α × Line φ}
    (hf : ∀ l, Server.Regrouped (c.tenantKey tenant) l.server (f l).2.server) (s : Session φ) :
    Server.Regrouped (c.tenantKey tenant) s.server (c.client.inGroup tenant f s).2.server ∧
      ∀ u ∈ (c.client.inGroup tenant f s).2.groups, u = tenant ∨ u ∈ s.groups := by
  obtain ⟨hjoin, hgroups⟩ := joinGroup_regrouped c tenant s
  rw [Client.inGroup]
  cases hr : c.client.joinGroup tenant s with
  | mk r s' =>
      rw [hr] at hjoin hgroups
      cases r with
      | error e => exact ⟨hjoin, hgroups⟩
      | ok => exact ⟨hjoin.trans (hf s'.line), hgroups⟩

theorem ack_regrouped (c : Config) (tenant : String) (ids : List String) (l : Line φ) :
    Server.Regrouped (c.tenantKey tenant) l.server (c.client.ack tenant ids l).2.server := by
  rw [Client.ack]
  split
  · exact .refl _ _
  · exact Server.ack_regrouped (c.tenantKey tenant) (c.group tenant) ids l.server

theorem consume_regrouped (c : Config) (tenant consumer : String) (s : Session φ) :
    Server.Regrouped (c.tenantKey tenant) s.server (c.client.consume tenant consumer s).2.server ∧
      ∀ u ∈ (c.client.consume tenant consumer s).2.groups, u = tenant ∨ u ∈ s.groups :=
  inGroup_regrouped (fun l => Server.readGroup_regrouped (c.tenantKey tenant) (c.group tenant)
    consumer c.readCount l.server) s

theorem unacknowledged_regrouped (c : Config) (tenant : String) (count : Nat) (s : Session φ) :
    Server.Regrouped (c.tenantKey tenant) s.server
        (c.client.unacknowledged tenant count s).2.server ∧
      ∀ u ∈ (c.client.unacknowledged tenant count s).2.groups, u = tenant ∨ u ∈ s.groups :=
  inGroup_regrouped (fun _ => .refl _ _) s

theorem joinGroup_numbered (h : s.server.Numbered (c.tenantKey tenant) t)
    (hknown : tenant ∈ s.groups → (t.groups.find? (c.group tenant)).isSome) :
    ∃ s' t', c.client.joinGroup tenant s = (.ok (), s') ∧
      s'.server.Numbered (c.tenantKey tenant) t' ∧ t'.entries = t.entries ∧
      t'.groups.find? (c.group tenant) = some (t.group (c.group tenant)) := by
  rw [Client.joinGroup]
  split
  · rename_i hmem
    obtain ⟨g, hg⟩ := Option.isSome_iff_exists.mp (hknown hmem)
    refine ⟨s, t, rfl, h, rfl, ?_⟩
    rw [Stream.group, hg, Option.getD_some]
  · obtain ⟨t', hmade, hentries, hgroup, hanswer⟩ := h.makeGroup (c.group tenant)
    have hserver := ensureGroup_server c tenant s.line
    have hok := ensureGroup_ok (l := s.line) hanswer
    rw [Client.onLine]
    cases hr : c.client.ensureGroup tenant s.line with
    | mk r l =>
        rw [hr] at hserver hok
        obtain rfl : r = .ok () := hok
        have hleft : l.server.Numbered (c.tenantKey tenant) t' := (hserver : l.server = _) ▸ hmade
        exact ⟨_, t', rfl, hleft, hentries, hgroup⟩

theorem store_groups (cl : Client φ) (m : Message) (s : Session φ) :
    (cl.store m s).2.groups = s.groups := by
  have hpersist := (persist_frame cl (cl.config.tenantKey m.toTenant) (cl.append m) s).2
  rw [Client.store]
  cases hp : cl.persist (cl.config.tenantKey m.toTenant) (cl.append m) s with
  | mk r s' =>
      rw [hp] at hpersist
      cases r with
      | error e => exact hpersist
      | ok b => cases b <;> exact hpersist

theorem store_numbered (cl : Client φ) (m : Message) (s : Session φ) :
    s.server.numbered ≤ (cl.store m s).2.server.numbered := by
  refine store_invariant cl m (I := fun server => s.server.numbered ≤ server.numbered)
    (fun server _ _ server' hattempt hle => hle.trans ?_) le_rfl
  cases hattempt with
  | unasked | known | refused => exact le_rfl
  | untold | written => exact Server.numbered_transaction server (cl.config.writes m)

theorem store_fails (h : s.server.valuesAt c.messagesKey = .error Server.wrongType) (m : Message) :
    (∃ e, (c.client.store m s).1 = .error e) ∧ (c.client.store m s).2.server = s.server := by
  have hpersist := persist_keeps (t := s) c.client (I := fun l => l.server = s.server)
    (Q := fun _ _ => False) (f := c.client.append m) (fun l hl => by
      obtain ⟨e, l', hfails, hl'⟩ := append_fails (l := l) (hl ▸ h) m
      rw [hfails]
      exact ⟨hl'.trans hl, nofun⟩) (c.tenantKey m.toTenant) rfl
  rw [Client.store, client_config]
  cases hp : c.client.persist (c.tenantKey m.toTenant) (c.client.append m) s with
  | mk r s' =>
      rw [hp] at hpersist
      cases r with
      | error e => exact ⟨⟨e, rfl⟩, hpersist.1⟩
      | ok b => exact (hpersist.2 b rfl).elim

section Group

variable {l : Line φ} (h : l.server.Numbered (c.tenantKey tenant) t)
include h

theorem read_gives (hg : t.groups.find? (c.group tenant) = some (t.group (c.group tenant)))
    (consumer : String) :
    Gives Line.server (c.client.read tenant consumer l)
      (Client.readings (Server.Group.unread (t.group (c.group tenant)) t c.readCount))
      (l.server.putGroup (c.tenantKey tenant) (c.group tenant) t
        (Server.Group.handOut (t.group (c.group tenant)) consumer
          (Server.Group.unread (t.group (c.group tenant)) t c.readCount))) := by
  have hread := h.readGroup hg consumer c.readCount
  refine ⟨?_, ?_⟩
  · simp only [Client.read, Config.client, call_clear, hread]
    rfl
  · simp only [Client.read, Config.client, call_clear, hread]

theorem pending_gives (hg : t.groups.find? (c.group tenant) = some (t.group (c.group tenant)))
    (count : Nat) :
    Gives Line.server (c.client.pending tenant count l)
      ((t.group (c.group tenant)).pending.take count) l.server := by
  refine ⟨?_, rfl⟩
  simp only [Client.pending, Client.raise, Config.client, ask_clear, h.pending hg]
  rfl

theorem ack_gives {ids : List String} (hids : ids ≠ [])
    (hread : none ∉ ids.map l.server.reads) :
    ∃ t', Gives Line.server (c.client.ack tenant ids l)
        ((t.group (c.group tenant)).pending.length - ((t.group (c.group tenant)).pending.filter
          fun h => some (h.number, 0) ∉ ids.map l.server.reads).length)
        (l.server.ack (c.tenantKey tenant) (c.group tenant) ids).2 ∧
      (l.server.ack (c.tenantKey tenant) (c.group tenant) ids).2.Numbered (c.tenantKey tenant) t' ∧
      t'.entries = t.entries ∧
      ((t.groups.find? (c.group tenant)).isSome → (t'.groups.find? (c.group tenant)).isSome) ∧
      t'.group (c.group tenant) = { t.group (c.group tenant) with
        pending := (t.group (c.group tenant)).pending.filter
          fun h => some (h.number, 0) ∉ ids.map l.server.reads } := by
  obtain ⟨t', hleft, hentries, hknown, hgroup, hanswer⟩ := h.ack (c.group tenant) hread
  refine ⟨t', ⟨?_, ?_⟩, hleft, hentries, hknown, hgroup⟩
  · rw [Client.ack, if_neg hids]
    simp only [Client.raise, Config.client, call_clear, hanswer]
    rfl
  · rw [Client.ack, if_neg hids]
    rfl

/-- An acknowledgement of an id that cannot be read fails, unless there is no group to ask for it;
it changes nothing. -/
theorem ack_unread {ids : List String} (hids : none ∈ ids.map l.server.reads) :
    (c.client.ack tenant ids l).2.server = l.server ∧
      ((c.client.ack tenant ids l).1 = .ok 0 ∧ (t.group (c.group tenant)).pending = [] ∨
        ∃ text, (c.client.ack tenant ids l).1 = .error (.ack text)) := by
  have hsome : ids ≠ [] := fun hnil => by simp [hnil] at hids
  obtain ⟨hserver, hanswer⟩ := h.ack_unread (c.group tenant) hids
  rw [Client.ack, if_neg hsome]
  simp only [Client.raise, Config.client, call_clear]
  refine ⟨hserver, ?_⟩
  rcases hanswer with ⟨hnone, hempty⟩ | hrefused
  · rw [hnone]
    exact .inl ⟨rfl, hempty⟩
  · rw [hrefused]
    exact .inr ⟨_, rfl⟩

end Group

theorem count_acked {pending : List Handout} (hn : (pending.map fun h => some (h.number, 0)).Nodup)
    (named : List (Option (Nat × Nat))) :
    pending.length - (pending.filter fun h => some (h.number, 0) ∉ named).length =
      (named.dedup.filter fun id => id ∈ pending.map fun h => some (h.number, 0)).length := by
  have hsplit := List.length_eq_length_filter_add (l := pending)
    fun h => decide (some (h.number, 0) ∈ named)
  have hnot : (pending.filter fun h => !decide (some (h.number, 0) ∈ named)) =
      pending.filter fun h => some (h.number, 0) ∉ named :=
    List.filter_congr fun h _ => (decide_not (p := some (h.number, 0) ∈ named)).symm
  have hperm : ((pending.filter fun h => some (h.number, 0) ∈ named).map
        fun h => some (h.number, 0)).Perm
      (named.dedup.filter fun id => id ∈ pending.map fun h => some (h.number, 0)) := by
    rw [List.perm_ext_iff_of_nodup]
    · intro id
      simp only [List.mem_map, List.mem_filter, List.mem_dedup, decide_eq_true_eq]
      constructor
      · rintro ⟨w, ⟨hw, hid⟩, rfl⟩
        exact ⟨hid, w, hw, rfl⟩
      · rintro ⟨hid, w, hw, rfl⟩
        exact ⟨w, ⟨hw, hid⟩, rfl⟩
    · exact (List.filter_sublist.map _).nodup hn
    · exact (List.nodup_dedup named).filter _
  have hlength := hperm.length_eq
  rw [List.length_map] at hlength
  rw [hnot] at hsplit
  omega

theorem message?_payload {e : Entry} (h : e.fields = payload m) : e.message? = m.reread := by
  rw [Entry.message?, h, payload, List.lookup_cons_self, Option.bind_some]
  rfl

theorem readings_messages (es : List Entry) :
    (Client.readings es).map Reading.message = es.filterMap Entry.message? := by
  rw [Client.readings, List.map_filterMap]
  refine List.filterMap_congr fun e _ => ?_
  cases e.message? <;> rfl

theorem readings_entries (h : ∀ e ∈ es, e.message?.isSome = true) :
    (Client.readings es).map Reading.entry = es.map Entry.id := by
  induction es with
  | nil => rfl
  | cons e es ih =>
      rw [List.forall_mem_cons] at h
      obtain ⟨m, hm⟩ := Option.isSome_iff_exists.mp h.1
      rw [Client.readings, List.filterMap_cons_some (b := ⟨e.id, m⟩) (by rw [hm]; rfl), List.map_cons,
        List.map_cons, ← ih h.2]
      rfl

end Parley.StreamStore
