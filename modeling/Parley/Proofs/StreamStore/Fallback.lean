import Parley.Proofs.Store.Keeping
import Parley.Proofs.StreamStore.Cache
import Parley.Proofs.StreamStore.Retried

namespace Parley.StreamStore

/-- A server that does not say of an id that it has no message of it. -/
def Occupied (c : Config) (id : String) (s : Server) : Prop := s.has c.messagesKey id ≠ .ok false

variable {φ : Type} {c : Config} {cl : Client φ} {id : String} {m : Message} {s : Server}
  {l : Line φ} {t : Session φ}

theorem occupied_of_error {e : String} (h : s.hashAt c.messagesKey = .error e) (id : String) :
    Occupied c id s := by
  rw [Occupied, Server.has, h]
  intro hfree
  cases hfree

theorem Occupied.add (h : Occupied c id s) (key : String) (fields : List (String × String)) :
    Occupied c id (s.add key fields).2 := by
  rw [Server.add]
  cases s.streamAt key with
  | error e => exact h
  | ok stream =>
      by_cases hk : c.messagesKey = key
      · refine occupied_of_error (e := Server.wrongType) ?_ id
        simp only [Server.hashAt, Server.put, Table.find?_set, if_pos hk]
      · have hhash := Server.hashAt_put_stream hk s
        rw [Occupied, Server.has]
        exact fun hfalse => h ((congrArg (Except.map _) (hhash _)).symm.trans hfalse)

theorem has_set {key : String} {table : Table String String} (ht : s.hashAt key = .ok table)
    (field value k f : String) : (s.set key field value).2.has k f =
      if k = key then .ok (if f = field then some value else table.find? f).isSome
      else s.has k f := by
  rw [Server.set, ht, Server.has, Server.hashAt_put_hash, ← Table.find?_set]
  split <;> rfl

theorem Occupied.set (h : Occupied c id s) (key field value : String) :
    Occupied c id (s.set key field value).2 := by
  cases ht : s.hashAt key with
  | error e =>
      rw [Server.set, ht]
      exact h
  | ok table =>
      rw [Occupied, has_set ht]
      by_cases hk : c.messagesKey = key
      · rw [Occupied, Server.has, hk, ht] at h
        rw [if_pos hk]
        split
        · simp
        · exact h
      · rw [if_neg hk]
        exact h

theorem Occupied.transaction (h : Occupied c id s) (writes : List Write) :
    Occupied c id (s.transaction writes).2 := by
  induction writes generalizing s with
  | nil => exact h
  | cons w writes ih =>
      refine ih ?_
      cases w with
      | add key fields => exact h.add key fields
      | set key field value => exact h.set key field value

/-- Once the writes of a message are carried out, whatever comes of them, its id is not free. -/
theorem occupied_stored (c : Config) (m : Message) (s : Server) :
    Occupied c m.id (stored c m s) := by
  rw [stored, transaction_writes]
  generalize (s.transaction (Server.additions (payload m) (c.streamKeys m))).2 = s'
  cases ht : s'.hashAt c.messagesKey with
  | error e =>
      rw [Server.set, ht]
      exact occupied_of_error ht m.id
  | ok table =>
      rw [Occupied, has_set ht, if_pos rfl, if_pos rfl]
      simp

def lostWrite (c : Config) (m : Message) : Command × Fate :=
  (.transaction (c.writes m), .answerLost)

/-- After some attempts of a call to store a message that all failed: nothing was carried out, or
the write was, for a message that the server did not have, and its answer was lost. -/
def Unsettled (c : Config) (m : Message) (t : Session φ) (l : Line φ) : Prop :=
  ∃ sent, l.sent = t.line.sent ++ sent ∧
    (lostWrite c m ∉ sent ∧ l.server = t.server ∨
      lostWrite c m ∈ sent ∧ t.server.has c.messagesKey m.id = .ok false ∧
        Occupied c m.id l.server)

/-- After a call to store a message that succeeded: the message was new to the server and no answer
was lost, or it is said not to be new. -/
def Settled (c : Config) (m : Message) (t : Session φ) (new : Bool) (l : Line φ) : Prop :=
  ∃ sent, l.sent = t.line.sent ++ sent ∧
    if new then
      lostWrite c m ∉ sent ∧ t.server.has c.messagesKey m.id = .ok false ∧ Occupied c m.id l.server
    else
      t.server.has c.messagesKey m.id = .ok true ∨
        lostWrite c m ∈ sent ∧ t.server.has c.messagesKey m.id = .ok false

section Attempt

variable {r : Except Error Bool} {sent : List (Command × Fate)} {s' : Server}

theorem Attempt.occupied (h : Attempt c m s r sent s') (ho : Occupied c id s) :
    Occupied c id s' := by
  cases h with
  | unasked | known | refused => exact ho
  | untold | written => exact ho.transaction _

theorem Unsettled.of_error (h : Unsettled c m t l) {l' : Line φ} {e : Error}
    (ha : Attempt c m l.server (.error e) sent l'.server) (hsent : l'.sent = l.sent ++ sent) :
    Unsettled c m t l' := by
  obtain ⟨past, hpast, hstate⟩ := h
  refine ⟨past ++ sent, by rw [hsent, hpast, List.append_assoc], ?_⟩
  rcases hstate with ⟨hnone, hserver⟩ | ⟨hlost, hfree, ho⟩
  · generalize l'.server = left at ha ⊢
    rw [List.mem_append, not_or]
    cases ha with
    | unasked | refused => exact .inl ⟨⟨hnone, by simp [lostWrite]⟩, hserver⟩
    | untold e hfree =>
        rw [hserver] at hfree
        exact .inr ⟨.inr (by simp [lostWrite]), hfree, occupied_stored c m _⟩
  · exact .inr ⟨List.mem_append_left _ hlost, hfree, ha.occupied ho⟩

theorem Unsettled.of_ok (h : Unsettled c m t l) {l' : Line φ} {new : Bool}
    (ha : Attempt c m l.server (.ok new) sent l'.server) (hsent : l'.sent = l.sent ++ sent) :
    Settled c m t new l' := by
  obtain ⟨past, hpast, hstate⟩ := h
  refine ⟨past ++ sent, by rw [hsent, hpast, List.append_assoc], ?_⟩
  rw [List.mem_append]
  generalize l'.server = left at ha ⊢
  cases ha with
  | known hknown =>
      rcases hstate with ⟨-, hserver⟩ | ⟨hlost, hfree, -⟩
      · exact .inl (hserver ▸ hknown)
      · exact .inr ⟨.inl hlost, hfree⟩
  | written hfree =>
      rcases hstate with ⟨hnone, hserver⟩ | ⟨-, -, ho⟩
      · exact ⟨not_or.mpr ⟨hnone, by simp [lostWrite]⟩, hserver ▸ hfree, occupied_stored c m _⟩
      · exact absurd hfree ho

end Attempt

theorem persist_settled {target : String} {new : Bool}
    (h : (cl.persist target (cl.append m) t).1 = .ok new) :
    Settled cl.config m t new (cl.persist target (cl.append m) t).2.line := by
  have hstart : Unsettled cl.config m t t.line :=
    ⟨[], (List.append_nil _).symm, .inl ⟨List.not_mem_nil, rfl⟩⟩
  refine (persist_ends cl (Q := Settled cl.config m t) (fun l hl => ?_) target hstart).1 new h
  obtain ⟨sent, hsent, hattempt⟩ := append_attempt cl m l
  refine ⟨fun new hnew => ?_, fun e he => ?_⟩
  · rw [hnew] at hattempt
    exact hl.of_ok hattempt hsent
  · rw [he] at hattempt
    exact hl.of_error hattempt hsent

/-- A call to store a message brings it to the server: the call succeeds, and the server did not
have its id before. -/
def Wrote (cl : Client φ) (m : Message) (t : Session φ) : Prop :=
  (cl.store m t).1 = .ok () ∧ t.server.has cl.config.messagesKey m.id = .ok false

/-- The answer to the write of a message is lost while it is stored. -/
def Untold (cl : Client φ) (m : Message) (t : Session φ) : Prop :=
  lostWrite cl.config m ∈ (cl.store m t).2.line.sent.drop t.line.sent.length

instance : Decidable (Wrote cl m t) := inferInstanceAs (Decidable (_ ∧ _))

instance : Decidable (Untold cl m t) := inferInstanceAs (Decidable (_ ∈ _))

/-- A call to store a message keeps it if it wrote it and was told so; else what was kept stays as
it is. -/
theorem store_cases (cl : Client φ) (m : Message) (t : Session φ) :
    ((cl.store m t).2.cache = t.cache ∧ ((cl.store m t).1 = .ok () →
      t.server.has cl.config.messagesKey m.id = .ok true ∨ Wrote cl m t ∧ Untold cl m t)) ∨
    ((cl.store m t).2.cache = t.cache.push m ∧ Wrote cl m t ∧ ¬ Untold cl m t ∧
      Occupied cl.config m.id (cl.store m t).2.server) := by
  have hframe := (persist_frame cl (cl.config.tenantKey m.toTenant) (cl.append m) t).1
  have hsettled := fun new => @persist_settled φ cl m t (cl.config.tenantKey m.toTenant) new
  rw [Untold, Wrote, Client.store]
  generalize cl.persist (cl.config.tenantKey m.toTenant) (cl.append m) t = called
    at hframe hsettled ⊢
  obtain ⟨e | new, t'⟩ := called
  · refine .inl ⟨hframe, fun hok => ?_⟩
    cases hok
  · obtain ⟨sent, hsent, hcase⟩ := hsettled new rfl
    have hdrop : t'.line.sent.drop t.line.sent.length = sent := by
      rw [hsent, List.drop_left]
    cases new with
    | false =>
        refine .inl ⟨hframe, fun _ => ?_⟩
        rw [hdrop]
        exact hcase.imp_right fun h => ⟨⟨rfl, h.2⟩, h.1⟩
    | true =>
        obtain ⟨hnone, hfree, ho⟩ := hcase
        refine .inr ⟨congrArg (Cache.push · m) hframe, ⟨rfl, hfree⟩, ?_, ho⟩
        rw [hdrop]
        exact hnone

theorem store_occupied (h : Occupied cl.config id t.server) (m : Message) :
    Occupied cl.config id (cl.store m t).2.server :=
  store_invariant cl m (fun _ _ _ _ hattempt ho => hattempt.occupied ho) h

def kept? (cl : Client φ) (t : Session φ) : Backend.Op → Option Message
  | .append m => if Wrote cl m t ∧ ¬ Untold cl m t then some m else none
  | _ => none

/-- The messages that operations wrote and were told of, in order. -/
def kept (cl : Client φ) (t : Session φ) : List Backend.Op → List Message
  | [] => []
  | op :: rest => (kept? cl t op).toList ++ kept cl (cl.backend.run t op).2 rest

theorem kept?_append_cases (cl : Client φ) (m : Message) (t : Session φ) :
    (kept? cl t (.append m) = none ∧ (cl.store m t).2.cache = t.cache) ∨
    (kept? cl t (.append m) = some m ∧ (cl.store m t).2.cache = t.cache.push m ∧
      ¬ Occupied cl.config m.id t.server ∧ Occupied cl.config m.id (cl.store m t).2.server) := by
  rw [kept?]
  rcases store_cases cl m t with ⟨hcache, hok⟩ | ⟨hcache, hwrote, htold, ho⟩
  · refine .inl ⟨if_neg ?_, hcache⟩
    rintro ⟨hwrote, htold⟩
    rcases hok hwrote.1 with hknown | ⟨-, hlost⟩
    · rw [hwrote.2] at hknown
      cases hknown
    · exact htold hlost
  · exact .inr ⟨if_pos ⟨hwrote, htold⟩, hcache, fun h => h hwrote.2, ho⟩

section Reads

theorem approvals_server (cl : Client φ) (ids : List String) (l : Line φ) :
    (cl.approvals ids l).2.server = l.server := by
  rw [Client.approvals]
  split
  · rfl
  · exact ask_server ..

theorem stream_server (cl : Client φ) (key : String) (l : Line φ) :
    (cl.stream key l).2.server = l.server := by
  have hrange : (cl.range key l).2.server = l.server :=
    ask_server cl.weather (.range key) (fun s => s.range key) l
  rw [Client.stream]
  generalize cl.range key l = read at hrange ⊢
  obtain ⟨e | ms, l'⟩ := read
  · exact hrange
  · exact (approvals_server cl _ l').trans hrange

theorem lookUp_server (cl : Client φ) (id : String) (l : Line φ) :
    (cl.lookUp id l).2.server = l.server := by
  have hfind : (cl.find id l).2.server = l.server :=
    ask_server cl.weather (.get cl.config.messagesKey id)
      (fun s => s.get cl.config.messagesKey id) l
  rw [Client.lookUp]
  generalize cl.find id l = found at hfind ⊢
  obtain ⟨e | _ | m, l'⟩ := found
  · exact hfind
  · exact hfind
  · exact (approvals_server cl [id] l').trans hfind

theorem read_frame (cl : Client φ) (t : Session φ) {op : Backend.Op} (ha : ∀ m, op ≠ .append m)
    (hd : ∀ id a, op ≠ .decide id a) :
    (cl.backend.run t op).2.server = t.server ∧ (cl.backend.run t op).2.cache = t.cache ∧
      kept? cl t op = none := by
  cases op with
  | append m => exact absurd rfl (ha m)
  | decide id a => exact absurd rfl (hd id a)
  | thread id =>
      have hserver := stream_server cl (cl.config.threadKey id) t.line
      change (cl.thread id t).2.server = _ ∧ (cl.thread id t).2.cache = _ ∧ _
      rw [Client.thread, Client.onLine]
      generalize cl.stream (cl.config.threadKey id) t.line = read at hserver ⊢
      obtain ⟨e | ms, l⟩ := read
      · simp only
        split <;> exact ⟨hserver, rfl, rfl⟩
      · exact ⟨hserver, rfl, rfl⟩
  | tenant id => exact ⟨stream_server cl (cl.config.tenantKey id) t.line, rfl, rfl⟩
  | find id => exact ⟨lookUp_server cl id t.line, rfl, rfl⟩

end Reads

/-- A client that keeps the last of the messages that it wrote and was told of, all of which have
different ids that are not free any more. -/
structure Keeping (cl : Client φ) (list : List Message) (t : Session φ) : Prop where
  cache : Cache.Follows cl.config.cachedThreads cl.config.cachedMessages
    (.of cl.config.cachedThreads list) t.cache
  ids : (list.map Message.id).Nodup
  occupied : ∀ m ∈ list, Occupied cl.config m.id t.server

section Run

variable (hthreads : 0 < cl.config.cachedThreads) (hmessages : 0 < cl.config.cachedMessages)
include hthreads hmessages

theorem Keeping.append {list : List Message} (h : Keeping cl list t) (m : Message) :
    Keeping cl (list ++ (kept? cl t (.append m)).toList) (cl.store m t).2 := by
  have hold : ∀ n ∈ list, Occupied cl.config n.id (cl.store m t).2.server :=
    fun n hn => store_occupied (h.occupied n hn) m
  rcases kept?_append_cases cl m t with ⟨hnone, hcache⟩ | ⟨hsome, hcache, hfree, hdone⟩
  · rw [hnone, Option.toList_none, List.append_nil]
    exact ⟨hcache ▸ h.cache, h.ids, hold⟩
  · rw [hsome, Option.toList_some]
    refine ⟨?_, ?_, ?_⟩
    · rw [hcache, Cache.Past.of_concat]
      exact h.cache.push hthreads hmessages m
    · rw [List.map_append, List.map_singleton]
      refine List.nodup_append.mpr ⟨h.ids, by simp, fun id hid id' hid' heq => ?_⟩
      obtain ⟨n, hn, rfl⟩ := List.mem_map.mp hid
      rw [List.mem_singleton.mp hid'] at heq
      exact hfree (heq ▸ h.occupied n hn)
    · rw [List.forall_mem_append, List.forall_mem_singleton]
      exact ⟨hold, hdone⟩

theorem Keeping.run {list : List Message} (h : Keeping cl list t) {op : Backend.Op}
    (hop : ∀ id a, op ≠ .decide id a) :
    Keeping cl (list ++ (kept? cl t op).toList) (cl.backend.run t op).2 := by
  by_cases ha : ∃ m, op = .append m
  · obtain ⟨m, rfl⟩ := ha
    exact h.append hthreads hmessages m
  · obtain ⟨hserver, hcache, hnone⟩ := read_frame cl t (not_exists.mp ha) hop
    rw [hnone, Option.toList_none, List.append_nil]
    exact ⟨hcache ▸ h.cache, h.ids, fun m hm => hserver ▸ h.occupied m hm⟩

theorem Keeping.runAll {list : List Message} (h : Keeping cl list t) {ops : List Backend.Op}
    (hops : ∀ op ∈ ops, ∀ id a, op ≠ .decide id a) :
    Keeping cl (list ++ kept cl t ops) (cl.backend.runAll t ops).2 := by
  induction ops generalizing t list with
  | nil =>
      rw [kept, List.append_nil]
      exact h
  | cons op ops ih =>
      rw [List.forall_mem_cons] at hops
      rw [kept, ← List.append_assoc]
      exact ih (h.run hthreads hmessages hops.1) hops.2

end Run

end Parley.StreamStore
