import Parley.Proofs.StreamStore.Agreement

namespace Parley.StreamStore

variable {φ : Type} {c : Config} {t : Session φ} {log ms : List Message} {seen : List String}
  {m m' : Message}

theorem Filled.store (h : Filled c log (fun _ => none) t.server) (hm : Storable m)
    (hseen : ∀ id, id ∈ seen ↔ ∃ n ∈ log, n.id = id) :
    (c.client.store m t).1 = .ok () ∧
      Filled c (if m.id ∈ seen then log else log ++ [m]) (fun _ => none)
        (c.client.store m t).2.server := by
  obtain ⟨hanswer, hleft⟩ := store_gives h.messages m
  refine ⟨hanswer, ?_⟩
  have hknown : (log.any fun n => n.id = m.id) = decide (m.id ∈ seen) := by
    rw [Bool.eq_iff_iff, decide_eq_true_iff, hseen]
    simp
  rw [hleft, hknown]
  by_cases hmem : m.id ∈ seen
  · rw [if_pos hmem, decide_eq_true hmem]
    exact h
  · rw [if_neg hmem, decide_eq_false hmem]
    refine h.write hm fun n hn hid => hmem ((hseen _).mpr ⟨n, hn, hid⟩)

theorem Filled.storeAll (h : Filled c log (fun _ => none) t.server) (hms : ∀ m ∈ ms, Storable m)
    (hseen : ∀ id, id ∈ seen ↔ ∃ n ∈ log, n.id = id) :
    (∀ answer ∈ (c.client.backend.runAll t (ms.map .append)).1, answer = .ok .done) ∧
      Filled c (log ++ keepNew seen ms) (fun _ => none)
        (c.client.backend.runAll t (ms.map .append)).2.server := by
  induction ms generalizing t log seen with
  | nil =>
      rw [keepNew, List.append_nil]
      exact ⟨List.forall_mem_nil _, h⟩
  | cons m ms ih =>
      rw [List.forall_mem_cons] at hms
      obtain ⟨hanswer, hfilled⟩ := h.store hms.1 hseen
      have hfirst : (c.client.backend.run t (.append m)).1 = .ok .done :=
        congrArg (Except.map _) hanswer
      simp only [List.map_cons, Backend.runAll, List.forall_mem_cons, keepNew]
      by_cases hmem : m.id ∈ seen
      · rw [if_pos hmem] at hfilled ⊢
        obtain ⟨hanswers, hall⟩ := ih hfilled hms.2 hseen
        exact ⟨⟨hfirst, hanswers⟩, hall⟩
      · rw [if_neg hmem] at hfilled ⊢
        have hseen' : ∀ id, id ∈ m.id :: seen ↔ ∃ n ∈ log ++ [m], n.id = id := by
          intro id
          simp [hseen, or_and_right, exists_or, or_comm, eq_comm]
        obtain ⟨hanswers, hall⟩ := ih hfilled hms.2 hseen'
        rw [List.append_assoc] at hall
        exact ⟨⟨hfirst, hanswers⟩, hall⟩

theorem reread_threadId (h : m.Sound) (hr : m.reread = some m') : m'.threadId = m.threadId := by
  rw [Message.eq_of_reread h hr]
  rfl

theorem reread_concerns (h : m.Sound) (hr : m.reread = some m') (tenant : String) :
    m'.concerns tenant = m.concerns tenant := by
  rw [Message.eq_of_reread h hr]
  rfl

theorem filterMap_reread {p q : Message → Bool}
    (h : ∀ m ∈ log, ∀ m', m.reread = some m' → p m = q m') :
    (log.filter p).filterMap Message.reread = (log.filterMap Message.reread).filter q := by
  rw [List.filterMap_filter, List.filter_filterMap]
  refine List.filterMap_congr fun m hm => ?_
  cases hr : m.reread with
  | none => exact ite_self _
  | some m' => rw [h m hm m' hr, Option.filter_some]

/-- The messages in the stream of a thread are those of the thread, and those of a tenant that is
named as the thread is. -/
theorem filter_threadKey (h : ∀ m ∈ log, m.Sound) (c : Config) (id : String) :
    (log.filter fun m => c.threadKey id ∈ c.streamKeys m).filterMap Message.reread =
      (log.filterMap Message.reread).filter fun m =>
        m.threadId = id || m.concerns ("thread:" ++ id) := by
  refine filterMap_reread fun m hm m' hr => ?_
  rw [reread_concerns (h m hm) hr, reread_threadId (h m hm) hr, Bool.eq_iff_iff,
    decide_eq_true_iff, Config.threadKey_mem_streamKeys, Bool.or_eq_true, decide_eq_true_iff]

theorem filter_tenantKey (h : ∀ m ∈ log, m.Sound) (c : Config) (tenant : String) :
    (log.filter fun m => c.tenantKey tenant ∈ c.streamKeys m).filterMap Message.reread =
      (log.filterMap Message.reread).filter fun m =>
        m.concerns tenant || tenant = "thread:" ++ m.threadId := by
  refine filterMap_reread fun m hm m' hr => ?_
  rw [reread_concerns (h m hm) hr, reread_threadId (h m hm) hr, Bool.eq_iff_iff,
    decide_eq_true_iff, Config.tenantKey_mem_streamKeys, Bool.or_eq_true, decide_eq_true_iff]

theorem reread_id (h : m.Sound) (hr : m.reread = some m') : m'.id = m.id := by
  rw [Message.eq_of_reread h hr]

/-- After any messages were stored whose tenants are not named as a hash is, every one of them was
accepted, the ids and the decisions are undamaged, and each stream is read as what belongs to it;
but a tenant and a thread that share their key share their stream. Two roles share a key just if
they have one name. -/
theorem views_of_appends (c : Config) (faults : φ) {ms : List Message}
    (hms : ∀ m ∈ ms, m.Sound ∧ Storable m) :
    (∀ role role', c.key role = c.key role' ↔ role.name = role'.name) ∧
    ∃ answers t, c.client.backend.runAll (Session.new c .empty faults) (ms.map .append) =
        (answers, t) ∧
      (∀ answer ∈ answers, answer = .ok .done) ∧
      t.server.valuesAt c.messagesKey =
        .ok (fun id => ((firstOfEach ms).find? fun m => m.id = id).map encodeText) ∧
      t.server.valuesAt c.approvalsKey = .ok (fun _ => none) ∧
      (∀ tenant, ¬ Reserved tenant → (c.client.ofTenant tenant t).1 =
        .ok (((firstOfEach ms).filterMap Message.reread).filter fun m =>
          m.concerns tenant || tenant = "thread:" ++ m.threadId)) ∧
      ∀ id, (c.client.thread id t).1 =
        .ok (((firstOfEach ms).filterMap Message.reread).filter fun m =>
          m.threadId = id || m.concerns ("thread:" ++ id)) := by
  refine ⟨Config.key_eq_key_iff c, _, _, rfl, ?_⟩
  have hempty : Filled c [] (fun _ => none) (Session.new c .empty faults).server := filled_empty c
  have hnone : ∀ id, id ∈ [] ↔ ∃ n ∈ ([] : List Message), n.id = id := by simp
  obtain ⟨hanswers, hfilled⟩ := hempty.storeAll (fun m hm => (hms m hm).2) hnone
  rw [List.nil_append] at hfilled
  have hsound : ∀ m ∈ firstOfEach ms, m.Sound :=
    fun m hm => (hms m ((keepNew_sublist [] ms).subset hm)).1
  have hid : ∀ m ∈ firstOfEach ms, ∀ m' ∈ m.reread, m'.id = m.id :=
    fun m hm m' hm' => reread_id (hsound m hm) hm'
  have hlegible : Legible fun _ => none := nofun
  have hruled : ruled (fun _ => none) = id := rfl
  refine ⟨hanswers, hfilled.messages, hfilled.approvals, ?_, ?_⟩
  · intro tenant ht
    rw [(ofTenant_gives hfilled hlegible (nodup_keepNew [] ms) hid ht).answer, hruled, List.map_id]
    exact congrArg Except.ok (filter_tenantKey hsound c tenant)
  · intro id
    rw [(thread_gives hfilled hlegible (nodup_keepNew [] ms) hid id).answer, hruled, List.map_id]
    exact congrArg Except.ok (filter_threadKey hsound c id)

theorem key_not_injective : ¬ ∀ (c : Config) (role role' : Role),
    c.key role = c.key role' → role = role' := by
  intro h
  have hrole := h .standard (.tenant "thread:q") (.thread "q") (by decide)
  cases hrole

theorem views_of_question : (∀ m ∈ [plainQuestion], m.Sound ∧ Storable m) ∧
    plainQuestion.concerns "thread:q" = false ∧
    ∃ answers t, Config.standard.client.backend.runAll (Session.new Config.standard .empty ())
        ([plainQuestion].map .append) = (answers, t) ∧
      (Config.standard.client.ofTenant "thread:q" t).1 = .ok [plainQuestion] := by
  have hms : ∀ m ∈ [plainQuestion], m.Sound ∧ Storable m := by
    rw [List.forall_mem_singleton]
    exact ⟨plainQuestion_sound, fun tenant ht => (plainQuestion_plain tenant ht).1⟩
  have hname : ¬ Reserved "thread:q" := by
    rintro (h | h) <;> revert h <;> decide
  obtain ⟨-, answers, t, hrun, -, -, -, htenant, -⟩ := views_of_appends .standard () hms
  refine ⟨hms, rfl, answers, t, hrun, ?_⟩
  rw [htenant _ hname, show firstOfEach [plainQuestion] = [plainQuestion] from rfl,
    List.filterMap_cons_some plainQuestion_reread]
  rfl

/-- A call that fails in some state of the server, and leaves it there, fails however often it is
made. -/
theorem persist_fails {α : Type} {f : Line φ → Except Error α × Line φ} {s : Server}
    (h : ∀ l : Line φ, l.server = s → ∃ e l', f l = (.error e, l') ∧ l'.server = s) (cl : Client φ)
    (target : String) (ht : t.server = s) : ∃ e, (cl.persist target f t).1 = .error e := by
  rw [Client.persist, Retry.run]
  generalize cl.config.retry.maxRetries.toNat = left, (0 : Nat) = attempt
  induction left generalizing t attempt with
  | zero =>
      obtain ⟨e, l', hf, -⟩ := h t.line ht
      simp only [Retry.attemptFrom, Client.onLine, hf, Retry.Outcome.ofExcept]
      cases e.isTransient <;> exact ⟨_, rfl⟩
  | succ left ih =>
      obtain ⟨e, l', hf, hl'⟩ := h t.line ht
      rw [Retry.attemptFrom]
      simp only [Client.onLine, hf, Retry.Outcome.ofExcept]
      cases e.isTransient with
      | false => exact ⟨_, rfl⟩
      | true => exact ih (t := { t with
          line := l', clock := t.clock + (cl.config.retry.delay attempt.toUInt32).toNat }) hl' _

/-- The writes of a message of a tenant that is named as the hash of the messages leave no hash
under that key. -/
theorem index_lost (hm : m.concerns "messages" = true) (c : Config) :
    (Server.empty.transaction (c.writes m)).2.valuesAt c.messagesKey = .error Server.wrongType := by
  have hkey : c.messagesKey ∈ c.streamKeys m := by
    rw [← Config.tenantKey_messages]
    exact Config.tenantKey_mem_streamKeys.mpr (.inl hm)
  have hfields := Server.additions_fieldsAt (c.streamKeys m) (payload m)
    (fun key _ => ⟨[], Server.fieldsAt_empty key⟩) (Server.fieldsAt_empty c.messagesKey)
  obtain ⟨n, hn⟩ := Nat.exists_eq_succ_of_ne_zero (List.count_pos_iff.mpr hkey).ne'
  rw [hn, List.replicate_succ, List.nil_append] at hfields
  have hlost := Server.valuesAt_of_fieldsAt hfields
  rw [transaction_writes, Server.set_snd_of_error hlost, hlost]

theorem append_fails {l : Line φ} (h : l.server.valuesAt c.messagesKey = .error Server.wrongType)
    (m : Message) : ∃ e l', c.client.append m l = (.error e, l') ∧ l'.server = l.server := by
  have hknows : ∃ e l', c.client.knows m.id l = (.error e, l') ∧ l'.server = l.server := by
    simp only [Client.knows, Client.raise, Config.client, ask_clear, Server.has_eq, h]
    exact ⟨_, _, rfl, rfl⟩
  obtain ⟨e, l', hknows, hl'⟩ := hknows
  rw [Client.append, hknows]
  exact ⟨e, l', rfl, hl'⟩

/-- A message of a tenant that is named as the hash of the messages is accepted, and after it
nothing can be stored. -/
theorem store_fails_after (hm : m.concerns "messages" = true) (c : Config) (faults : φ)
    (n : Message) : ∃ t, c.client.store m (Session.new c .empty faults) = (.ok (), t) ∧
      ∃ e, (c.client.store n t).1 = .error e := by
  have hgives := store_gives (t := Session.new c .empty faults) (filled_empty c).messages m
  obtain ⟨t, hstore, ht⟩ := hgives.exists_eq
  refine ⟨t, hstore, ?_⟩
  have hlost : t.server.valuesAt c.messagesKey = .error Server.wrongType := by
    rw [ht]
    exact index_lost hm c
  obtain ⟨e, he⟩ := persist_fails (t := t) (f := c.client.append n) (s := t.server)
    (fun l hl => hl ▸ append_fails (hl ▸ hlost) n) c.client (c.tenantKey n.toTenant) rfl
  rw [Client.store, client_config]
  cases hp : c.client.persist (c.tenantKey n.toTenant) (c.client.append n) t with
  | mk result t' =>
      rw [hp] at he
      obtain rfl : result = .error e := he
      exact ⟨e, rfl⟩

end Parley.StreamStore
