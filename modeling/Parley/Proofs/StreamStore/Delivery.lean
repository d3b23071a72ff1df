import Parley.Proofs.StreamStore.Handing

namespace Parley.StreamStore.Delivery

variable {φ : Type}

/-- The ids of the accepted messages are known to the server, unless an event about a tenant that
is named as their hash has put a stream in its place. -/
def IndexKept (c : Config) (past : List Event) (s : Server) : Prop :=
  Indexed c (accepted past) s ∨
    (∃ e ∈ past, e.Names "messages") ∧ s.valuesAt c.messagesKey = .error Server.wrongType

/-- A stream has what was sent, and a group has handed out its front and waits for what was not
acknowledged. -/
structure Delivered (reads : IdReader) (tenant : String) (past : List Event) (numbered : Nat)
    (entries : List Entry) (g : Group) : Prop where
  said : entries.map Entry.fields = (sent tenant past).map payload
  reached : g.reached ≤ numbered
  split : ∃ done rest, entries = done ++ rest ∧ (∀ e ∈ done, e.number ≤ g.reached) ∧
    (∀ e ∈ rest, g.reached < e.number) ∧ (handed tenant past).map Prod.fst = Client.readings done
  ascending : g.pending.Pairwise fun h h' => h.number < h'.number
  bound : ∀ h ∈ g.pending, h.number ≤ g.reached
  waits : waiting reads tenant past = g.pending.map fun h => (h.id, h.consumer)

/-- What every call keeps. A group that was not made yet is taken as it would be made, so that the
invariant holds of a tenant before its first consumer comes. -/
structure Serving (c : Config) (reads : IdReader) (tenant : String) (past : List Event)
    (s : Session φ) : Prop where
  index : IndexKept c past s.server
  reading : s.server.reads = reads
  readable : ∀ m ∈ sent tenant past, m.reread.isSome = true
  stream : ∃ t, s.server.Numbered (c.tenantKey tenant) t ∧
    Delivered reads tenant past s.server.numbered t.entries (t.group (c.group tenant)) ∧
    (tenant ∈ s.groups → (t.groups.find? (c.group tenant)).isSome)

variable {c : Config} {reads : IdReader} {tenant other : String} {past : List Event} {e : Event}
  {s s' : Session φ} {t t' : Stream} {m : Message} {server server' : Server}

theorem IndexKept.of_eq (h : IndexKept c past server)
    (hvalues : server'.valuesAt c.messagesKey = server.valuesAt c.messagesKey)
    (haccepted : accepted (past ++ [e]) = accepted past) :
    IndexKept c (past ++ [e]) server' := by
  rcases h with hindexed | ⟨⟨e', he', hnames⟩, hlost⟩
  · left
    rw [haccepted]
    exact hvalues.trans hindexed
  · exact .inr ⟨⟨e', List.mem_append_left _ he', hnames⟩, hvalues.trans hlost⟩

theorem IndexKept.regrouped (h : IndexKept c past server)
    (hr : Server.Regrouped (c.tenantKey other) server server') (hnames : e.Names other)
    (hquiet : e.message? = none) : IndexKept c (past ++ [e]) server' := by
  by_cases hother : other = "messages"
  · subst hother
    rw [Config.tenantKey_messages] at hr
    rcases hr.valuesAt_self with hsame | hlost
    · exact h.of_eq hsame (accepted_concat_of_none hquiet)
    · exact .inr ⟨⟨e, List.mem_append_right _ (List.mem_singleton_self e), hnames⟩, hlost⟩
  · have hkey : c.messagesKey ≠ c.tenantKey other := by
      rw [← Config.tenantKey_messages, Ne, Config.tenantKey_inj]
      exact Ne.symm hother
    exact h.of_eq (hr.valuesAt hkey) (accepted_concat_of_none hquiet)

section Entries

variable {numbered : Nat} {entries : List Entry} {g : Group}

namespace Delivered

theorem readable (h : Delivered reads tenant past numbered entries g)
    (hread : ∀ m ∈ sent tenant past, m.reread.isSome = true) :
    ∀ e ∈ entries, e.message?.isSome = true := by
  intro e he
  have hmem : e.fields ∈ (sent tenant past).map payload := h.said ▸ List.mem_map_of_mem he
  obtain ⟨m, hm, hfields⟩ := List.mem_map.mp hmem
  rw [message?_payload hfields.symm]
  exact hread m hm

theorem messages (h : Delivered reads tenant past numbered entries g) :
    entries.filterMap Entry.message? = (sent tenant past).filterMap Message.reread := by
  have hread : entries.filterMap Entry.message? = (entries.map Entry.fields).filterMap
      (fun fields => (fields.lookup payloadField).bind decodeText) := by
    rw [List.filterMap_map]
    rfl
  rw [hread, h.said, List.filterMap_map]
  refine List.filterMap_congr fun m _ => ?_
  rw [Function.comp_apply, payload, List.lookup_cons_self, Option.bind_some]
  rfl

theorem quiet (h : Delivered reads tenant past numbered entries g)
    (haccepted : accepted (past ++ [e]) = accepted past) (hhanded : e.handed tenant = [])
    (hacked : e.acked tenant = [] ∨ waiting reads tenant past = []) :
    Delivered reads tenant (past ++ [e]) numbered entries g := by
  have hsent : sent tenant (past ++ [e]) = sent tenant past := by
    rw [sent, haccepted, sent]
  have hsame : handed tenant (past ++ [e]) = handed tenant past := by
    rw [handed_concat, hhanded, List.append_nil]
  have hwaiting : waiting reads tenant (past ++ [e]) = waiting reads tenant past := by
    rw [waiting_concat, settle_of_quiet hhanded hacked]
  exact ⟨hsent ▸ h.said, h.reached, hsame ▸ h.split, h.ascending, h.bound, hwaiting ▸ h.waits⟩

theorem read (h : Delivered reads tenant past numbered entries g)
    (hascending : entries.Pairwise fun e e' => e.number < e'.number)
    (hbound : ∀ e ∈ entries, e.number ≤ numbered)
    (hread : ∀ e ∈ entries, e.message?.isSome = true) (consumer : String)
    {done batch later : List Entry} (hentries : entries = done ++ (batch ++ later))
    (hdone : ∀ e ∈ done, e.number ≤ g.reached) (hrest : ∀ e ∈ batch ++ later, g.reached < e.number)
    (hhanded : (handed tenant past).map Prod.fst = Client.readings done) :
    Delivered reads tenant (past ++ [.read tenant consumer (.ok (Client.readings batch))]) numbered
      entries (Server.Group.handOut g consumer batch) := by
  have hparts := hascending
  rw [hentries, List.pairwise_append] at hparts
  obtain ⟨hgrown, hbatch, hlater, hreached⟩ := Group.reached_handOut hparts.2.1 hrest consumer
  rw [List.forall_mem_append] at hrest
  have hevent : Event.handed tenant (.read tenant consumer (.ok (Client.readings batch))) =
      (Client.readings batch).map (·, consumer) := if_pos rfl
  refine ⟨?_, ?_, ⟨done ++ batch, later, ?_, ?_, hlater, ?_⟩, ?_, ?_, ?_⟩
  · rw [sent, accepted_concat_of_none rfl]
    exact h.said
  · rcases hreached with hsame | ⟨e, he, hnumber⟩
    · exact hsame ▸ h.reached
    · rw [← hnumber]
      refine hbound e ?_
      rw [hentries]
      exact List.mem_append_right _ (List.mem_append_left _ he)
  · rw [hentries, List.append_assoc]
  · rw [List.forall_mem_append]
    exact ⟨fun e he => (hdone e he).trans hgrown, hbatch⟩
  · have happend : Client.readings (done ++ batch) =
        Client.readings done ++ Client.readings batch := List.filterMap_append
    rw [handed_concat, List.map_append, hhanded, hevent, List.map_map, happend]
    exact congrArg _ (List.map_id _)
  · rw [Server.Group.handOut, List.pairwise_append, List.pairwise_map]
    refine ⟨h.ascending, (List.pairwise_append.mp hparts.2.1).1, ?_⟩
    intro w hw w' hw'
    obtain ⟨e, he, rfl⟩ := List.mem_map.mp hw'
    exact (h.bound w hw).trans_lt (hrest.1 e he)
  · rw [Server.Group.handOut, List.forall_mem_append, List.forall_mem_map]
    exact ⟨fun w hw => (h.bound w hw).trans hgrown, hbatch⟩
  · have hbatchread : ∀ e ∈ batch, e.message?.isSome = true := by
      intro e he
      refine hread e ?_
      rw [hentries]
      exact List.mem_append_right _ (List.mem_append_left _ he)
    have hids : ((Client.readings batch).map (·, consumer)).map (fun h => (h.1.entry, h.2)) =
        batch.map fun e => (e.id, consumer) := by
      have hpair := congrArg (List.map (·, consumer)) (readings_entries hbatchread)
      rw [List.map_map, List.map_map] at hpair
      rw [List.map_map]
      exact hpair
    rw [waiting_concat, settle, hevent, hids, h.waits, List.filter_eq_self.mpr,
      Server.Group.handOut, List.map_append, List.map_map]
    · rfl
    · exact fun _ _ => decide_eq_true (List.forall_mem_nil _)

theorem ack (h : Delivered reads tenant past numbered entries g)
    (hreads : reads.Faithful numbered) (ids : List String) (n : Nat) :
    Delivered reads tenant (past ++ [.ack tenant ids (.ok n)]) numbered entries
      { g with pending := g.pending.filter fun h => some (h.number, 0) ∉ ids.map reads } := by
  have hacked : Event.acked tenant (.ack tenant ids (.ok n)) = ids := if_pos rfl
  refine ⟨?_, h.reached, ?_, h.ascending.filter _, ?_, ?_⟩
  · rw [sent, accepted_concat_of_none rfl]
    exact h.said
  · rw [handed_concat]
    exact (List.append_nil (handed tenant past)).symm ▸ h.split
  · exact fun w hw => h.bound w (List.mem_of_mem_filter hw)
  · rw [waiting_concat, settle, hacked, h.waits]
    change List.filter _ (_ ++ []) = _
    rw [List.append_nil, List.filter_map]
    refine congrArg _ (List.filter_congr fun w hw => ?_)
    rw [Function.comp_apply, Handout.id, hreads _ ((h.bound w hw).trans h.reached),
      decide_eq_decide, List.mem_map, not_exists]
    exact forall_congr' fun id => not_and.symm

theorem append (h : Delivered reads tenant past numbered entries g)
    (haccepted : accepted (past ++ [.append m (.ok ())]) = accepted past ++ [m])
    {new : List Entry} {numbered' : Nat}
    (hfields : new.map Entry.fields = if m.concerns tenant then [payload m] else [])
    (hnew : ∀ e ∈ new, numbered < e.number) (hgrown : numbered ≤ numbered') :
    Delivered reads tenant (past ++ [.append m (.ok ())]) numbered' (entries ++ new) g := by
  obtain ⟨done, rest, hentries, hdone, hrest, hhanded⟩ := h.split
  have hsame : handed tenant (past ++ [.append m (.ok ())]) = handed tenant past :=
    (handed_concat past _).trans (List.append_nil _)
  have hwaiting : waiting reads tenant (past ++ [.append m (.ok ())]) = waiting reads tenant past :=
    (waiting_concat past _).trans (settle_of_quiet rfl (.inl rfl))
  refine ⟨?_, h.reached.trans hgrown, ⟨done, rest ++ new, ?_, hdone, ?_, hsame ▸ hhanded⟩,
    h.ascending, h.bound, hwaiting ▸ h.waits⟩
  · have hsent : sent tenant (past ++ [.append m (.ok ())]) =
        sent tenant past ++ [m].filter fun m => m.concerns tenant := by
      rw [sent, haccepted, List.filter_append, sent]
    rw [List.map_append, h.said, hfields, hsent, List.map_append, List.filter_singleton]
    cases m.concerns tenant <;> rfl
  · rw [hentries, List.append_assoc]
  · rw [List.forall_mem_append]
    exact ⟨hrest, fun e he => h.reached.trans_lt (hnew e he)⟩

theorem nodup_numbers (h : Delivered reads tenant past numbered entries g) :
    (g.pending.map fun w => some (w.number, 0)).Nodup := by
  rw [List.Nodup, List.pairwise_map]
  refine h.ascending.imp fun hlt heq => ?_
  exact (ne_of_lt hlt) (congrArg Prod.fst (Option.some.inj heq))

theorem waiting_reads (h : Delivered reads tenant past numbered entries g)
    (hreads : reads.Faithful numbered) : (waiting reads tenant past).map (fun w => reads w.1) =
      g.pending.map fun w => some (w.number, 0) := by
  rw [h.waits, List.map_map]
  refine List.map_congr_left fun w hw => ?_
  rw [Function.comp_apply, Handout.id, hreads _ ((h.bound w hw).trans h.reached)]

theorem handed_messages (h : Delivered reads tenant past numbered entries g)
    (hread : ∀ e ∈ entries, e.message?.isSome = true) {done rest : List Entry}
    (hentries : entries = done ++ rest)
    (hhanded : (handed tenant past).map Prod.fst = Client.readings done) :
    (sent tenant past).filterMap Message.reread =
        (handed tenant past).map (fun h => h.1.message) ++ rest.filterMap Entry.message? ∧
      (rest.filterMap Entry.message? = [] ↔ rest = []) := by
  have hmessages : (handed tenant past).map (fun h => h.1.message) =
      done.filterMap Entry.message? := by
    have hmap := congrArg (List.map Reading.message) hhanded
    rw [readings_messages, List.map_map] at hmap
    exact hmap
  refine ⟨?_, ?_⟩
  · rw [← h.messages, hentries, List.filterMap_append, hmessages]
  · rw [List.filterMap_eq_nil_iff]
    constructor
    · intro hnone
      rw [List.eq_nil_iff_forall_not_mem]
      intro e he
      have hsome := hread e (hentries ▸ List.mem_append_right done he)
      rw [hnone e he] at hsome
      cases hsome
    · rintro rfl
      exact List.forall_mem_nil _

end Delivered

end Entries

namespace Serving

theorem readable_concat (h : Serving c reads tenant past s)
    (haccepted : accepted (past ++ [e]) = accepted past) :
    ∀ m ∈ sent tenant (past ++ [e]), m.reread.isSome = true := by
  rw [sent, haccepted]
  exact h.readable

theorem unchanged (h : Serving c reads tenant past s)
    (haccepted : accepted (past ++ [e]) = accepted past) (hhanded : e.handed tenant = [])
    (hacked : e.acked tenant = [] ∨ waiting reads tenant past = [])
    (hserver : s'.server = s.server) (hgroups : s'.groups = s.groups) :
    Serving c reads tenant (past ++ [e]) s' := by
  obtain ⟨t, ht, hdelivered, hknown⟩ := h.stream
  refine ⟨h.index.of_eq (by rw [hserver]) haccepted, hserver ▸ h.reading,
    h.readable_concat haccepted, t, ?_, ?_, ?_⟩
  · rwa [hserver]
  · rw [hserver]
    exact hdelivered.quiet haccepted hhanded hacked
  · rwa [hgroups]

theorem elsewhere (h : Serving c reads tenant past s) (hother : other ≠ tenant)
    (hnames : ∀ u, e.Names u ↔ other = u) (hmessage : e.message? = none)
    (hr : Server.Regrouped (c.tenantKey other) s.server s'.server)
    (hgroups : ∀ u ∈ s'.groups, u = other ∨ u ∈ s.groups) :
    Serving c reads tenant (past ++ [e]) s' := by
  obtain ⟨t, ht, hdelivered, hknown⟩ := h.stream
  have hkey : c.tenantKey tenant ≠ c.tenantKey other :=
    fun hkey => hother (Config.tenantKey_inj.mp hkey).symm
  have hnot : ¬ e.Names tenant := mt (hnames tenant).mp hother
  have haccepted : accepted (past ++ [e]) = accepted past := accepted_concat_of_none hmessage
  refine ⟨h.index.regrouped hr ((hnames other).mpr rfl) hmessage, hr.reads.trans h.reading,
    h.readable_concat haccepted, t, hr.numbered_other hkey ht, ?_, ?_⟩
  · rw [hr.numbered]
    exact hdelivered.quiet haccepted (Event.handed_eq_nil hnot) (.inl (Event.acked_eq_nil hnot))
  · exact fun hmem => hknown ((hgroups tenant hmem).resolve_left (Ne.symm hother))

theorem append_new (h : Serving c reads tenant past s) (ht : Plain tenant)
    (hread : m.concerns tenant = true → m.reread.isSome = true)
    (hindex : Indexed c (accepted past) s.server) (hnew : ∀ n ∈ accepted past, n.id ≠ m.id)
    (haccepted : accepted (past ++ [.append m (.ok ())]) = accepted past ++ [m])
    (hserver : s'.server = (s.server.transaction (c.writes m)).2) (hgroups : s'.groups = s.groups) :
    Serving c reads tenant (past ++ [.append m (.ok ())]) s' := by
  obtain ⟨t, hstream, hdelivered, hknown⟩ := h.stream
  have hkey : c.tenantKey tenant ≠ c.messagesKey :=
    (Config.isStream_tenantKey_iff.mpr ht.1).ne_messages
  obtain ⟨new, hadded, hfields, hnumber, hgrown⟩ :=
    hstream.additions (payload m) (c.streamKeys m)
  refine ⟨?_, ?_, ?_, { t with entries := t.entries ++ new }, ?_, ?_, ?_⟩
  · rw [hserver]
    rcases indexed_writes hindex hnew with hwritten | ⟨hnamed, hlost⟩
    · left
      rw [haccepted]
      exact hwritten
    · exact .inr ⟨⟨_, List.mem_append_right _ (List.mem_singleton_self _), hnamed⟩, hlost⟩
  · rw [hserver, Server.transaction_reads]
    exact h.reading
  · intro n hn
    rw [sent, haccepted, List.filter_append, List.mem_append] at hn
    rcases hn with hn | hn
    · exact h.readable n hn
    · obtain ⟨hmem, hconcerns⟩ := List.mem_filter.mp hn
      obtain rfl := List.mem_singleton.mp hmem
      exact hread hconcerns
  · rw [hserver, transaction_writes]
    exact hadded.set hkey m.id (encodeText m)
  · rw [hserver, transaction_writes, Server.numbered_set]
    refine hdelivered.append haccepted ?_ hnumber hgrown
    rw [hfields, count_tenantKey ht]
    split <;> rfl
  · rwa [hgroups]

/-- A message is accepted unless the hash of the messages was lost to an event about a tenant that
is named as it is; then it is refused, and nothing changes. -/
theorem append (h : Serving c reads tenant past s) (ht : Plain tenant)
    (hread : m.concerns tenant = true → m.reread.isSome = true) :
    ((c.client.store m s).1 = .ok () ∨ ∃ e ∈ past, e.Names "messages") ∧
      Serving c reads tenant (past ++ [.append m (c.client.store m s).1])
        (c.client.store m s).2 := by
  have hgroups := store_groups c.client m s
  rcases h.index with hindex | ⟨hnamed, hlost⟩
  · obtain ⟨hanswer, hleft⟩ := store_gives hindex m
    refine ⟨.inl hanswer, ?_⟩
    have haccepted := accepted_concat_append past m
    rw [hanswer]
    cases hany : (accepted past).any fun n => n.id = m.id with
    | true =>
        rw [hany, if_pos rfl] at hleft haccepted
        exact h.unchanged haccepted rfl (.inl rfl) hleft hgroups
    | false =>
        rw [hany, if_neg Bool.false_ne_true] at hleft haccepted
        exact h.append_new ht hread hindex (by simpa using hany) haccepted hleft hgroups
  · obtain ⟨⟨error, hanswer⟩, hleft⟩ := store_fails hlost m
    refine ⟨.inr hnamed, ?_⟩
    rw [hanswer]
    exact h.unchanged (accepted_concat_of_none rfl) rfl (.inl rfl) hleft hgroups

theorem own (h : Serving c reads tenant past s) (hnames : e.Names tenant)
    (hmessage : e.message? = none) (hr : Server.Regrouped (c.tenantKey tenant) s.server s'.server)
    (ht : s'.server.Numbered (c.tenantKey tenant) t)
    (hdelivered : Delivered reads tenant (past ++ [e]) s.server.numbered t.entries
      (t.group (c.group tenant)))
    (hknown : tenant ∈ s'.groups → (t.groups.find? (c.group tenant)).isSome) :
    Serving c reads tenant (past ++ [e]) s' :=
  ⟨h.index.regrouped hr hnames hmessage, hr.reads.trans h.reading,
    h.readable_concat (accepted_concat_of_none hmessage), t, ht, hr.numbered ▸ hdelivered, hknown⟩

theorem joined (h : Serving c reads tenant past s) :
    ∃ s' t, c.client.joinGroup tenant s = (.ok (), s') ∧
      s'.server.Numbered (c.tenantKey tenant) t ∧
      t.groups.find? (c.group tenant) = some (t.group (c.group tenant)) ∧
      (∀ e ∈ t.entries, e.number ≤ s.server.numbered) ∧
      Delivered reads tenant past s.server.numbered t.entries (t.group (c.group tenant)) := by
  obtain ⟨t, ht, hdelivered, hknown⟩ := h.stream
  obtain ⟨s', t', hjoin, ht', hentries, hgroup⟩ := joinGroup_numbered ht hknown
  have hsame : t'.group (c.group tenant) = t.group (c.group tenant) := by
    rw [Stream.group, hgroup, Option.getD_some]
  refine ⟨s', t', hjoin, ht', ?_, hentries ▸ ht.bound, ?_⟩
  · rw [hgroup, hsame]
  · rw [hentries, hsame]
    exact hdelivered

theorem join (h : Serving c reads tenant past s) :
    (c.client.joinGroup tenant s).1 = .ok () ∧
      Serving c reads tenant (past ++ [.join tenant (.ok ())]) (c.client.joinGroup tenant s).2 := by
  have hr := (joinGroup_regrouped c tenant s).1
  obtain ⟨s', t, hjoin, ht, hgroup, -, hdelivered⟩ := h.joined
  rw [hjoin] at hr ⊢
  refine ⟨rfl, h.own rfl rfl hr ht ?_ fun _ => by rw [hgroup]; rfl⟩
  exact hdelivered.quiet (accepted_concat_of_none rfl) rfl (.inl rfl)

theorem pending (h : Serving c reads tenant past s) (count : Nat) :
    ∃ handouts, (c.client.unacknowledged tenant count s).1 = .ok handouts ∧
      handouts.map (fun h => (h.id, h.consumer)) = (waiting reads tenant past).take count ∧
      Serving c reads tenant (past ++ [.pending tenant count (.ok handouts)])
        (c.client.unacknowledged tenant count s).2 := by
  have hr := (unacknowledged_regrouped c tenant count s).1
  obtain ⟨s', t, hjoin, ht, hgroup, -, hdelivered⟩ := h.joined
  obtain ⟨s'', hpending, hserver⟩ :=
    (onLine_gives (t := s') (pending_gives (l := s'.line) ht hgroup count)).exists_eq
  have hcall : c.client.unacknowledged tenant count s =
      (.ok ((t.group (c.group tenant)).pending.take count), s'') := by
    rw [Client.unacknowledged, Client.inGroup, hjoin]
    exact hpending
  rw [hcall] at hr ⊢
  have hleft : s''.server.Numbered (c.tenantKey tenant) t := by rwa [hserver]
  refine ⟨_, rfl, ?_, h.own rfl rfl hr hleft ?_ fun _ => by rw [hgroup]; rfl⟩
  · rw [hdelivered.waits, List.map_take]
  · exact hdelivered.quiet (accepted_concat_of_none rfl) rfl (.inl rfl)

theorem read (h : Serving c reads tenant past s) (consumer : String) :
    ∃ readings, (c.client.consume tenant consumer s).1 = .ok readings ∧
      (readings = [] ↔ (handed tenant past).map (fun h => h.1.message) =
        (sent tenant past).filterMap Message.reread) ∧
      Serving c reads tenant (past ++ [.read tenant consumer (.ok readings)])
        (c.client.consume tenant consumer s).2 := by
  have hr := (consume_regrouped c tenant consumer s).1
  obtain ⟨s', t, hjoin, ht, hgroup, hbound, hdelivered⟩ := h.joined
  obtain ⟨s'', hread, hserver⟩ :=
    (onLine_gives (t := s') (read_gives (l := s'.line) ht hgroup consumer)).exists_eq
  have hcall : c.client.consume tenant consumer s = (.ok (Client.readings
      (Server.Group.unread (t.group (c.group tenant)) t c.readCount)), s'') := by
    rw [Client.consume, Client.inGroup, hjoin]
    exact hread
  obtain ⟨done, rest, hentries, hdone, hrest, hhanded⟩ := hdelivered.split
  -- the batch is the front of what is left, so nothing is passed over and nothing comes again
  obtain ⟨later, rfl, hnone⟩ := Group.unread_split hentries hdone hrest c.readCount
  generalize Server.Group.unread (t.group (c.group tenant)) t c.readCount = batch at *
  have hreadable := hdelivered.readable h.readable
  have hbatch : ∀ e ∈ batch, e.message?.isSome = true := by
    intro e he
    refine hreadable e ?_
    rw [hentries]
    exact List.mem_append_right _ (List.mem_append_left _ he)
  have hlength : (Client.readings batch).length = batch.length := by
    have hids := congrArg List.length (readings_entries hbatch)
    rwa [List.length_map, List.length_map] at hids
  obtain ⟨hsent, hleft⟩ := hdelivered.handed_messages hreadable hentries hhanded
  have hafter : s''.server.Numbered (c.tenantKey tenant) _ :=
    hserver ▸ ht.putGroup (c.group tenant)
      (Server.Group.handOut (t.group (c.group tenant)) consumer batch)
  rw [hcall] at hr ⊢
  refine ⟨_, rfl, ?_, h.own rfl rfl hr hafter ?_ fun _ => ?_⟩
  · rw [hsent, List.self_eq_append_right, hleft, ← List.length_eq_zero_iff, hlength,
      List.length_eq_zero_iff, List.append_eq_nil_iff]
    constructor
    · intro hnil
      exact List.append_eq_nil_iff.mp (hnone hnil)
    · exact And.left
  · rw [Server.group_set]
    exact hdelivered.read ht.ascending hbound hreadable consumer hentries hdone hrest hhanded
  · rw [Server.find?_groups_set]
    rfl

theorem ack (h : Serving c reads tenant past s) (hreads : reads.Faithful s.server.numbered)
    {ids : List String} (hids : none ∉ ids.map reads) :
    ∃ n, (c.client.acknowledge tenant ids s).1 = .ok n ∧
      n = ((ids.map reads).dedup.filter fun id =>
        id ∈ (waiting reads tenant past).map fun w => reads w.1).length ∧
      Serving c reads tenant (past ++ [.ack tenant ids (.ok n)])
        (c.client.acknowledge tenant ids s).2 := by
  have hr : Server.Regrouped (c.tenantKey tenant) s.server
      (c.client.acknowledge tenant ids s).2.server := ack_regrouped c tenant ids s.line
  obtain ⟨t, ht, hdelivered, hknown⟩ := h.stream
  -- for no ids the server is not asked at all
  by_cases hempty : ids = []
  · subst hempty
    have hcall : c.client.acknowledge tenant [] s = (.ok 0, s) := by
      rw [Client.acknowledge, Client.onLine, Client.ack, if_pos rfl]
    rw [hcall]
    refine ⟨0, rfl, rfl, h.unchanged (accepted_concat_of_none rfl) rfl (.inl ?_) rfl rfl⟩
    exact if_pos rfl
  · have hreading : s.line.server.reads = reads := h.reading
    have hread : none ∉ ids.map s.line.server.reads := hreading ▸ hids
    obtain ⟨t', hgives, ht', hentries, hkept, hgroup⟩ := ack_gives (l := s.line) ht hempty hread
    obtain ⟨s', hcall, hserver⟩ := (onLine_gives (t := s) hgives).exists_eq
    rw [Client.acknowledge] at hr ⊢
    rw [hcall] at hr ⊢
    rw [hreading] at hgroup ⊢
    refine ⟨_, rfl, ?_, h.own rfl rfl hr (hserver ▸ ht') ?_ ?_⟩
    · rw [hdelivered.waiting_reads hreads, count_acked hdelivered.nodup_numbers]
    · rw [hentries, hgroup]
      exact hdelivered.ack hreads ids _
    · have hgroups : s'.groups = s.groups := congrArg (fun r => r.2.groups) hcall.symm
      rw [hgroups]
      exact fun hmem => hkept (hknown hmem)

theorem ack_unread (h : Serving c reads tenant past s) {ids : List String}
    (hids : none ∈ ids.map reads) :
    ((c.client.acknowledge tenant ids s).1 = .ok 0 ∧ waiting reads tenant past = [] ∨
      ∃ text, (c.client.acknowledge tenant ids s).1 = .error (.ack text)) ∧
      Serving c reads tenant (past ++ [.ack tenant ids (c.client.acknowledge tenant ids s).1])
        (c.client.acknowledge tenant ids s).2 := by
  obtain ⟨t, ht, hdelivered, -⟩ := h.stream
  have hread : none ∈ ids.map s.line.server.reads := h.reading.symm ▸ hids
  obtain ⟨hserver, hanswer⟩ := StreamStore.ack_unread (l := s.line) ht hread
  change (c.client.acknowledge tenant ids s).2.server = s.server at hserver
  change (c.client.acknowledge tenant ids s).1 = .ok 0 ∧ _ ∨
    ∃ text, (c.client.acknowledge tenant ids s).1 = .error (.ack text) at hanswer
  rcases hanswer with ⟨hzero, hnone⟩ | ⟨text, hfailed⟩
  · have hwaiting : waiting reads tenant past = [] := by
      rw [hdelivered.waits, hnone, List.map_nil]
    rw [hzero]
    exact ⟨.inl ⟨rfl, hwaiting⟩,
      h.unchanged (accepted_concat_of_none rfl) rfl (.inr hwaiting) hserver rfl⟩
  · rw [hfailed]
    exact ⟨.inr ⟨text, rfl⟩, h.unchanged (accepted_concat_of_none rfl) rfl (.inl rfl) hserver rfl⟩

theorem perform (h : Serving c reads tenant past s) (hreads : reads.Faithful s.server.numbered)
    (ht : Plain tenant) {op : Op}
    (hread : ∀ m, op = .append m → m.concerns tenant = true → m.reread.isSome = true) :
    Serving c reads tenant (past ++ [(perform c.client s op).1]) (perform c.client s op).2 := by
  by_cases happend : ∃ m, op = .append m
  · obtain ⟨m, rfl⟩ := happend
    exact (h.append ht (hread m rfl)).2
  · obtain ⟨other, hnames, hquiet, hr, hgroups⟩ :=
      perform_regrouped c s fun m hm => happend ⟨m, hm⟩
    by_cases hother : other = tenant
    · have hown := (hnames tenant).mpr hother
      cases op with
      | append m => exact absurd ⟨m, rfl⟩ happend
      | join t =>
          obtain rfl : t = tenant := hown
          obtain ⟨hanswer, hserving⟩ := h.join
          rw [Delivery.perform, hanswer]
          exact hserving
      | read t consumer =>
          obtain rfl : t = tenant := hown
          obtain ⟨readings, hanswer, -, hserving⟩ := h.read consumer
          rw [Delivery.perform, hanswer]
          exact hserving
      | ack t ids =>
          obtain rfl : t = tenant := hown
          by_cases hids : none ∈ ids.map reads
          · exact (h.ack_unread hids).2
          · obtain ⟨n, hanswer, -, hserving⟩ := h.ack hreads hids
            rw [Delivery.perform, hanswer]
            exact hserving
      | pending t count =>
          obtain rfl : t = tenant := hown
          obtain ⟨handouts, hanswer, -, hserving⟩ := h.pending count
          rw [Delivery.perform, hanswer]
          exact hserving
    · exact h.elsewhere hother hnames hquiet hr hgroups

theorem run (h : Serving c reads tenant past s) {ops : List Op}
    (hreads : reads.Faithful (run c.client s ops).2.server.numbered) (ht : Plain tenant)
    (hread : ∀ m, .append m ∈ ops → m.concerns tenant = true → m.reread.isSome = true) :
    Serving c reads tenant (past ++ (run c.client s ops).1) (run c.client s ops).2 := by
  induction ops generalizing past s with
  | nil =>
      rw [Delivery.run, List.append_nil]
      exact h
  | cons op ops ih =>
      have hfirst : Serving c reads tenant (past ++ [(Delivery.perform c.client s op).1])
          (Delivery.perform c.client s op).2 :=
        h.perform (hreads.mono (run_numbered c s (op :: ops))) ht fun m hm =>
          hread m (hm ▸ List.mem_cons_self)
      have hrest := ih hfirst hreads fun m hm => hread m (List.mem_cons_of_mem op hm)
      rwa [List.append_assoc, List.singleton_append] at hrest

theorem start (c : Config) (reads : IdReader) (tenant : String) (faults : φ) :
    Serving c reads tenant [] (Session.new c (.reading reads) faults) := by
  have hindex : Indexed c [] (Server.reading reads) := (filled_empty c).messages
  have hdelivered : Delivered reads tenant [] 0 [] ⟨0, []⟩ := by
    refine ⟨rfl, Nat.le_refl 0, ⟨[], [], rfl, ?_, ?_, rfl⟩, .nil, ?_, rfl⟩ <;>
      exact List.forall_mem_nil _
  refine ⟨.inl hindex, rfl, List.forall_mem_nil _, Stream.empty, Server.numbered_reading reads _,
    hdelivered, ?_⟩
  exact fun hmem => absurd hmem List.not_mem_nil

end Serving

/-- What the consumers of a tenant can count on after a history: they were handed what was sent
from its first message on and in its order, each entry once; whoever reads next gets nothing just
if nothing is left; and what is listed, and counted when it is acknowledged, is what was handed out
and not acknowledged since. An acknowledgement with an id that the server cannot read fails, where
anything waits for one. -/
structure Accounted (c : Config) (reads : IdReader) (tenant : String) (past : List Event)
    (s : Session φ) : Prop where
  front : (handed tenant past).map (fun h => h.1.message) <+:
    (sent tenant past).filterMap Message.reread
  once : ∃ numbers : List Nat, numbers.Pairwise (· < ·) ∧
    (handed tenant past).map (fun h => h.1.entry) = numbers.map entryId
  waits : (waiting reads tenant past).Sublist ((handed tenant past).map fun h => (h.1.entry, h.2))
  store : (∀ e ∈ past, ¬ e.Names "messages") → ∀ m, (c.client.store m s).1 = .ok ()
  join : (c.client.joinGroup tenant s).1 = .ok ()
  read : ∀ consumer, ∃ readings, (c.client.consume tenant consumer s).1 = .ok readings ∧
    (readings = [] ↔ (handed tenant past).map (fun h => h.1.message) =
      (sent tenant past).filterMap Message.reread)
  ack : ∀ ids, (∀ id ∈ ids, reads id ≠ none) → (c.client.acknowledge tenant ids s).1 =
    .ok ((ids.map reads).dedup.filter fun id =>
      id ∈ (waiting reads tenant past).map fun w => reads w.1).length
  refused : ∀ ids, ∀ id ∈ ids, reads id = none →
    (c.client.acknowledge tenant ids s).1 = .ok 0 ∧ waiting reads tenant past = [] ∨
      ∃ text, (c.client.acknowledge tenant ids s).1 = .error (.ack text)
  pending : ∀ count, ∃ handouts, (c.client.unacknowledged tenant count s).1 = .ok handouts ∧
    handouts.map (fun h => (h.id, h.consumer)) = (waiting reads tenant past).take count

end Parley.StreamStore.Delivery
