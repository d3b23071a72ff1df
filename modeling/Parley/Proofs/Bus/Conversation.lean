import Parley.Proofs.Bus.Interleaving

namespace Parley.Exchange

open MemoryLog (backend undecided)

def idsWith (l : MemoryLog) (sends : List Sending) : List String :=
  l.log.map Message.id ++ sends.flatMap Sending.ids

/-- The ids that a call brings occur once among those of a log and of the calls. -/
def Own (l : MemoryLog) (sends : List Sending) (s : Sending) : Prop :=
  ∀ id ∈ s.ids, (idsWith l sends).count id = 1

/-- A message that one may hold who takes part in a conversation. It is the first message; or a
reply to one that is held; or what a call makes of a held message that it sends, which it returns
and hands out, and what it makes to follow that; or a copy of one of these that the log has had at
any time, as it is read back. -/
inductive Held (bus : Bus MemoryLog) (moves : List Move) (first : Message) : Message → Prop
  | first : Held bus moves first first
  | reply (m parent : Message) (h : Held bus moves first parent) :
      Held bus moves first (m.inReplyTo parent)
  | made (s : Sending) (r : Message) (follower : Option Message) (n : Message)
      (hs : s ∈ (run backend (on bus) moves).sends) (h : Held bus moves first s.message)
      (hr : s.stage.made? = some (r, follower)) (hn : n ∈ r :: follower.toList) :
      Held bus moves first n
  | copy (s : Sending) (before : List Move) (n : Message)
      (hs : s ∈ (run backend (on bus) moves).sends) (h : Held bus moves first s.message)
      (hbefore : before <+: moves) (hn : n ∈ (run backend (on bus) before).bus.store.log)
      (hid : n.id ∈ s.ids) : Held bus moves first n

variable {bus : Bus MemoryLog} {l : MemoryLog} {settings : Settings} {y : Exchange MemoryLog}
  {sends : List Sending} {moves before : List Move} {first m n r : Message}
  {follower : Option Message} {s t : Sending} {parts : List (Sending × List Message)} {id : String}

theorem apart_of_count {before after : List Sending} (hid : id ∈ s.ids)
    (h : (idsWith l (before ++ s :: after)).count id = 1) :
    (∀ n ∈ l.log, n.id ≠ id) ∧ (∀ t ∈ before ++ after, id ∉ t.ids) ∧ s.ids.count id = 1 := by
  have hpos : 0 < s.ids.count id := List.count_pos_iff.mpr hid
  simp only [idsWith, List.flatMap_append, List.flatMap_cons, List.count_append] at h
  have hold : (l.log.map Message.id).count id = 0 := by omega
  have hbefore : (before.flatMap Sending.ids).count id = 0 := by omega
  have hafter : (after.flatMap Sending.ids).count id = 0 := by omega
  rw [List.count_eq_zero] at hold hbefore hafter
  refine ⟨?_, ?_, by omega⟩
  · rintro n hn rfl
    exact hold (List.mem_map_of_mem hn)
  · intro t ht hmem
    rcases List.mem_append.mp ht with ht | ht
    · exact hbefore (List.mem_flatMap.mpr ⟨t, ht, hmem⟩)
    · exact hafter (List.mem_flatMap.mpr ⟨t, ht, hmem⟩)

theorem Own.unused (h : Own l sends s) (hs : s ∈ sends) (hid : id ∈ s.ids) :
    ∀ n ∈ l.log, n.id ≠ id := by
  obtain ⟨before, after, rfl⟩ := List.append_of_mem hs
  exact (apart_of_count hid (h id hid)).1

theorem Own.eq (h : Own l sends s) (hs : s ∈ sends) (ht : t ∈ sends) (hid : id ∈ s.ids)
    (hid' : id ∈ t.ids) : t = s := by
  obtain ⟨before, after, rfl⟩ := List.append_of_mem hs
  rcases mem_middle.mp ht with ht | ht
  · exact ht
  · exact absurd hid' ((apart_of_count hid (h id hid)).2.1 t ht)

theorem Own.ne (h : Own l sends s) (hs : s ∈ sends) : s.message.id ≠ s.fresh.messageId := by
  intro heq
  obtain ⟨before, after, rfl⟩ := List.append_of_mem hs
  have hcount := (apart_of_count List.mem_cons_self (h _ List.mem_cons_self)).2.2
  simp [Sending.ids, ← heq] at hcount

theorem own_of_nodup (h : (idsWith l sends).Nodup) (hs : s ∈ sends) : Own l sends s := by
  intro id hid
  have hmem : id ∈ sends.flatMap Sending.ids := List.mem_flatMap.mpr ⟨s, hs, hid⟩
  exact List.count_eq_one_of_mem h (List.mem_append_right _ hmem)

theorem idsWith_eq (l : MemoryLog) (sends : List Sending) :
    idsWith l sends = l.log.map Message.id ++
      (sends.map Sending.call).flatMap fun c => [c.1.id, c.2.messageId] := by
  rw [List.flatMap_map]
  rfl

theorem posted_of_log (h : bus.store.Sound) (hs : s ∈ (run backend (on bus) moves).sends)
    (hown : Own bus.store (run backend (on bus) moves).sends s) (hbefore : before <+: moves)
    (hn : n ∈ (run backend (on bus) before).bus.store.log) (hid : n.id ∈ s.ids) :
    undecided n ∈ s.stage.posted.map undecided := by
  have htracked := tracked_on h
  obtain ⟨after, rfl⟩ := hbefore
  -- It came from a call that is there to the end, and no other call brings its id.
  rcases (run_tracked htracked before).origin n hn with hold | ⟨t, ht, hposted⟩
  · obtain ⟨n', hn', heq⟩ := List.mem_map.mp hold
    exact absurd (MemoryLog.id_of_undecided heq) (hown.unused hs hid n' hn')
  · obtain ⟨p, hp, heq⟩ := List.mem_map.mp hposted
    obtain ⟨u, hu, hlater⟩ := run_later (run_tracked htracked before) after ht
    rw [← run_append] at hu
    have hpid : p.id ∈ t.ids := (run_tracked htracked before).mem_ids ht hp
    obtain rfl : u = s :=
      hown.eq hs hu hid (hlater.ids ▸ MemoryLog.id_of_undecided heq ▸ hpid)
    rw [← heq]
    exact List.mem_map_of_mem (hlater.posted hp)

/-- Whatever one holds of a conversation is in the thread of its first message. -/
theorem Held.threadId_eq (h : bus.store.Sound)
    (hown : ∀ s ∈ (run backend (on bus) moves).sends, Held bus moves first s.message →
      Own bus.store (run backend (on bus) moves).sends s)
    (hm : Held bus moves first m) : m.threadId = first.threadId := by
  have htracked := run_tracked (tracked_on h) moves
  -- By induction on how the message is held: a reply takes the thread of its parent, a call keeps
  -- that of its message, and a copy is what a call has posted, but for a decision.
  induction hm with
  | first => rfl
  | reply m parent _ ih => exact ih
  | made s r follower n hs _ hr hn ih =>
      obtain ⟨thread, hfinal⟩ := htracked.finalized s hs r follower hr
      exact (hfinal.threadId_eq hn).trans ih
  | copy s before n hs hheld hbefore hn hid ih =>
      obtain ⟨p, hp, heq⟩ :=
        List.mem_map.mp (posted_of_log h hs (hown s hs hheld) hbefore hn hid)
      obtain ⟨r, follower, hr, hmem⟩ := Sending.made?_of_posted hp
      obtain ⟨thread, hfinal⟩ := htracked.finalized s hs r follower hr
      rw [← MemoryLog.threadId_undecided, ← heq, MemoryLog.threadId_undecided]
      exact (hfinal.threadId_eq hmem).trans ih

theorem stored_of_done (h : bus.store.Sound) (hy : run backend (on bus) moves = y)
    (hown : Own bus.store y.sends s) (hs : s ∈ y.sends) (hdone : s.stage = .done r follower)
    (hn : n ∈ r :: follower.toList) : ∃ p ∈ y.bus.store.log, undecided p = undecided n := by
  subst hy
  have htracked := run_tracked (tracked_on h) moves
  have hn' : n ∈ s.stage.posted := by rw [hdone]; exact hn
  obtain ⟨thread, hfinal⟩ := htracked.finalized s hs r follower (by rw [hdone]; rfl)
  have hheld := htracked.held s hs n hn'
  obtain ⟨p, hp, hpid⟩ := List.any_eq_true.mp hheld
  rw [decide_eq_true_eq] at hpid
  have hid : p.id ∈ s.ids := hpid ▸ htracked.mem_ids hs hn'
  obtain ⟨q, hq, heq⟩ :=
    List.mem_map.mp (posted_of_log h hs hown List.prefix_rfl hp hid)
  rw [hdone] at hq
  have hqn : q = n :=
    List.inj_on_of_nodup_map (hfinal.ids_nodup (hown.ne hs)) hq hn
      ((MemoryLog.id_of_undecided heq).trans hpid)
  exact ⟨p, hp, hqn ▸ heq.symm⟩

theorem InParts.mem_part (htracked : Tracked l settings y) (hparts : InParts l y parts)
    {part : List Message} (hp : (s, part) ∈ parts) (hown : Own l y.sends s)
    (hn : n ∈ y.bus.store.log) (hid : n.id ∈ s.ids) : undecided n ∈ part := by
  obtain ⟨before, after, rfl⟩ := List.append_of_mem hp
  have hsends : before.map Prod.fst ++ s :: after.map Prod.fst = y.sends := by
    rw [← hparts.sends, List.map_append, List.map_cons]
  obtain ⟨hold, hothers, -⟩ := apart_of_count hid (hsends.symm ▸ hown n.id hid)
  have hlog : undecided n ∈ y.bus.store.log.map undecided := List.mem_map_of_mem hn
  rw [hparts.log, List.mem_append, List.mem_flatMap] at hlog
  rcases hlog with hlog | ⟨⟨t, other⟩, ht, hmem⟩
  · obtain ⟨q, hq, heq⟩ := List.mem_map.mp hlog
    exact absurd (MemoryLog.id_of_undecided heq) (hold q hq)
  · rcases mem_middle.mp ht with heq | hother
    · cases heq
      exact hmem
    · obtain ⟨q, hq, heq⟩ := List.mem_map.mp ((hparts.within _ ht).subset hmem)
      have ht' : t ∈ y.sends := hparts.sends ▸ List.mem_map_of_mem ht
      refine absurd (htracked.mem_ids ht' hq) ?_
      rw [MemoryLog.id_of_undecided heq]
      exact hothers t (List.map_append ▸ List.mem_map_of_mem hother)

theorem InParts.part_eq (h : bus.store.Sound) (hy : run backend (on bus) moves = y)
    (hparts : InParts bus.store y parts) {part : List Message} (hp : (s, part) ∈ parts)
    (hown : Own bus.store y.sends s) (hdone : s.stage = .done r follower) :
    part = (r :: follower.toList).map undecided := by
  have htracked : Tracked bus.store bus.settings y := hy ▸ run_tracked (tracked_on h) moves
  have hs : s ∈ y.sends := hparts.sends ▸ List.mem_map_of_mem hp
  have hposted : s.stage.posted = r :: follower.toList := by rw [hdone]; rfl
  have hsub : part.Sublist ((r :: follower.toList).map undecided) :=
    hposted ▸ hparts.within (s, part) hp
  have hmem : ∀ n ∈ r :: follower.toList, undecided n ∈ part := by
    intro n hn
    obtain ⟨p, hlog, heq⟩ := stored_of_done h hy hown hs hdone hn
    rw [← heq]
    refine hparts.mem_part htracked hp hown hlog ?_
    rw [MemoryLog.id_of_undecided heq]
    exact htracked.mem_ids hs (hposted ▸ hn)
  -- The part has each of the messages, and as a sublist of them it has none twice.
  obtain ⟨thread, hfinal⟩ := htracked.finalized s hs r follower (by rw [hdone]; rfl)
  have hnodup : ((r :: follower.toList).map undecided).Nodup := by
    refine List.Nodup.of_map Message.id ?_
    rw [List.map_map]
    exact hfinal.ids_nodup (hown.ne hs)
  exact hsub.eq_of_length_le (hnodup.subperm (List.forall_mem_map.mpr hmem)).length_le

/-- A conversation, in which each call sends a message that one may hold, is in the thread of its
first message. What each call has stored is there once, and if the calls begin in turn, then it is
there in their order, each message with what follows it. -/
theorem conversation_in_thread (bus : Bus MemoryLog) (moves : List Move) (first : Message)
    (y : Exchange MemoryLog) (h : bus.store.Sound) (hy : run backend (on bus) moves = y)
    (hown : ∀ s ∈ y.sends, Held bus moves first s.message → Own bus.store y.sends s) :
    ∃ thread, y.bus.thread backend first.threadId = (.ok thread, y.bus) ∧
      (∀ s ∈ y.sends, ∀ r follower, Held bus moves first s.message → s.stage = .done r follower →
        (∃ rated, Bus.Finalized bus.settings s.fresh rated s.message r follower) ∧
        ∀ n ∈ r :: follower.toList,
          (thread.filter fun p => p.id = n.id).map undecided = [undecided n]) ∧
      (InTurn backend (on bus) moves → ∃ parts : List (Sending × List Message),
        parts.map Prod.fst = y.sends ∧
        thread.map undecided =
          (bus.store.thread first.threadId).map undecided ++ parts.flatMap Prod.snd ∧
        ∀ p ∈ parts, ∀ r follower, Held bus moves first p.1.message →
          p.1.stage = .done r follower → p.2 = (r :: follower.toList).map undecided) := by
  have htracked : Tracked bus.store bus.settings y := hy ▸ run_tracked (tracked_on h) moves
  have hthread {s : Sending} {r : Message} {follower : Option Message} {n : Message}
      (hs : s ∈ y.sends) (hheld : Held bus moves first s.message)
      (hdone : s.stage = .done r follower) (hn : n ∈ r :: follower.toList) :
      n.threadId = first.threadId := by
    subst hy
    exact Held.threadId_eq h hown (.made s r follower n hs hheld (by rw [hdone]; rfl) hn)
  refine ⟨y.bus.store.thread first.threadId, Bus.thread_memory _ _, ?_, ?_⟩
  · intro s hs r follower hheld hdone
    refine ⟨htracked.finalized s hs r follower (by rw [hdone]; rfl), fun n hn => ?_⟩
    obtain ⟨p, hp, heq⟩ := stored_of_done h hy (hown s hs hheld) hs hdone hn
    have hp' : p.threadId = first.threadId := by
      rw [← MemoryLog.threadId_undecided, heq, MemoryLog.threadId_undecided]
      exact hthread hs hheld hdone hn
    rw [← hp', ← MemoryLog.id_of_undecided heq, MemoryLog.thread_filter_id htracked.sound hp,
      List.map_singleton, heq]
  · intro hturn
    obtain ⟨parts, hparts⟩ := inParts_run (tracked_on h) (inParts_on bus) hturn
    rw [hy] at hparts
    refine ⟨parts.map (Prod.map id (List.filter fun n => n.threadId = first.threadId)), ?_, ?_, ?_⟩
    · rw [← hparts.sends, List.map_map]
      rfl
    · rw [MemoryLog.map_undecided_thread htracked.sound, MemoryLog.map_undecided_thread h,
        hparts.log, List.filter_append, List.filter_flatMap, List.flatMap_map]
      rfl
    · rw [List.forall_mem_map]
      rintro ⟨s, part⟩ hp r follower hheld hdone
      have hs : s ∈ y.sends := hparts.sends ▸ List.mem_map_of_mem hp
      obtain rfl := hparts.part_eq h hy hp (hown s hs hheld) hdone
      refine List.filter_eq_self.mpr (List.forall_mem_map.mpr fun n hn => decide_eq_true ?_)
      exact (MemoryLog.threadId_undecided n).trans (hthread hs hheld hdone hn)

def answerToHuman : Message :=
  { Message.new "r" ⟨1, 0, 0⟩ "auditee" "auditor" "agent" .answer "So." with
    parent := some "e", thread := some "q" }

def unsureTalk : List Move :=
  alone 0 Bus.someFresh Bus.unsureQuestion ++
    alone 1 { Bus.someFresh with messageId := "f" } answerToHuman

theorem conversation_in_thread_unsure :
    let bus := Bus.new .standard MemoryLog.empty none
    let y := run backend (on bus) unsureTalk
    bus.store.Sound ∧ (∀ s ∈ y.sends, Own bus.store y.sends s) ∧
    (∀ s ∈ y.sends, Held bus unsureTalk Bus.unsureQuestion s.message) ∧
    InTurn backend (on bus) unsureTalk ∧
    ∃ thread, ∃ parts : List (Sending × List Message),
      y.bus.thread backend "q" = (.ok thread, y.bus) ∧
      parts.map Prod.fst = y.sends ∧ thread.map undecided = parts.flatMap Prod.snd ∧
      thread.map Message.id = ["q", "e", "r"] := by
  intro bus y
  have hcalls : y.sends.map Sending.call =
      [(Bus.unsureQuestion, Bus.someFresh),
        (answerToHuman, { Bus.someFresh with messageId := "f" })] :=
    run_begun backend (on bus) unsureTalk
  have hown : ∀ s ∈ y.sends, Own bus.store y.sends s := by
    refine fun s => own_of_nodup ?_
    rw [idsWith_eq, hcalls]
    decide
  obtain ⟨stage, hfirst, hresult⟩ := run_alone backend (on bus) Bus.someFresh Bus.unsureQuestion
  change run backend (on bus) (alone 0 _ _) = ⟨_, [_]⟩ at hfirst
  have hturn : InTurn backend (on bus) unsureTalk := by
    rw [unsureTalk, inTurn_append, hfirst]
    refine ⟨inTurn_alone (x := on bus) (List.forall_mem_nil _) _ _, ?_⟩
    refine inTurn_alone (x := ⟨_, [_]⟩) ?_ _ _
    rw [List.forall_mem_singleton]
    exact settled_of_result? (by rw [hresult]; rfl)
  have hheld : ∀ c ∈ y.sends.map Sending.call, Held bus unsureTalk Bus.unsureQuestion c.1 := by
    obtain ⟨first, hmem, hcall⟩ := List.mem_map.mp (hcalls ▸ List.mem_cons_self)
    have hmessage : first.message = Bus.unsureQuestion := congrArg Prod.fst hcall
    have hfresh : first.fresh = Bus.someFresh := congrArg Prod.snd hcall
    rw [hcalls, List.forall_mem_cons, List.forall_mem_singleton]
    refine ⟨.first, ?_⟩
    obtain ⟨e, he, hid, hthread⟩ : ∃ e ∈ (run backend (on bus) (unsureTalk.take 5)).bus.store.log,
        e.id = "e" ∧ e.threadId = "q" := by decide +kernel
    have hreply : answerToHuman.inReplyTo e = answerToHuman := by
      rw [Message.inReplyTo, hid, hthread]
      rfl
    rw [← hreply]
    refine .reply _ _ (.copy first _ e hmem (hmessage ▸ .first) (List.take_prefix 5 _) he ?_)
    rw [Sending.ids, hfresh, hid]
    exact List.mem_cons_of_mem _ (List.mem_singleton_self _)
  refine ⟨MemoryLog.empty_sound, hown, fun s hs => hheld _ (List.mem_map_of_mem hs), hturn, ?_⟩
  obtain ⟨thread, hthread, -, hparts⟩ :=
    conversation_in_thread bus unsureTalk Bus.unsureQuestion y MemoryLog.empty_sound rfl
      fun s hs _ => hown s hs
  obtain ⟨parts, hsends, hlog, -⟩ := hparts hturn
  refine ⟨thread, parts, hthread, hsends, hlog, ?_⟩
  obtain ⟨hstore, -⟩ := Prod.mk.inj ((Bus.thread_memory y.bus "q").symm.trans hthread)
  rw [← Except.ok.inj hstore]
  decide +kernel

end Parley.Exchange
