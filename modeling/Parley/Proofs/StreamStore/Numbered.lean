import Parley.Proofs.StreamStore.Filled

namespace Parley.StreamStore

namespace IdReader

/-- The ids that the server gives to its first entries are read as the numbers of these. -/
def Faithful (reads : IdReader) (numbered : Nat) : Prop :=
  ∀ n ≤ numbered, reads (entryId n) = some (n, 0)

variable {reads : IdReader}

theorem Faithful.mono {numbered numbered' : Nat} (h : reads.Faithful numbered')
    (hle : numbered ≤ numbered') : reads.Faithful numbered :=
  fun n hn => h n (hn.trans hle)

end IdReader

/-- The group of a name, as it is or as it would be made. -/
def Stream.group (t : Stream) (name : String) : Group := (t.groups.find? name).getD ⟨0, []⟩

/-- A group hands out what it has not reached from its front, and nothing just if it has reached
everything. -/
theorem Group.unread_split {g : Group} {t : Stream} {reached rest : List Entry}
    (h : t.entries = reached ++ rest) (hreached : ∀ e ∈ reached, e.number ≤ g.reached)
    (hrest : ∀ e ∈ rest, g.reached < e.number) (count : Nat) :
    ∃ later, rest = Server.Group.unread g t count ++ later ∧
      (Server.Group.unread g t count = [] → rest = []) := by
  have hfresh : t.entries.filter (fun e => g.reached < e.number) = rest := by
    rw [h, List.filter_append, List.filter_eq_nil_iff.mpr, List.filter_eq_self.mpr, List.nil_append]
    · intro e he
      exact decide_eq_true (hrest e he)
    · intro e he
      rw [decide_eq_true_eq, not_lt]
      exact hreached e he
  rw [Server.Group.unread, hfresh]
  by_cases hcount : count = 0
  · rw [if_pos hcount]
    exact ⟨[], (List.append_nil rest).symm, id⟩
  · rw [if_neg hcount]
    refine ⟨rest.drop count, (List.take_append_drop count rest).symm, ?_⟩
    rw [List.take_eq_nil_iff]
    exact fun hnone => hnone.resolve_left hcount

theorem Group.reached_handOut {g : Group} {batch later : List Entry}
    (hascending : (batch ++ later).Pairwise fun e e' => e.number < e'.number)
    (hrest : ∀ e ∈ batch ++ later, g.reached < e.number) (consumer : String) :
    g.reached ≤ (Server.Group.handOut g consumer batch).reached ∧
      (∀ e ∈ batch, e.number ≤ (Server.Group.handOut g consumer batch).reached) ∧
      (∀ e ∈ later, (Server.Group.handOut g consumer batch).reached < e.number) ∧
      ((Server.Group.handOut g consumer batch).reached = g.reached ∨
        ∃ e ∈ batch, e.number = (Server.Group.handOut g consumer batch).reached) := by
  rcases List.eq_nil_or_concat' batch with rfl | ⟨front, last, rfl⟩
  · exact ⟨Nat.le_refl _, List.forall_mem_nil _, hrest, .inl rfl⟩
  · have hlast : (Server.Group.handOut g consumer (front ++ [last])).reached = last.number := by
      rw [Server.Group.handOut, List.getLast?_concat]
      rfl
    rw [List.pairwise_append, List.pairwise_append] at hascending
    obtain ⟨⟨-, -, hfront⟩, -, hlater⟩ := hascending
    rw [hlast]
    refine ⟨?_, ?_, ?_, .inr ⟨last, by simp, rfl⟩⟩
    · exact Nat.le_of_lt (hrest last (by simp))
    · rw [List.forall_mem_append, List.forall_mem_singleton]
      exact ⟨fun e he => Nat.le_of_lt (hfront e he last (List.mem_singleton_self _)), Nat.le_refl _⟩
    · exact fun e he => hlater last (by simp) e he

namespace Server

/-- A server has a stream under a key, with its entries in the order of their numbers. -/
structure Numbered (s : Server) (key : String) (t : Stream) : Prop where
  held : s.streamAt key = .ok t
  ascending : t.entries.Pairwise fun e e' => e.number < e'.number
  bound : ∀ e ∈ t.entries, e.number ≤ s.numbered

variable {s s' s'' : Server} {key k : String} {t : Stream}

theorem numbered_reading (reads : IdReader) (key : String) :
    Numbered (Server.reading reads) key Stream.empty :=
  ⟨rfl, .nil, List.forall_mem_nil _⟩

theorem Numbered.add_self (h : Numbered s key t) (fields : List (String × String)) :
    Numbered (s.add key fields).2 key
      { t with entries := t.entries ++ [⟨s.numbered + 1, fields⟩] } := by
  rw [add, h.held]
  refine ⟨?_, ?_, ?_⟩
  · exact (streamAt_put_stream s key key _).trans (if_pos rfl)
  · rw [List.pairwise_append]
    refine ⟨h.ascending, List.pairwise_singleton _ _, ?_⟩
    intro e he e' he'
    obtain rfl := List.mem_singleton.mp he'
    exact Nat.lt_succ_of_le (h.bound e he)
  · rw [List.forall_mem_append, List.forall_mem_singleton]
    exact ⟨fun e he => Nat.le_succ_of_le (h.bound e he), Nat.le_refl _⟩

theorem Numbered.add_other (h : Numbered s key t) (hk : key ≠ k)
    (fields : List (String × String)) : Numbered (s.add k fields).2 key t := by
  rw [add]
  cases hother : s.streamAt k with
  | error e => exact h
  | ok t' =>
      exact ⟨((streamAt_put_stream s k key _).trans (if_neg hk)).trans h.held, h.ascending,
        fun e he => Nat.le_succ_of_le (h.bound e he)⟩

theorem numbered_add (s : Server) (key : String) (fields : List (String × String)) :
    s.numbered ≤ (s.add key fields).2.numbered := by
  rw [add]
  cases s.streamAt key with
  | error e => exact Nat.le_refl _
  | ok t => exact Nat.le_succ _

theorem Numbered.additions (h : Numbered s key t) (fields : List (String × String))
    (keys : List String) :
    ∃ new, Numbered (s.transaction (additions fields keys)).2 key
        { t with entries := t.entries ++ new } ∧
      new.map Entry.fields = List.replicate (keys.count key) fields ∧
      (∀ e ∈ new, s.numbered < e.number) ∧
      s.numbered ≤ (s.transaction (additions fields keys)).2.numbered := by
  induction keys generalizing s t with
  | nil =>
      refine ⟨[], ?_, rfl, List.forall_mem_nil _, Nat.le_refl _⟩
      rw [List.append_nil]
      exact h
  | cons k keys ih =>
      have hle := numbered_add s k fields
      by_cases hk : key = k
      · subst hk
        obtain ⟨new, hnew, hfields, hnumber, hgrown⟩ := ih (h.add_self fields)
        refine ⟨⟨s.numbered + 1, fields⟩ :: new, ?_, ?_, ?_, hle.trans hgrown⟩
        · rwa [List.append_cons]
        · rw [List.map_cons, hfields, List.count_cons_self, List.replicate_succ]
        · rw [List.forall_mem_cons]
          exact ⟨Nat.lt_succ_self _, fun e he => hle.trans_lt (hnumber e he)⟩
      · obtain ⟨new, hnew, hfields, hnumber, hgrown⟩ := ih (h.add_other hk fields)
        refine ⟨new, hnew, ?_, fun e he => hle.trans_lt (hnumber e he), hle.trans hgrown⟩
        rw [hfields, List.count_cons_of_ne (Ne.symm hk)]

theorem numbered_set (s : Server) (key field value : String) :
    (s.set key field value).2.numbered = s.numbered := by
  rw [set]
  cases s.hashAt key <;> rfl

theorem transaction_reads (s : Server) (writes : List Write) :
    (s.transaction writes).2.reads = s.reads := by
  induction writes generalizing s with
  | nil => rfl
  | cons w writes ih =>
      refine (ih (s.write w).2).trans ?_
      cases w with
      | add key fields =>
          rw [write, add]
          cases s.streamAt key <;> rfl
      | set key field value =>
          rw [write, set]
          cases s.hashAt key <;> rfl

theorem numbered_transaction (s : Server) (writes : List Write) :
    s.numbered ≤ (s.transaction writes).2.numbered := by
  induction writes generalizing s with
  | nil => exact le_rfl
  | cons w writes ih =>
      refine le_trans ?_ (ih (s.write w).2)
      cases w with
      | add key fields => exact numbered_add s key fields
      | set key field value => exact (numbered_set s key field value).ge

theorem Numbered.set (h : Numbered s key t) (hk : key ≠ k) (field value : String) :
    Numbered (s.set k field value).2 key t := by
  refine ⟨?_, h.ascending, ?_⟩
  · rw [Server.set]
    cases s.hashAt k with
    | error e => exact h.held
    | ok h' => exact (streamAt_put_hash hk s _).trans h.held
  · rw [numbered_set]
    exact h.bound

/-- A server in which at most the groups of one stream are others. -/
structure Regrouped (key : String) (s s' : Server) : Prop where
  numbered : s'.numbered = s.numbered
  reads : s'.reads = s.reads
  others : ∀ k, k ≠ key → s'.contents.find? k = s.contents.find? k
  content : s'.contents.find? key = s.contents.find? key ∨
    ∃ t, s'.contents.find? key = some (.stream t)

theorem Regrouped.refl (key : String) (s : Server) : Regrouped key s s :=
  ⟨rfl, rfl, fun _ _ => rfl, .inl rfl⟩

theorem Regrouped.trans (h : Regrouped key s s') (h' : Regrouped key s' s'') :
    Regrouped key s s'' := by
  refine ⟨h'.numbered.trans h.numbered, h'.reads.trans h.reads,
    fun k hk => (h'.others k hk).trans (h.others k hk), ?_⟩
  rcases h'.content with heq | hstream
  · rw [heq]
    exact h.content
  · exact .inr hstream

theorem regrouped_put (s : Server) (key : String) (t : Stream) :
    Regrouped key s (s.put key (.stream t)) :=
  ⟨rfl, rfl, fun _ hk => (Table.find?_set ..).trans (if_neg hk),
    .inr ⟨t, (Table.find?_set ..).trans (if_pos rfl)⟩⟩

theorem Regrouped.streamAt (h : Regrouped key s s') (hk : k ≠ key) :
    s'.streamAt k = s.streamAt k := by
  rw [Server.streamAt, Server.streamAt, h.others k hk]

theorem Regrouped.numbered_other (h : Regrouped key s s') (hk : k ≠ key) (hn : Numbered s k t) :
    Numbered s' k t :=
  ⟨(h.streamAt hk).trans hn.held, hn.ascending, h.numbered ▸ hn.bound⟩

theorem Regrouped.valuesAt (h : Regrouped key s s') (hk : k ≠ key) :
    s'.valuesAt k = s.valuesAt k := by
  rw [Server.valuesAt, Server.valuesAt, hashAt, hashAt, h.others k hk]

theorem Regrouped.valuesAt_self (h : Regrouped key s s') :
    s'.valuesAt key = s.valuesAt key ∨ s'.valuesAt key = .error wrongType := by
  rw [Server.valuesAt, Server.valuesAt, hashAt, hashAt]
  rcases h.content with heq | ⟨t, ht⟩
  · rw [heq]
    exact .inl rfl
  · rw [ht]
    exact .inr rfl

theorem makeGroup_regrouped (key group : String) (s : Server) :
    Regrouped key s (makeGroup key group s).2 := by
  rw [makeGroup]
  cases s.streamAt key with
  | error e => exact .refl key s
  | ok t =>
      simp only
      cases t.groups.find? group with
      | none => exact regrouped_put s key _
      | some g => exact .refl key s

theorem readGroup_regrouped (key group consumer : String) (count : Nat) (s : Server) :
    Regrouped key s (readGroup key group consumer count s).2 := by
  rw [readGroup]
  cases s.groupAt key group with
  | error e => exact .refl key s
  | ok tg => exact regrouped_put s key _

theorem ack_regrouped (key group : String) (ids : List String) (s : Server) :
    Regrouped key s (ack key group ids s).2 := by
  rw [ack]
  cases s.streamAt key with
  | error e => exact .refl key s
  | ok t =>
      simp only
      cases t.groups.find? group with
      | none => exact .refl key s
      | some g =>
          simp only
          split
          · exact .refl key s
          · exact regrouped_put s key _

theorem Numbered.putGroup (h : Numbered s key t) (name : String) (g : Group) :
    Numbered (s.putGroup key name t g) key { t with groups := t.groups.set name g } :=
  ⟨(streamAt_put_stream s key key _).trans (if_pos rfl), h.ascending, h.bound⟩

theorem find?_groups_set (t : Stream) (name : String) (g : Group) :
    (t.groups.set name g).find? name = some g :=
  (Table.find?_set ..).trans (if_pos rfl)

theorem group_set (t : Stream) (name : String) (g : Group) :
    ({ t with groups := t.groups.set name g } : Stream).group name = g := by
  rw [Stream.group, find?_groups_set, Option.getD_some]

theorem Numbered.makeGroup (h : Numbered s key t) (name : String) :
    ∃ t', Numbered (s.makeGroup key name).2 key t' ∧ t'.entries = t.entries ∧
      t'.groups.find? name = some (t.group name) ∧
      ((s.makeGroup key name).1 = .ok () ∨ (s.makeGroup key name).1 = .error groupExists) := by
  rw [Server.makeGroup, h.held]
  simp only
  cases hg : t.groups.find? name with
  | some g =>
      refine ⟨t, h, rfl, ?_, .inr rfl⟩
      rw [hg, Stream.group, hg, Option.getD_some]
  | none =>
      refine ⟨_, h.putGroup name ⟨0, []⟩, rfl, ?_, .inl rfl⟩
      rw [find?_groups_set, Stream.group, hg, Option.getD_none]

theorem Numbered.groupAt {name : String} (h : Numbered s key t)
    (hg : t.groups.find? name = some (t.group name)) :
    s.groupAt key name = .ok (t, t.group name) := by
  rw [Server.groupAt, h.held]
  simp only [hg]

theorem Numbered.readGroup {name : String} (h : Numbered s key t)
    (hg : t.groups.find? name = some (t.group name)) (consumer : String) (count : Nat) :
    s.readGroup key name consumer count = (.ok (Group.unread (t.group name) t count),
      s.putGroup key name t
        (Group.handOut (t.group name) consumer (Group.unread (t.group name) t count))) := by
  rw [Server.readGroup, h.groupAt hg]

theorem Numbered.pending {name : String} (h : Numbered s key t)
    (hg : t.groups.find? name = some (t.group name)) (count : Nat) :
    s.pending key name count = .ok ((t.group name).pending.take count) := by
  rw [Server.pending, h.groupAt hg]
  rfl

/-- Where there is no group nothing is acknowledged, as if it were there and had nothing to wait
for. -/
theorem Numbered.ack (h : Numbered s key t) (name : String) {ids : List String}
    (hids : none ∉ ids.map s.reads) :
    ∃ t', Numbered (s.ack key name ids).2 key t' ∧ t'.entries = t.entries ∧
      ((t.groups.find? name).isSome → (t'.groups.find? name).isSome) ∧
      t'.group name = { t.group name with
        pending := (t.group name).pending.filter fun h => some (h.number, 0) ∉ ids.map s.reads } ∧
      (s.ack key name ids).1 = .ok ((t.group name).pending.length -
        ((t.group name).pending.filter fun h => some (h.number, 0) ∉ ids.map s.reads).length) := by
  rw [Server.ack, h.held]
  simp only [Stream.group]
  cases hg : t.groups.find? name with
  | none =>
      refine ⟨t, h, rfl, fun hsome => absurd hsome Bool.false_ne_true, ?_, rfl⟩
      rw [hg]
      rfl
  | some g =>
      simp only [if_neg hids]
      refine ⟨_, h.putGroup name _, rfl, fun _ => ?_, ?_, rfl⟩
      · rw [find?_groups_set]
        rfl
      · rw [find?_groups_set]
        rfl

theorem Numbered.ack_unread (h : Numbered s key t) (name : String) {ids : List String}
    (hids : none ∈ ids.map s.reads) : (s.ack key name ids).2 = s ∧
      ((s.ack key name ids).1 = .ok 0 ∧ (t.group name).pending = [] ∨
        (s.ack key name ids).1 = .error invalidId) := by
  cases hg : t.groups.find? name with
  | none =>
      have hnone : s.ack key name ids = (.ok 0, s) := by
        rw [Server.ack, h.held]
        simp only [hg]
      rw [hnone, Stream.group, hg]
      exact ⟨rfl, .inl ⟨rfl, rfl⟩⟩
  | some g =>
      have hrefused : s.ack key name ids = (.error invalidId, s) := by
        rw [Server.ack, h.held]
        simp only [hg, if_pos hids]
      rw [hrefused]
      exact ⟨rfl, .inr rfl⟩

theorem add_valuesAt_or (s : Server) (key k : String) (fields : List (String × String)) :
    (s.add key fields).2.valuesAt k = s.valuesAt k ∨
      (s.add key fields).2.valuesAt k = .error wrongType := by
  by_cases hk : k = key
  · subst hk
    rw [add]
    cases s.streamAt k with
    | error e => exact .inl rfl
    | ok t =>
        right
        simp only [Server.valuesAt, hashAt, put, Table.find?_set, if_true]
        rfl
  · exact .inl (add_valuesAt hk s fields)

theorem additions_valuesAt_or (s : Server) (keys : List String) (k : String)
    (fields : List (String × String)) :
    (s.transaction (additions fields keys)).2.valuesAt k = s.valuesAt k ∨
      (s.transaction (additions fields keys)).2.valuesAt k = .error wrongType := by
  induction keys generalizing s with
  | nil => exact .inl rfl
  | cons key keys ih =>
      rcases ih (s.add key fields).2 with hrest | hrest
      · rcases add_valuesAt_or s key k fields with hadd | hadd
        · exact .inl (hrest.trans hadd)
        · exact .inr (hrest.trans hadd)
      · exact .inr hrest

end Server

end Parley.StreamStore
