import Parley.Proofs.Message.Reread
import Parley.Proofs.StreamStore.Keys
import Parley.Proofs.StreamStore.Server

namespace Parley.StreamStore

def payload (m : Message) : List (String × String) := [(payloadField, encodeText m)]

def Indexed (c : Config) (log : List Message) (s : Server) : Prop :=
  s.valuesAt c.messagesKey = .ok fun id => (log.find? fun m => m.id = id).map encodeText

/-- A server with the messages of a log in their streams and by their ids, and with decisions. -/
structure Filled (c : Config) (log : List Message) (verdict : String → Option Approval)
    (s : Server) : Prop where
  streams : ∀ key, c.IsStream key → s.fieldsAt key =
    .ok (log.flatMap fun m => List.replicate ((c.streamKeys m).count key) (payload m))
  messages : s.valuesAt c.messagesKey = .ok fun id => (log.find? fun m => m.id = id).map encodeText
  approvals : s.valuesAt c.approvalsKey = .ok fun id => (verdict id).map encodeText

/-- A server with the entries of messages in their streams, with some messages by their ids, and
with decisions. -/
structure Holds (c : Config) (entries : List Message) (index : String → Option Message)
    (verdict : String → Option Approval) (s : Server) : Prop where
  streams : ∀ key, c.IsStream key → s.fieldsAt key =
    .ok (entries.flatMap fun m => List.replicate ((c.streamKeys m).count key) (payload m))
  messages : s.valuesAt c.messagesKey = .ok fun id => (index id).map encodeText
  approvals : s.valuesAt c.approvalsKey = .ok fun id => (verdict id).map encodeText

variable {c : Config} {log ms entries : List Message} {index : String → Option Message}
  {seen : List String} {verdict : String → Option Approval} {s : Server} {m : Message}

theorem Filled.holds (h : Filled c log verdict s) :
    Holds c log (fun id => log.find? fun m => m.id = id) verdict s :=
  ⟨h.streams, h.messages, h.approvals⟩

theorem filled_empty (c : Config) : Filled c [] (fun _ => none) Server.empty :=
  ⟨fun _ _ => rfl, rfl, rfl⟩

theorem transaction_writes (c : Config) (m : Message) (s : Server) :
    (s.transaction (c.writes m)).2 =
      ((s.transaction (Server.additions (payload m) (c.streamKeys m))).2.set c.messagesKey m.id
        (encodeText m)).2 :=
  Server.transaction_append s (Server.additions (payload m) (c.streamKeys m)) _

theorem Indexed.set (h : Indexed c log s) (hnew : ∀ n ∈ log, n.id ≠ m.id) :
    Indexed c (log ++ [m]) (s.set c.messagesKey m.id (encodeText m)).2 := by
  rw [Indexed, Server.set_valuesAt h, if_pos rfl]
  refine congrArg Except.ok ?_
  funext id
  rw [Function.update_apply, List.find?_append]
  by_cases hid : id = m.id
  · subst hid
    have hnone : log.find? (fun n => n.id = m.id) = none := by simpa using hnew
    simp [hnone]
  · simp [hid, Ne.symm hid]

/-- The writes of a message add its entries, and put it in the place of what was under its id. -/
theorem Holds.write (h : Holds c entries index verdict s) (hm : Storable m) :
    Holds c (entries ++ [m]) (Function.update index m.id (some m)) verdict
      (s.transaction (c.writes m)).2 := by
  have hkeys (key : String) (hk : key ∈ c.streamKeys m) : c.IsStream key :=
    Config.isStream_of_mem hm hk
  have hmessages : c.messagesKey ∉ c.streamKeys m := fun hk => (hkeys _ hk).ne_messages rfl
  have happrovals : c.approvalsKey ∉ c.streamKeys m := fun hk => (hkeys _ hk).ne_approvals rfl
  have hindex := (Server.additions_valuesAt hmessages s (payload m)).trans h.messages
  rw [transaction_writes]
  refine ⟨?_, ?_, ?_⟩
  · intro key hkey
    rw [Server.set_fieldsAt hkey.ne_messages, Server.additions_fieldsAt _ (payload m)
      (fun key hk => ⟨_, h.streams key (hkeys key hk)⟩) (h.streams key hkey), List.flatMap_append,
      List.flatMap_singleton]
  · rw [Server.set_valuesAt hindex, if_pos rfl]
    refine congrArg Except.ok ?_
    funext id
    rw [Function.update_apply, Function.update_apply]
    split <;> rfl
  · rw [Server.set_valuesAt hindex, if_neg Config.messagesKey_ne_approvalsKey.symm,
      Server.additions_valuesAt happrovals, h.approvals]

theorem Filled.write (h : Filled c log verdict s) (hm : Storable m)
    (hnew : ∀ n ∈ log, n.id ≠ m.id) :
    Filled c (log ++ [m]) verdict (s.transaction (c.writes m)).2 := by
  have hmessages : c.messagesKey ∉ c.streamKeys m :=
    fun hk => (Config.isStream_of_mem hm hk).ne_messages rfl
  obtain ⟨hstreams, -, happrovals⟩ := h.holds.write hm
  refine ⟨hstreams, ?_, happrovals⟩
  rw [transaction_writes]
  exact Indexed.set ((Server.additions_valuesAt hmessages s _).trans h.messages) hnew

theorem Filled.settle (h : Filled c log verdict s) (id : String) (a : Approval) :
    Filled c log (Function.update verdict id (some a))
      (s.set c.approvalsKey id (encodeText a)).2 := by
  refine ⟨?_, ?_, ?_⟩
  · intro key hkey
    rw [Server.set_fieldsAt hkey.ne_approvals, h.streams key hkey]
  · rw [Server.set_valuesAt h.approvals, if_neg Config.messagesKey_ne_approvalsKey, h.messages]
  · rw [Server.set_valuesAt h.approvals, if_pos rfl]
    refine congrArg Except.ok ?_
    funext i
    rw [Function.update_apply, Function.update_apply]
    split <;> rfl

theorem keepNew_sublist (seen : List String) (ms : List Message) :
    (keepNew seen ms).Sublist ms := by
  induction ms generalizing seen with
  | nil => exact .slnil
  | cons m ms ih =>
      rw [keepNew]
      split
      · exact (ih seen).cons m
      · exact (ih _).cons_cons m

theorem not_mem_of_keepNew (hm : m ∈ keepNew seen ms) : m.id ∉ seen := by
  induction ms generalizing seen with
  | nil => cases hm
  | cons n ms ih =>
      rw [keepNew] at hm
      split at hm
      · exact ih hm
      · rename_i hn
        rcases List.mem_cons.mp hm with rfl | hm
        · exact hn
        · exact fun h => ih hm (List.mem_cons_of_mem _ h)

theorem nodup_keepNew (seen : List String) (ms : List Message) :
    ((keepNew seen ms).map Message.id).Nodup := by
  induction ms generalizing seen with
  | nil => exact List.nodup_nil
  | cons m ms ih =>
      rw [keepNew]
      split
      · exact ih seen
      · rw [List.map_cons, List.nodup_cons]
        refine ⟨?_, ih _⟩
        intro h
        obtain ⟨n, hn, hid⟩ := List.mem_map.mp h
        exact not_mem_of_keepNew hn (hid ▸ List.mem_cons_self)

theorem keepNew_replicate (n : Nat) (m : Message) (rest : List Message) (seen : List String) :
    keepNew seen (List.replicate n m ++ rest) =
      if n = 0 ∨ m.id ∈ seen then keepNew seen rest else m :: keepNew (m.id :: seen) rest := by
  induction n generalizing seen with
  | zero => rw [if_pos (.inl rfl)]; rfl
  | succ n ih =>
      rw [List.replicate_succ, List.cons_append, keepNew]
      by_cases hm : m.id ∈ seen
      · rw [if_pos hm, ih, if_pos (.inr hm), if_pos (.inr hm)]
      · rw [if_neg hm, ih, if_pos (.inr List.mem_cons_self), if_neg]
        simpa using hm

theorem keepNew_concat (seen : List String) (ms : List Message) (m : Message) :
    keepNew seen (ms ++ [m]) =
      if m.id ∈ seen ∨ ∃ n ∈ keepNew seen ms, n.id = m.id then keepNew seen ms
      else keepNew seen ms ++ [m] := by
  induction ms generalizing seen with
  | nil => simp [keepNew]
  | cons n ms ih =>
      rw [List.cons_append, keepNew, keepNew]
      by_cases hn : n.id ∈ seen
      · rw [if_pos hn, if_pos hn, ih]
      · rw [if_neg hn, if_neg hn, ih]
        have hknown : (m.id ∈ n.id :: seen ∨ ∃ n' ∈ keepNew (n.id :: seen) ms, n'.id = m.id) ↔
            m.id ∈ seen ∨ ∃ n' ∈ n :: keepNew (n.id :: seen) ms, n'.id = m.id := by
          rw [List.mem_cons, List.exists_mem_cons_iff, eq_comm, or_comm (a := n.id = m.id), or_assoc]
        simp only [hknown]
        split <;> rfl

theorem firstOfEach_concat (ms : List Message) (m : Message) :
    firstOfEach (ms ++ [m]) = if ∃ n ∈ firstOfEach ms, n.id = m.id then firstOfEach ms
      else firstOfEach ms ++ [m] := by
  rw [firstOfEach, keepNew_concat]
  simp only [List.not_mem_nil, false_or]
  rfl

theorem keepNew_eq_self (hn : (ms.map Message.id).Nodup) (hseen : ∀ m ∈ ms, m.id ∉ seen) :
    keepNew seen ms = ms := by
  induction ms generalizing seen with
  | nil => rfl
  | cons m ms ih =>
      rw [List.map_cons, List.nodup_cons] at hn
      rw [List.forall_mem_cons] at hseen
      rw [keepNew, if_neg hseen.1, ih hn.2]
      intro n hmem
      rw [List.mem_cons, not_or]
      exact ⟨fun heq => hn.1 (heq ▸ List.mem_map_of_mem hmem), hseen.2 n hmem⟩

theorem keepNew_copies (read : Message → Option Message) (count : Message → Nat)
    (seen : List String) (log : List Message) :
    keepNew seen (log.flatMap fun m => (read m).elim [] (List.replicate (count m))) =
      keepNew seen ((log.filter fun m => count m ≠ 0).filterMap read) := by
  induction log generalizing seen with
  | nil => rfl
  | cons m log ih =>
      rw [List.flatMap_cons, List.filter_cons]
      cases hr : read m with
      | none =>
          rw [Option.elim_none, List.nil_append, ih]
          split
          · rw [List.filterMap_cons_none hr]
          · rfl
      | some m' =>
          rw [Option.elim_some, keepNew_replicate, ih, ih]
          by_cases hc : count m = 0
          · simp [hc]
          · simp [hc, hr, keepNew]

theorem map_id_filterMap_sublist {read : Message → Option Message}
    (hid : ∀ m ∈ log, ∀ m' ∈ read m, m'.id = m.id) :
    ((log.filterMap read).map Message.id).Sublist (log.map Message.id) := by
  induction log with
  | nil => exact .slnil
  | cons m log ih =>
      rw [List.forall_mem_cons] at hid
      cases hr : read m with
      | none =>
          rw [List.filterMap_cons_none hr]
          exact (ih hid.2).cons m.id
      | some m' =>
          rw [List.filterMap_cons_some hr, List.map_cons, List.map_cons, hid.1 m' hr]
          exact (ih hid.2).cons_cons m.id

end Parley.StreamStore
