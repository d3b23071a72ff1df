import Mathlib.Data.String.Basic
import Parley.StreamStore.Client

namespace Parley.StreamStore

inductive Role
  | tenant (id : String)
  | thread (id : String)
  | messages
  | approvals

def Role.name : Role → String
  | tenant id => id
  | thread id => "thread:" ++ id
  | messages => "messages"
  | approvals => "approvals"

/-- A tenant is named as one of the hashes is. -/
def Reserved (tenant : String) : Prop := tenant = "messages" ∨ tenant = "approvals"

def Storable (m : Message) : Prop := ∀ tenant, m.concerns tenant = true → ¬ Reserved tenant

namespace Config

def key (c : Config) : Role → String
  | .tenant id => c.tenantKey id
  | .thread id => c.threadKey id
  | .messages => c.messagesKey
  | .approvals => c.approvalsKey

variable {c : Config} {tenant other id : String} {m : Message}

theorem key_eq (c : Config) (r : Role) : c.key r = c.keyRoot ++ (":" ++ r.name) := by
  cases r with
  | tenant id => exact String.append_assoc ..
  | thread id =>
      rw [key, threadKey, Role.name, ← String.append_assoc, ← String.append_assoc]
      simp only [String.append_assoc]
      rfl
  | messages => rfl
  | approvals => rfl

theorem key_eq_key_iff (c : Config) (r r' : Role) : c.key r = c.key r' ↔ r.name = r'.name := by
  rw [key_eq, key_eq, String.append_right_inj, String.append_right_inj]

theorem thread_name_ne {name : String} (h : name.toList.head? ≠ some 't') (id : String) :
    (Role.thread id).name ≠ name := by
  rintro rfl
  apply h
  rw [Role.name, String.toList_append]
  rfl

theorem tenantKey_inj : c.tenantKey tenant = c.tenantKey other ↔ tenant = other :=
  key_eq_key_iff c (.tenant tenant) (.tenant other)

theorem threadKey_inj : c.threadKey id = c.threadKey other ↔ id = other :=
  (key_eq_key_iff c (.thread id) (.thread other)).trans (String.append_right_inj _)

theorem tenantKey_messages : c.tenantKey "messages" = c.messagesKey :=
  (key_eq_key_iff c (.tenant "messages") .messages).mpr rfl

theorem tenantKey_eq_threadKey_iff :
    c.tenantKey tenant = c.threadKey id ↔ tenant = "thread:" ++ id :=
  key_eq_key_iff c (.tenant tenant) (.thread id)

structure IsStream (c : Config) (key : String) : Prop where
  ne_messages : key ≠ c.messagesKey
  ne_approvals : key ≠ c.approvalsKey

theorem isStream_tenantKey_iff : c.IsStream (c.tenantKey tenant) ↔ ¬ Reserved tenant := by
  have hmessages := key_eq_key_iff c (.tenant tenant) .messages
  have happrovals := key_eq_key_iff c (.tenant tenant) .approvals
  rw [Reserved, not_or]
  exact ⟨fun h => ⟨mt hmessages.mpr h.1, mt happrovals.mpr h.2⟩,
    fun h => ⟨mt hmessages.mp h.1, mt happrovals.mp h.2⟩⟩

theorem isStream_threadKey (c : Config) (id : String) : c.IsStream (c.threadKey id) where
  ne_messages := mt (key_eq_key_iff c (.thread id) .messages).mp (thread_name_ne (by decide) id)
  ne_approvals := mt (key_eq_key_iff c (.thread id) .approvals).mp (thread_name_ne (by decide) id)

theorem messagesKey_ne_approvalsKey : c.messagesKey ≠ c.approvalsKey :=
  mt (key_eq_key_iff c .messages .approvals).mp (by decide)

theorem concerns_iff : m.concerns tenant = true ↔ m.toTenant = tenant ∨ m.fromTenant = tenant := by
  simp [Message.concerns]

theorem mem_streamKeys {key : String} : key ∈ c.streamKeys m ↔
    (∃ tenant, m.concerns tenant = true ∧ key = c.tenantKey tenant) ∨
      key = c.threadKey m.threadId := by
  have hkeys : key ∈ c.streamKeys m ↔ (key = c.tenantKey m.toTenant ∨
      key = c.tenantKey m.fromTenant) ∨ key = c.threadKey m.threadId := by
    rw [streamKeys]
    by_cases h : m.fromTenant = m.toTenant
    · simp [h]
    · simp [h, or_assoc]
  simp [hkeys, concerns_iff, or_and_right, exists_or]

/-- The stream of a tenant has what the tenant sent or received, and any thread that is named as
the tenant is. -/
theorem tenantKey_mem_streamKeys : c.tenantKey tenant ∈ c.streamKeys m ↔
    m.concerns tenant = true ∨ tenant = "thread:" ++ m.threadId := by
  simp [mem_streamKeys, tenantKey_inj, tenantKey_eq_threadKey_iff]

theorem threadKey_mem_streamKeys : c.threadKey id ∈ c.streamKeys m ↔
    m.threadId = id ∨ m.concerns ("thread:" ++ id) = true := by
  have htenant (tenant : String) :
      c.threadKey id = c.tenantKey tenant ↔ tenant = "thread:" ++ id := by
    rw [eq_comm, tenantKey_eq_threadKey_iff]
  rw [mem_streamKeys, threadKey_inj, or_comm, eq_comm]
  simp [htenant]

theorem isStream_of_mem {key : String} (hm : Storable m) (h : key ∈ c.streamKeys m) :
    c.IsStream key := by
  rcases mem_streamKeys.mp h with ⟨tenant, ht, rfl⟩ | rfl
  · exact isStream_tenantKey_iff.mpr (hm tenant ht)
  · exact isStream_threadKey c _

end Config

end Parley.StreamStore
