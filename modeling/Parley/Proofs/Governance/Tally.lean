import Mathlib.Algebra.GroupWithZero.Nat
import Parley.Proofs.Governance.Run

namespace Parley.Governance

open Time (Instant)

section

variable {κ : Type} [DecidableEq κ] {t : Table κ Nat} {ks : List κ}

/-- A table of how often each value is in a list. A value that is not in it has no count. -/
structure Counts (t : Table κ Nat) (ks : List κ) : Prop where
  find : ∀ k, t.find? k = if k ∈ ks then some (ks.count k) else none
  sum : t.values.sum = ks.length

theorem Counts.empty : Counts (Table.empty : Table κ Nat) [] := ⟨fun _ => rfl, rfl⟩

theorem Counts.count (h : Counts t ks) (k : κ) : Stats.count t k = ks.count k := by
  rw [Stats.count, h.find]
  split
  · rfl
  · rename_i hk
    rw [Option.getD_none, List.count_eq_zero_of_not_mem hk]

theorem sum_setIn (key : κ) (n : Nat) (es : List (κ × Nat)) :
    ((Table.setIn key n es).map Prod.snd).sum + (Table.valueIn key es).getD 0 =
      (es.map Prod.snd).sum + n := by
  induction es with
  | nil => simp [Table.setIn, Table.valueIn]
  | cons e es ih =>
      obtain ⟨k, m⟩ := e
      rw [Table.setIn, Table.valueIn]
      by_cases hk : k = key
      · simp only [if_pos hk, List.map_cons, List.sum_cons, Option.getD_some]
        omega
      · simp only [if_neg hk, List.map_cons, List.sum_cons]
        omega

theorem Counts.increment (h : Counts t ks) (k : κ) :
    Counts (Stats.increment t k) (ks ++ [k]) := by
  refine ⟨fun j => ?_, ?_⟩
  · rw [Stats.increment, Table.find?_set, h.count, List.count_append, List.count_singleton]
    by_cases hj : j = k
    · subst hj
      simp
    · rw [if_neg hj, h.find]
      simp [hj, Ne.symm hj]
  · have hsum := sum_setIn k (Stats.count t k + 1) t.entries
    have hcount : (Table.valueIn k t.entries).getD 0 = Stats.count t k := rfl
    have hold : (t.entries.map Prod.snd).sum = ks.length := h.sum
    change ((Table.setIn k (Stats.count t k + 1) t.entries).map Prod.snd).sum = _
    rw [List.length_append, List.length_singleton]
    omega

end

structure Stats.Tallies (s : Stats) (es : List LogEntry) : Prop where
  total : s.total = es.length
  autoApproved : s.autoApproved = es.countP fun e => e.approved = true ∧ e.mode ≠ .audit
  humanApproved : s.humanApproved = es.countP fun e => e.approved = true ∧ e.mode = .audit
  rejected : s.rejected = es.countP fun e => e.approved = false
  samples : s.samples = es.countP fun e => e.confidence.isFinite
  byTier : Counts s.byTier (es.map LogEntry.tier)
  byAgent : Counts s.byAgent (es.map LogEntry.agent)

namespace Stats

variable {s : Stats} {es left right : List LogEntry}

theorem tallies_empty : empty.Tallies [] := ⟨rfl, rfl, rfl, rfl, rfl, .empty, .empty⟩

theorem addVerdict_eq (s : Stats) (e : LogEntry) : s.addVerdict e = { s with
    autoApproved := s.autoApproved + [e].countP fun e => e.approved = true ∧ e.mode ≠ .audit
    humanApproved := s.humanApproved + [e].countP fun e => e.approved = true ∧ e.mode = .audit
    rejected := s.rejected + [e].countP fun e => e.approved = false } := by
  rw [addVerdict]
  cases ha : e.approved with
  | false => simp [ha]
  | true =>
      by_cases hm : e.mode = .audit
      · simp [ha, hm]
      · simp [ha, hm]

theorem addSample_eq (s : Stats) (e : LogEntry) : ∃ mean, s.addSample e.confidence = { s with
    samples := s.samples + [e].countP fun e => e.confidence.isFinite
    averageConfidence := mean } := by
  rw [addSample]
  cases hx : e.confidence.isFinite with
  | false => exact ⟨s.averageConfidence, by simp [hx]⟩
  | true => exact ⟨_, by simp [hx]; rfl⟩

theorem Tallies.add (h : s.Tallies es) (e : LogEntry) : (s.add e).Tallies (es ++ [e]) := by
  obtain ⟨mean, hsample⟩ := addSample_eq (s.addVerdict e) e
  rw [Stats.add, hsample, addVerdict_eq]
  refine ⟨?_, ?_, ?_, ?_, ?_, ?_, ?_⟩
  · rw [List.length_append, h.total, List.length_singleton]
  · rw [List.countP_append, h.autoApproved]
  · rw [List.countP_append, h.humanApproved]
  · rw [List.countP_append, h.rejected]
  · rw [List.countP_append, h.samples]
  · rw [List.map_append]
    exact h.byTier.increment e.tier
  · rw [List.map_append]
    exact h.byAgent.increment e.agent

theorem Tallies.flag (h : s.Tallies es) (n : Nat) : { s with flagged := n }.Tallies es :=
  ⟨h.total, h.autoApproved, h.humanApproved, h.rejected, h.samples, h.byTier, h.byAgent⟩

theorem Tallies.review {e : LogEntry} (h : s.Tallies (left ++ e :: right)) (status : Review)
    (notes : String) : s.Tallies (left ++ Ledger.review status notes e :: right) := by
  obtain ⟨htotal, hauto, hhuman, hrejected, hsamples, htier, hagent⟩ := h
  refine ⟨?_, ?_, ?_, ?_, ?_, ?_, ?_⟩
  · simpa using htotal
  · simpa [Ledger.review, List.countP_cons] using hauto
  · simpa [Ledger.review, List.countP_cons] using hhuman
  · simpa [Ledger.review, List.countP_cons] using hrejected
  · simpa [Ledger.review, List.countP_cons] using hsamples
  · simpa [Ledger.review] using htier
  · simpa [Ledger.review] using hagent

theorem Tallies.kinds (h : s.Tallies es) :
    s.autoApproved + s.humanApproved + s.rejected = s.total := by
  rw [h.autoApproved, h.humanApproved, h.rejected, h.total]
  clear h
  induction es with
  | nil => rfl
  | cons e es ih =>
      simp only [List.countP_cons, List.length_cons]
      cases ha : e.approved with
      | false => simp [← ih]; omega
      | true =>
          by_cases hm : e.mode = .audit
          · simp [hm, ← ih]; omega
          · simp [hm, ← ih]; omega

variable {c : Config} {rate : Float} {high total : Nat}

theorem enough_iff {least total : Nat} :
    max 1 least ≤ total ↔ ¬ (total < least ∨ total = 0) := by omega

theorem highAutoApprovalRate_mem_iff : .highAutoApprovalRate rate ∈ s.anomalies c ↔
    max 1 c.minDecisions ≤ s.total ∧ c.maxAutoApprovalRate < s.autoApprovalRate ∧
      rate = s.autoApprovalRate := by
  rw [enough_iff, anomalies]
  by_cases h : s.total < c.minDecisions ∨ s.total = 0
  · simp [h]
  · simp [h, List.mem_ite_nil_right]

theorem highTierConcentration_mem_iff : .highTierConcentration high total ∈ s.anomalies c ↔
    max 1 c.minDecisions ≤ s.total ∧ c.maxHighTierRatio < s.highShare ∧
      high = count s.byTier .high ∧ total = s.total := by
  rw [enough_iff, anomalies]
  by_cases h : s.total < c.minDecisions ∨ s.total = 0
  · simp [h]
  · simp [h, List.mem_ite_nil_right]

end Stats

namespace Ledger

variable {l l' : Ledger}

def Tallied (l : Ledger) : Prop := ∀ tenant, (l.statsOf tenant).Tallies (l.ofTenant tenant)

theorem tallied_run (config : Config) (trail : Option Audit.Trail) (ops : List Op) :
    (run config trail ops).Tallied :=
  tenant_run Stats.tallies_empty Stats.Tallies.add Stats.Tallies.flag Stats.Tallies.review config
    trail ops

theorem record_statsOf {tenant : String} {c : Case} (hc : c.tenant ≠ tenant) (l : Ledger)
    (refusal : Option Error) (auditId : String) (time : Instant) :
    (l.record refusal auditId time c).2.statsOf tenant = l.statsOf tenant := by
  have henter : (l.enter (c.entry time)).statsOf tenant = l.statsOf tenant := by
    have hne : tenant ≠ (c.entry time).tenant := Ne.symm hc
    rw [statsOf, enter, Table.find?_set, if_neg hne]
    rfl
  simp only [record]
  split
  · rfl
  · exact henter
  · exact henter

/-- After every run the statistics of a tenant are those of its decisions in the log, its
anomalies are told from the shares among them, and what is recorded of another tenant does not
count. -/
theorem stats_of_run (config : Config) (trail : Option Audit.Trail) (ops : List Op)
    (tenant : String) :
    let l := run config trail ops
    let s := l.statsOf tenant
    let es := l.ofTenant tenant
    let approved := Float.ofNat (es.countP fun e => e.approved = true ∧ e.mode ≠ .audit)
    let high := es.countP fun e => e.tier = .high
    s.Tallies es ∧
    s.autoApproved + s.humanApproved + s.rejected = s.total ∧
    s.byTier.values.sum = s.total ∧ s.byAgent.values.sum = s.total ∧
    (∀ refusal auditId time c, c.tenant ≠ tenant →
      (l.record refusal auditId time c).2.statsOf tenant = s) ∧
    (∀ rate, .highAutoApprovalRate rate ∈ l.anomalies tenant ↔
      max 1 config.minDecisions ≤ es.length ∧
        config.maxAutoApprovalRate < approved / Float.ofNat es.length ∧
        rate = approved / Float.ofNat es.length) ∧
    ∀ n total, .highTierConcentration n total ∈ l.anomalies tenant ↔
      max 1 config.minDecisions ≤ es.length ∧
        config.maxHighTierRatio < Float.ofNat high / Float.ofNat es.length ∧
        n = high ∧ total = es.length := by
  intro l s es approved high
  have h : s.Tallies es := tallied_run config trail ops tenant
  have hconfig : l.config = config := run_config config trail ops
  have hhigh : Stats.count s.byTier .high = high := by
    rw [h.byTier.count, List.count_eq_countP, List.countP_map]
    rfl
  refine ⟨h, h.kinds, ?_, ?_, ?_, ?_, ?_⟩
  · rw [h.byTier.sum, List.length_map, h.total]
  · rw [h.byAgent.sum, List.length_map, h.total]
  · intro refusal auditId time c hc
    exact record_statsOf hc l refusal auditId time
  · intro rate
    rw [anomalies, hconfig, Stats.highAutoApprovalRate_mem_iff, h.total]
    refine and_congr_right fun henough => ?_
    have hpos : s.total ≠ 0 := by
      rw [h.total]
      omega
    rw [Stats.autoApprovalRate, if_neg hpos, h.autoApproved, h.total]
  · intro n total
    rw [anomalies, hconfig, Stats.highTierConcentration_mem_iff, Stats.highShare, hhigh, h.total]

end Ledger

end Parley.Governance
