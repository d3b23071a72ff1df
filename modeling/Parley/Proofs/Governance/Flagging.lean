import Mathlib.Algebra.BigOperators.Group.List.Basic
import Mathlib.Data.List.Induction
import Parley.Proofs.Governance.Review
import Parley.Proofs.Governance.Tally

namespace Parley.Governance

namespace Ledger

def Op.flagged (l : Ledger) : Op → List String
  | .flag id notes => if (l.flag id notes).1 then [id] else []
  | _ => []

/-- The flags that operations put on decisions, by their ids and in order. -/
def flags (l : Ledger) : List Op → List String
  | [] => []
  | op :: ops => op.flagged l ++ flags (l.step op) ops

def idsOf (l : Ledger) (tenant : String) : List String := (l.ofTenant tenant).map LogEntry.id

/-- Every flag is on a logged decision and was counted for its tenant. -/
structure Flagged (found : List String) (l : Ledger) : Prop where
  logged : ∀ id ∈ found, id ∈ l.log.map LogEntry.id
  counted : ∀ tenant, (l.statsOf tenant).flagged = ((l.idsOf tenant).map found.count).sum

variable {l l' : Ledger} {found ids : List String} {left right : List LogEntry} {e : LogEntry}
  {tenant : String}

theorem flags_concat (l : Ledger) (ops : List Op) (op : Op) :
    l.flags (ops ++ [op]) = l.flags ops ++ op.flagged (ops.foldl step l) := by
  induction ops generalizing l with
  | nil => exact List.append_nil _
  | cons first ops ih =>
      rw [List.cons_append, flags, ih, flags, List.append_assoc]
      rfl

theorem sum_count_concat (ids found : List String) (id : String) :
    (ids.map (found ++ [id]).count).sum = (ids.map found.count).sum + ids.count id := by
  induction ids with
  | nil => rfl
  | cons i ids ih =>
      rw [List.map_cons, List.sum_cons, ih, List.map_cons, List.sum_cons, List.count_append,
        List.count_singleton, List.count_cons, BEq.comm]
      omega

theorem idsOf_sublist (l : Ledger) (tenant : String) :
    (l.idsOf tenant).Sublist (l.log.map LogEntry.id) :=
  List.filter_sublist.map LogEntry.id

theorem count_idsOf (hn : (l.log.map LogEntry.id).Nodup) (he : e ∈ l.log) (tenant : String) :
    (l.idsOf tenant).count e.id = if tenant = e.tenant then 1 else 0 := by
  rw [((idsOf_sublist l tenant).nodup hn).count]
  refine if_congr ?_ rfl rfl
  rw [idsOf, List.mem_map]
  constructor
  · rintro ⟨x, hx, hid⟩
    obtain ⟨hx, htenant⟩ := List.mem_filter.mp hx
    rw [← List.inj_on_of_nodup_map hn hx he hid]
    exact (of_decide_eq_true htenant).symm
  · rintro rfl
    exact ⟨e, List.mem_filter.mpr ⟨he, decide_eq_true rfl⟩, rfl⟩

theorem flagged_new (config : Config) (trail : Option Audit.Trail) :
    Flagged [] (new config trail) :=
  ⟨List.forall_mem_nil _, fun _ => rfl⟩

theorem Flagged.congr (h : Flagged found l) (hlog : l'.log = l.log) (hstats : l'.stats = l.stats) :
    Flagged found l' := by
  refine ⟨hlog ▸ h.logged, fun tenant => ?_⟩
  rw [statsOf, hstats, idsOf, ofTenant, hlog]
  exact h.counted tenant

theorem Stats.add_flagged (s : Stats) (e : LogEntry) : (s.add e).flagged = s.flagged := by
  obtain ⟨mean, hsample⟩ := Stats.addSample_eq (s.addVerdict e) e
  rw [Stats.add, hsample, Stats.addVerdict_eq]

theorem Flagged.enter (h : Flagged found l) (hn : ((l.log ++ [e]).map LogEntry.id).Nodup)
    (hlog : l'.log = l.log ++ [e])
    (hstats : l'.stats = l.stats.set e.tenant ((l.statsOf e.tenant).add e)) : Flagged found l' := by
  have hnew : found.count e.id = 0 := by
    rw [List.map_append, List.map_singleton, List.nodup_append_comm] at hn
    exact List.count_eq_zero_of_not_mem fun hmem => (List.nodup_cons.mp hn).1 (h.logged _ hmem)
  refine ⟨?_, fun tenant => ?_⟩
  · intro id hid
    rw [hlog, List.map_append]
    exact List.mem_append_left _ (h.logged id hid)
  · have hsum : ((l'.idsOf tenant).map found.count).sum =
        ((l.idsOf tenant).map found.count).sum := by
      rw [idsOf, ofTenant, hlog, List.filter_append, List.map_append, List.map_append,
        List.sum_append]
      by_cases ht : e.tenant = tenant
      · simp [ht, hnew, idsOf, ofTenant]
      · simp [ht, idsOf, ofTenant]
    rw [hsum, ← h.counted, statsOf, hstats, Table.find?_set]
    by_cases ht : tenant = e.tenant
    · subst ht
      rw [if_pos rfl, Option.getD_some, Stats.add_flagged]
    · rw [if_neg ht, statsOf]

theorem idsOf_settledAt (hlog : l.log = left ++ e :: right) (flagged : Bool) (notes : String)
    (tenant : String) : (l.settledAt flagged notes left e right).idsOf tenant = l.idsOf tenant := by
  simp only [idsOf, ofTenant, settledAt, hlog, List.filter_append, List.filter_cons, List.map_append,
    review]
  split <;> rfl

theorem Flagged.settle (h : Flagged found l) (hn : (l.log.map LogEntry.id).Nodup)
    (hlog : l.log = left ++ e :: right) (flagged : Bool) (notes : String) :
    Flagged (found ++ if flagged then [e.id] else []) (l.settledAt flagged notes left e right) := by
  have he : e ∈ l.log := hlog ▸ List.mem_append_right _ List.mem_cons_self
  refine ⟨?_, fun tenant => ?_⟩
  · have hids : (l.settledAt flagged notes left e right).log.map LogEntry.id =
        l.log.map LogEntry.id := by
      rw [settledAt, hlog, List.map_append, List.map_append]
      rfl
    intro id hid
    rw [hids]
    rcases List.mem_append.mp hid with hid | hid
    · exact h.logged id hid
    · cases flagged with
      | false => cases hid
      | true => exact List.mem_singleton.mp hid ▸ List.mem_map_of_mem he
  · rw [idsOf_settledAt hlog, statsOf, settledAt, statsOf_noted]
    cases flagged with
    | false =>
        rw [if_neg fun hand => Bool.false_ne_true hand.1, if_neg Bool.false_ne_true,
          List.append_nil, h.counted]
    | true =>
        rw [if_pos (rfl : true = true), sum_count_concat, count_idsOf hn he, ← h.counted]
        by_cases ht : tenant = e.tenant
        · rw [if_pos ⟨rfl, ht⟩, if_pos ht]
        · rw [if_neg fun hand => ht hand.2, if_neg ht, Nat.add_zero]

theorem Flagged.review (h : Flagged found l) (hn : (l.log.map LogEntry.id).Nodup) (flagged : Bool)
    (id notes : String) :
    Flagged (found ++ if flagged && (l.settle flagged id notes).1 then [id] else [])
      (l.settle flagged id notes).2 := by
  obtain ⟨left, e, right, hlog, rfl, -, hsettle⟩ | ⟨-, hsettle⟩ := settle_cases l flagged id notes
  · rw [hsettle]
    simpa using h.settle hn hlog flagged notes
  · rw [hsettle]
    simpa using h

theorem Flagged.record (h : Flagged found l) (refusal : Option Error) (auditId : String)
    (time : Time.Instant) (c : Case)
    (hn : ((l.record refusal auditId time c).2.log.map LogEntry.id).Nodup) :
    Flagged found (l.record refusal auditId time c).2 := by
  have henter (l' : Ledger) (hlog : l'.log = l.log ++ [c.entry time])
      (hstats : l'.stats = (l.enter (c.entry time)).stats)
      (hn : (l'.log.map LogEntry.id).Nodup) : Flagged found l' :=
    h.enter (hlog ▸ hn) hlog hstats
  simp only [Ledger.record] at hn ⊢
  split at hn
  · exact h
  · exact henter _ rfl rfl hn
  · exact henter _ rfl rfl hn

theorem Flagged.step (h : Flagged found l) (op : Op)
    (hn : ((l.step op).log.map LogEntry.id).Nodup) :
    Flagged (found ++ op.flagged l) (l.step op) := by
  have hsettle (flagged : Bool) (id notes : String)
      (hn : ((l.settle flagged id notes).2.log.map LogEntry.id).Nodup) :=
    h.review (settle_ids l flagged id notes ▸ hn) flagged id notes
  cases op with
  | record refusal auditId time c =>
      change Flagged (found ++ []) (l.record refusal auditId time c).2
      rw [List.append_nil]
      exact h.record refusal auditId time c hn
  | review id notes => exact hsettle false id notes hn
  | flag id notes => exact hsettle true id notes hn
  | error t a =>
      change Flagged (found ++ []) _
      rw [List.append_nil]
      exact h.congr rfl rfl
  | clear t a =>
      change Flagged (found ++ []) _
      rw [List.append_nil]
      exact h.congr rfl rfl

theorem flagged_run (config : Config) (trail : Option Audit.Trail) (ops : List Op)
    (hn : (ops.flatMap Op.ids).Nodup) :
    Flagged ((new config trail).flags ops) (run config trail ops) := by
  induction ops using List.reverseRecOn with
  | nil => exact flagged_new config trail
  | append_singleton ops op ih =>
      have hstep : run config trail (ops ++ [op]) = (run config trail ops).step op :=
        List.foldl_concat ..
      have hlog := (run_ids config trail (ops ++ [op])).nodup hn
      rw [List.flatMap_append] at hn
      rw [hstep] at hlog ⊢
      rw [flags_concat]
      exact (ih hn.of_append_left).step op hlog

theorem countP_pos_le_sum {α : Type} (f : α → Nat) (xs : List α) :
    xs.countP (fun x => 0 < f x) ≤ (xs.map f).sum := by
  induction xs with
  | nil => exact Nat.le_refl 0
  | cons x xs ih =>
      rw [List.countP_cons, List.map_cons, List.sum_cons]
      split
      · rename_i hx
        have hpos := of_decide_eq_true hx
        omega
      · omega

theorem sum_eq_countP_pos_iff {α : Type} (f : α → Nat) (xs : List α) :
    (xs.map f).sum = xs.countP (fun x => 0 < f x) ↔ ∀ x ∈ xs, f x ≤ 1 := by
  induction xs with
  | nil => exact ⟨fun _ => List.forall_mem_nil _, fun _ => rfl⟩
  | cons x xs ih =>
      have hle := countP_pos_le_sum f xs
      rw [List.forall_mem_cons, ← ih, List.countP_cons, List.map_cons, List.sum_cons]
      split
      · rename_i hx
        have hpos := of_decide_eq_true hx
        omega
      · rename_i hx
        have hzero : f x = 0 := by simpa using hx
        omega

/-- After every run in which no id was used twice, what is counted for a tenant is every flag put
on one of its decisions, so that a decision flagged again is counted again. The count is that of the
decisions flagged at all, and does not exceed their number, just if none of them was flagged
twice. -/
theorem flags_of_run (config : Config) (trail : Option Audit.Trail) (ops : List Op)
    (tenant : String) (hn : (ops.flatMap Op.ids).Nodup) :
    let l := run config trail ops
    let found := (new config trail).flags ops
    let es := l.ofTenant tenant
    let s := l.statsOf tenant
    s.flagged = (es.map fun e => found.count e.id).sum ∧
    (es.countP fun e => e.id ∈ found) ≤ s.flagged ∧
    (s.flagged = (es.countP fun e => e.id ∈ found) ↔ ∀ e ∈ es, found.count e.id ≤ 1) ∧
    ((∀ e ∈ es, found.count e.id ≤ 1) → s.flagged ≤ s.total) := by
  intro l found es s
  have hcounted : s.flagged = (es.map fun e => found.count e.id).sum := by
    rw [(flagged_run config trail ops hn).counted tenant, idsOf, List.map_map]
    rfl
  have hflagged : (es.countP fun e => e.id ∈ found) =
      es.countP fun e => 0 < found.count e.id := by
    simp only [List.count_pos_iff]
  have htotal : s.total = es.length := (tallied_run config trail ops tenant).total
  have honce : s.flagged = (es.countP fun e => e.id ∈ found) ↔ ∀ e ∈ es, found.count e.id ≤ 1 := by
    rw [hcounted, hflagged]
    exact sum_eq_countP_pos_iff _ es
  refine ⟨hcounted, ?_, honce, fun h => ?_⟩
  · rw [hcounted, hflagged]
    exact countP_pos_le_sum _ es
  · rw [honce.mpr h, htotal]
    exact List.countP_le_length

def flaggedOps : List Op :=
  [.record none "" ⟨0, 0, 0⟩ (sharedCase "auditor"),
    .record none "" ⟨0, 0, 0⟩ { sharedCase "auditor" with id := "d-2" },
    .flag "d-1" "odd", .review "d-1" "ok", .flag "d-2" "odd"]

theorem flags_of_run_once : (flaggedOps.flatMap Op.ids).Nodup ∧
    ((run .standard none flaggedOps).statsOf "auditor").flagged =
      (((run .standard none flaggedOps).ofTenant "auditor").countP
        fun e => e.id ∈ (new .standard none).flags flaggedOps) ∧
    ((run .standard none flaggedOps).statsOf "auditor").flagged ≤
      ((run .standard none flaggedOps).statsOf "auditor").total := by
  have hn : (flaggedOps.flatMap Op.ids).Nodup := by decide
  have honce : ∀ e ∈ (run .standard none flaggedOps).ofTenant "auditor",
      ((new .standard none).flags flaggedOps).count e.id ≤ 1 := by decide
  obtain ⟨-, -, hcount, htotal⟩ := flags_of_run .standard none flaggedOps "auditor" hn
  exact ⟨hn, hcount.mpr honce, htotal honce⟩

def againOps : List Op :=
  [.record none "" ⟨0, 0, 0⟩ (sharedCase "auditor"), .flag "d-1" "odd", .flag "d-1" "odder"]

/-- The count can exceed the number of decisions. -/
theorem flag_counted_again : (againOps.flatMap Op.ids).Nodup ∧
    ((run .standard none againOps).statsOf "auditor").flagged = 2 ∧
    (((run .standard none againOps).ofTenant "auditor").countP
      fun e => e.id ∈ (new .standard none).flags againOps) = 1 ∧
    ((run .standard none againOps).statsOf "auditor").total = 1 :=
  ⟨by decide, rfl, rfl, rfl⟩

end Ledger

end Parley.Governance
