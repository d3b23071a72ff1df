import Mathlib.Data.List.Induction
import Parley.Proofs.Decimal.Value
import Parley.Proofs.Governance.Tally

namespace Parley.Governance

open Decimal (IsValue value nearest)

def samplesOf (es : List LogEntry) : List Float :=
  (es.map LogEntry.confidence).filter Float.isFinite

namespace Stats

def meanOf (cs : List Float) : Float :=
  (cs.zipIdx 1).foldl (fun mean s => extendMean mean s.2 s.1) 0.0

structure Averages (s : Stats) (es : List LogEntry) : Prop where
  samples : s.samples = (samplesOf es).length
  mean : s.averageConfidence = meanOf (samplesOf es)

variable {s : Stats} {es left right : List LogEntry} {e : LogEntry} {k n : Nat} {mean c : Float}
  {p q : ℚ} {cs : List Float}

theorem meanOf_concat (cs : List Float) (c : Float) :
    meanOf (cs ++ [c]) = extendMean (meanOf cs) (cs.length + 1) c := by
  rw [meanOf, List.zipIdx_append, List.foldl_append, Nat.add_comm]
  rfl

theorem add_average (s : Stats) (e : LogEntry) : (s.add e).averageConfidence =
    if e.confidence.isFinite then extendMean s.averageConfidence (s.samples + 1) e.confidence
    else s.averageConfidence := by
  rw [Stats.add, addVerdict_eq, addSample]
  split <;> rfl

theorem add_samples (s : Stats) (e : LogEntry) :
    (s.add e).samples = if e.confidence.isFinite then s.samples + 1 else s.samples := by
  rw [Stats.add, addVerdict_eq, addSample]
  split <;> rfl

theorem averages_empty : empty.Averages [] := ⟨rfl, rfl⟩

theorem Averages.add (h : s.Averages es) (e : LogEntry) : (s.add e).Averages (es ++ [e]) := by
  have hsamples : samplesOf (es ++ [e]) =
      samplesOf es ++ if e.confidence.isFinite then [e.confidence] else [] := by
    rw [samplesOf, List.map_append, List.filter_append]
    cases hx : e.confidence.isFinite <;> simp [hx, samplesOf]
  cases hx : e.confidence.isFinite with
  | false =>
      rw [hx, if_neg Bool.false_ne_true, List.append_nil] at hsamples
      constructor
      · rw [add_samples, hx, if_neg Bool.false_ne_true, hsamples, h.samples]
      · rw [add_average, hx, if_neg Bool.false_ne_true, hsamples, h.mean]
  | true =>
      rw [hx, if_pos rfl] at hsamples
      constructor
      · rw [add_samples, hx, if_pos rfl, hsamples, h.samples, List.length_append,
          List.length_singleton]
      · rw [add_average, hx, if_pos rfl, hsamples, meanOf_concat, h.mean, h.samples]

theorem Averages.flag (h : s.Averages es) (n : Nat) : { s with flagged := n }.Averages es :=
  ⟨h.samples, h.mean⟩

theorem Averages.review (h : s.Averages (left ++ e :: right)) (status : Review) (notes : String) :
    s.Averages (left ++ Ledger.review status notes e :: right) := by
  have hsamples : samplesOf (left ++ Ledger.review status notes e :: right) =
      samplesOf (left ++ e :: right) := by
    simp only [samplesOf, List.map_append, List.map_cons, Ledger.review]
  exact ⟨hsamples ▸ h.samples, hsamples ▸ h.mean⟩

theorem pow_lt_max (h : k < 1024) : (2 : ℚ) ^ k < 2 ^ 1024 := pow_lt_pow_right₀ (by norm_num) h

theorem exists_count (hn : 0 < n) (hn' : n < 2 ^ 64) : ∃ count before : ℚ,
    IsValue (Float.ofNat n) count ∧ IsValue (Float.ofNat n - 1.0) before ∧
    0 < count ∧ count ≤ 2 ^ 64 ∧ 0 ≤ before ∧ before ≤ count ∧
    ∀ k : Nat, nearest (2 ^ k * (before + 1)) ≤ 2 ^ k * count := by
  have hcount := Decimal.isValue_ofNat hn'
  have hone : 1 ≤ nearest n := Decimal.one_le_nearest (by exact_mod_cast hn)
  have hmax : nearest n ≤ 2 ^ 64 := by
    have hle := Decimal.abs_nearest_le (x := n) (Decimal.representable_zpow (k := 64) (by decide))
      (by rw [Nat.abs_cast]; exact_mod_cast hn'.le)
    exact (le_abs_self _).trans hle
  have hback : 0 ≤ nearest (nearest n - 1) := Decimal.nearest_nonneg (by linarith)
  have hforth : nearest (nearest n - 1) ≤ nearest n := by
    have hmono := Decimal.nearest_mono (show nearest n - 1 ≤ nearest n by linarith)
    rwa [Decimal.nearest_of_representable hcount.representable] at hmono
  refine ⟨nearest n, nearest (nearest n - 1), hcount, hcount.sub Decimal.isValue_one ?_,
    by linarith, hmax, hback, hforth,
    Decimal.nearest_back_and_forth hcount.representable hone⟩
  rw [abs_of_nonneg hback]
  exact (hforth.trans hmax).trans_lt (pow_lt_max (by decide))

/-- A mean stays within a power of two that it and the next sample are within, though each of the
four steps is rounded. -/
theorem isValue_extendMean (hk : k ≤ 959) (hn : 0 < n) (hn' : n < 2 ^ 64) (hmean : IsValue mean p)
    (hc : IsValue c q) (hp : |p| ≤ 2 ^ k) (hq : |q| ≤ 2 ^ k) :
    ∃ r, IsValue (extendMean mean n c) r ∧ |r| ≤ 2 ^ k ∧ (0 ≤ p → 0 ≤ q → 0 ≤ r) := by
  obtain ⟨count, before, hcount, hless, hpos, hmax, hback, hforth, hstep⟩ := exists_count hn hn'
  have hscale : (0 : ℚ) ≤ 2 ^ k := by positivity
  have hfits : (2 : ℚ) ^ k * count < 2 ^ 1024 :=
    calc (2 : ℚ) ^ k * count ≤ 2 ^ k * 2 ^ 64 := mul_le_mul_of_nonneg_left hmax hscale
      _ = 2 ^ (k + 64) := (pow_add 2 k 64).symm
      _ < 2 ^ 1024 := pow_lt_max (by omega)
  have hbelow : (2 : ℚ) ^ k * before ≤ 2 ^ k * count := mul_le_mul_of_nonneg_left hforth hscale
  have hsum : |nearest (p * before)| ≤ 2 ^ k * before := by
    apply Decimal.abs_nearest_le (hless.representable.mul_pow k)
    rw [abs_mul, abs_of_nonneg hback]
    exact mul_le_mul_of_nonneg_right hp hback
  have hmul := hmean.mul hless ((hsum.trans hbelow).trans_lt hfits)
  have htotal : |nearest (nearest (p * before) + q)| ≤ 2 ^ k * count := by
    refine (Decimal.abs_nearest_le_nearest ?_).trans (hstep k)
    calc |nearest (p * before) + q| ≤ |nearest (p * before)| + |q| := abs_add_le _ _
      _ ≤ 2 ^ k * before + 2 ^ k := add_le_add hsum hq
      _ = 2 ^ k * (before + 1) := by ring
  have hadd := hmul.add hc (htotal.trans_lt hfits)
  have hshare : |nearest (nearest (nearest (p * before) + q) / count)| ≤ 2 ^ k := by
    apply Decimal.abs_nearest_le
    · exact Decimal.representable_zpow (k := k) (by rw [Decimal.leastExponent]; omega)
    · rwa [abs_div, abs_of_pos hpos, div_le_iff₀ hpos]
  refine ⟨_, hadd.div hcount hpos.ne' (hshare.trans_lt (pow_lt_max (by omega))), hshare, ?_⟩
  intro hp hq
  have hbefore := Decimal.nearest_nonneg (mul_nonneg hp hback)
  have hafter := Decimal.nearest_nonneg (add_nonneg hbefore hq)
  exact Decimal.nearest_nonneg (div_nonneg hafter hpos.le)

theorem isValue_meanOf (hk : k ≤ 959) (hcs : cs.length < 2 ^ 64)
    (h : ∀ c ∈ cs, c.isFinite = true ∧ |value c| ≤ 2 ^ k) :
    ∃ r, IsValue (meanOf cs) r ∧ |r| ≤ 2 ^ k ∧ ((∀ c ∈ cs, 0 ≤ value c) → 0 ≤ r) := by
  induction cs using List.reverseRecOn with
  | nil => exact ⟨0, Decimal.isValue_zero, by rw [abs_zero]; positivity, fun _ => le_rfl⟩
  | append_singleton cs c ih =>
      rw [List.length_append, List.length_singleton] at hcs
      obtain ⟨p, hmean, hp, hnonneg⟩ := ih (by omega) fun c hc => h c (List.mem_append_left _ hc)
      obtain ⟨hfinite, hq⟩ := h c (List.mem_append_right _ (List.mem_singleton_self c))
      obtain ⟨r, hr, hbound, hsign⟩ := isValue_extendMean hk (Nat.succ_pos cs.length) hcs hmean
        (Decimal.isValue_of_isFinite hfinite) hp hq
      refine ⟨r, meanOf_concat cs c ▸ hr, hbound, fun hall => hsign ?_ ?_⟩
      · exact hnonneg fun c hc => hall c (List.mem_append_left _ hc)
      · exact hall c (List.mem_append_right _ (List.mem_singleton_self c))

theorem not_isFinite_extendMean (n : Nat) (c : Float) (h : mean.isFinite = false) :
    (extendMean mean n c).isFinite = false :=
  Decimal.not_isFinite_div _ (Decimal.not_isFinite_add _ (Decimal.not_isFinite_mul _ h))

theorem not_isFinite_add (e : LogEntry) (h : s.averageConfidence.isFinite = false) :
    (s.add e).averageConfidence.isFinite = false := by
  rw [add_average]
  split
  · exact not_isFinite_extendMean _ _ h
  · exact h

variable {config : Config} {average : Float}

theorem lowAverageConfidence_mem_iff : .lowAverageConfidence average ∈ s.anomalies config ↔
    max 1 config.minDecisions ≤ s.total ∧
      (0 < s.samples ∧ s.averageConfidence < config.minAverageConfidence) ∧
      average = s.averageConfidence := by
  rw [enough_iff, anomalies]
  by_cases h : s.total < config.minDecisions ∨ s.total = 0
  · simp [h]
  · simp [h, List.mem_ite_nil_right]

end Stats

namespace Ledger

variable {l l' : Ledger} {tenant : String}

theorem averages_run (config : Config) (trail : Option Audit.Trail) (ops : List Op)
    (tenant : String) :
    ((run config trail ops).statsOf tenant).Averages ((run config trail ops).ofTenant tenant) :=
  tenant_run Stats.averages_empty Stats.Averages.add Stats.Averages.flag Stats.Averages.review
    config trail ops tenant

theorem not_isFinite_change (h : (l.statsOf tenant).averageConfidence.isFinite = false)
    (hchange : Change l l') : (l'.statsOf tenant).averageConfidence.isFinite = false := by
  cases hchange with
  | enter e hlog hstats =>
      rw [statsOf, hstats, Table.find?_set]
      by_cases ht : tenant = e.tenant
      · rw [if_pos ht, Option.getD_some]
        exact Stats.not_isFinite_add e (ht ▸ h)
      · rw [if_neg ht]
        exact h
  | settle flagged notes hlog hleft =>
      rw [statsOf, settledAt, statsOf_noted]
      split <;> exact h
  | keep hlog hstats =>
      rw [statsOf, hstats]
      exact h

theorem not_isFinite_foldl (ops : List Op)
    (h : (l.statsOf tenant).averageConfidence.isFinite = false) :
    ((ops.foldl step l).statsOf tenant).averageConfidence.isFinite = false := by
  induction ops generalizing l with
  | nil => exact h
  | cons op ops ih => exact ih (not_isFinite_change h (step_change l op))

/-- After every run the average of a tenant is the mean of the finite confidences in its part of the
log, taken one after the other. It is finite and no greater than they are where these are within
`2 ^ 959`, it is a share where they are shares, and it is what the check for a low average compares.
Once it is not finite, it never is again. -/
theorem average_of_run (config : Config) (trail : Option Audit.Trail) (ops : List Op)
    (tenant : String) :
    let l := run config trail ops
    let es := l.ofTenant tenant
    let cs := samplesOf es
    let mean := (l.statsOf tenant).averageConfidence
    mean = Stats.meanOf cs ∧
    (cs.length < 2 ^ 64 →
      (∀ k ≤ 959, (∀ c ∈ cs, |value c| ≤ 2 ^ k) → mean.isFinite = true ∧ |value mean| ≤ 2 ^ k) ∧
      ((∀ c ∈ cs, inUnit c = true) → inUnit mean = true)) ∧
    (∀ average, .lowAverageConfidence average ∈ l.anomalies tenant ↔
      max 1 config.minDecisions ≤ es.length ∧ (cs ≠ [] ∧ mean < config.minAverageConfidence) ∧
        average = mean) ∧
    (mean.isFinite = false → ∀ more : List Op,
      ((run config trail (ops ++ more)).statsOf tenant).averageConfidence.isFinite = false) := by
  intro l es cs mean
  obtain ⟨hsamples, hmean⟩ : (l.statsOf tenant).Averages es := averages_run config trail ops tenant
  have htotal : (l.statsOf tenant).total = es.length := (tallied_run config trail ops tenant).total
  have hfinite (c : Float) (hc : c ∈ cs) : c.isFinite = true := (List.mem_filter.mp hc).2
  refine ⟨hmean, fun hlen => ⟨?_, ?_⟩, ?_, ?_⟩
  · intro k hk hbound
    obtain ⟨r, hr, hle, -⟩ := Stats.isValue_meanOf hk hlen fun c hc => ⟨hfinite c hc, hbound c hc⟩
    rw [← hmean] at hr
    exact ⟨hr.finite, hr.value ▸ hle⟩
  · intro hunit
    have hshare (c : Float) (hc : c ∈ cs) : 0 ≤ value c ∧ value c ≤ 1 :=
      (Decimal.isValue_inUnit (Decimal.isValue_of_isFinite (hfinite c hc))).mp (hunit c hc)
    obtain ⟨r, hr, hle, hnonneg⟩ := Stats.isValue_meanOf (k := 0) (by decide) hlen fun c hc =>
      ⟨hfinite c hc, by rw [abs_of_nonneg (hshare c hc).1]; exact (hshare c hc).2⟩
    rw [← hmean] at hr
    exact (Decimal.isValue_inUnit hr).mpr
      ⟨hnonneg fun c hc => (hshare c hc).1, (le_abs_self r).trans hle⟩
  · intro average
    have hconfig : l.config = config := run_config config trail ops
    rw [anomalies, hconfig, Stats.lowAverageConfidence_mem_iff, htotal, hsamples,
      List.length_pos_iff]
  · intro hnot more
    rw [run, List.foldl_append]
    exact not_isFinite_foldl more hnot

def decidedCase (id : String) (confidence : Float) : Case :=
  ⟨id, "auditor", "auditee_response",
    Policy.Config.standard.decide ⟨"auditee_response", confidence, none⟩, [], []⟩

def decidedOps (confidences : List Float) : List Op :=
  confidences.map fun c => .record none "" ⟨0, 0, 0⟩ (decidedCase "d-1" c)

/-- Two shares, after a confidence that is not a number. -/
def unsoundOps : List Op := decidedOps [0.0 / 0.0, 0.2, 0.4]

def eagerConfig : Config := { Config.standard with minDecisions := 2 }

theorem average_of_run_unsound :
    (samplesOf ((run eagerConfig none unsoundOps).ofTenant "auditor")).length < 2 ^ 64 ∧
    (∀ c ∈ samplesOf ((run eagerConfig none unsoundOps).ofTenant "auditor"), inUnit c = true) ∧
    inUnit ((run eagerConfig none unsoundOps).statsOf "auditor").averageConfidence = true ∧
    .lowAverageConfidence ((run eagerConfig none unsoundOps).statsOf "auditor").averageConfidence ∈
      (run eagerConfig none unsoundOps).anomalies "auditor" := by
  obtain ⟨-, hbound, hlow, -⟩ := average_of_run eagerConfig none unsoundOps "auditor"
  have hlen : (samplesOf ((run eagerConfig none unsoundOps).ofTenant "auditor")).length < 2 ^ 64 := by
    decide +kernel
  have hunit : ∀ c ∈ samplesOf ((run eagerConfig none unsoundOps).ofTenant "auditor"),
      inUnit c = true := by decide +kernel
  exact ⟨hlen, hunit, (hbound hlen).2 hunit,
    (hlow _).mpr ⟨by decide, ⟨by decide +kernel, by decide +kernel⟩, rfl⟩⟩

/-- Confidences that are finite, but no shares, can make an average that is not. -/
theorem average_overflows :
    (∀ e ∈ (run .standard none (decidedOps [1e308, 1e308])).ofTenant "auditor",
      e.approved = false ∧ e.confidence.isFinite = true) ∧
    ((run .standard none (decidedOps [1e308, 1e308])).statsOf
      "auditor").averageConfidence.isFinite = false := by decide +kernel

end Ledger

end Parley.Governance
