import Parley.Proofs.Json.Fields
import Parley.Proofs.Policy.Gate

namespace Parley.Policy

open Decimal

inductive Config.Demands (c : Config) (agent : String) : Float → Prop
  | flat (h : c.tiered = false) : Demands c agent c.threshold
  | custom {x : Float} (h : c.tiered = true) (hx : c.custom.find? agent = some x) :
    Demands c agent x
  | known {tier : Tier} (h : c.tiered = true) (hx : c.custom.find? agent = none)
    (ht : (agent, tier) ∈ agents) : Demands c agent tier.threshold
  | unknown (h : c.tiered = true) (hx : c.custom.find? agent = none)
    (ht : ∀ tier, (agent, tier) ∉ agents) : Demands c agent Tier.high.threshold

def Check.order : List Check :=
  [.invalidRequest, .auditMode, .agentNotAllowed, .confidenceTooLow, .amountTooHigh]

/-- Whether a request passes a check. The last three are made in the assist mode only. -/
def Config.Passes (c : Config) (r : Request) : Check → Prop
  | .invalidRequest =>
    (0.0 ≤ r.confidence ∧ r.confidence ≤ 1.0) ∧ ∀ a ∈ r.amount, a.isFinite = true ∧ 0.0 ≤ a
  | .auditMode => c.mode ≠ .audit
  | .agentNotAllowed => c.mode = .assist → r.agent ∈ c.allowed
  | .confidenceTooLow => c.mode = .assist → c.effectiveThreshold r.agent ≤ r.confidence
  | .amountTooHigh => c.mode = .assist → ∀ a ∈ r.amount, a ≤ c.maxAmount

instance (c : Config) (r : Request) : DecidablePred (c.Passes r)
  | .invalidRequest => inferInstanceAs (Decidable ((0.0 ≤ r.confidence ∧ r.confidence ≤ 1.0) ∧
      ∀ a ∈ r.amount, a.isFinite = true ∧ 0.0 ≤ a))
  | .auditMode => inferInstanceAs (Decidable (c.mode ≠ .audit))
  | .agentNotAllowed => inferInstanceAs (Decidable (c.mode = .assist → r.agent ∈ c.allowed))
  | .confidenceTooLow =>
    inferInstanceAs (Decidable (c.mode = .assist → c.effectiveThreshold r.agent ≤ r.confidence))
  | .amountTooHigh =>
    inferInstanceAs (Decidable (c.mode = .assist → ∀ a ∈ r.amount, a ≤ c.maxAmount))

variable {c : Config} {r : Request}

theorem tierOf_cases (agent : String) : (agent, tierOf agent) ∈ agents ∨
    (∀ tier, (agent, tier) ∉ agents) ∧ tierOf agent = .high := by
  rw [tierOf]
  cases h : agents.lookup agent with
  | none =>
      right
      refine ⟨fun tier ht => ?_, rfl⟩
      simpa using List.lookup_eq_none_iff.mp h (agent, tier) ht
  | some tier =>
      left
      exact Fields.mem_of_lookup h

theorem effectiveThreshold_demands (c : Config) (agent : String) :
    c.Demands agent (c.effectiveThreshold agent) := by
  rw [Config.effectiveThreshold]
  cases ht : c.tiered with
  | false => exact .flat ht
  | true =>
      cases hx : c.custom.find? agent with
      | some x => exact .custom ht hx
      | none =>
          rcases tierOf_cases agent with hmem | ⟨hno, hhigh⟩
          · exact .known ht hx hmem
          · simp only [if_true, Option.getD_none, hhigh]
            exact .unknown ht hx hno

theorem amount_fit_iff {x : Float} :
    (!x.isFinite || x < 0.0) = false ↔ x.isFinite = true ∧ 0.0 ≤ x := by
  rw [Bool.or_eq_false_iff, Bool.not_eq_false', decide_eq_false_iff_not]
  refine and_congr_right fun hx => ?_
  exact not_lt_iff_le (isNaN_of_isFinite hx) (by decide)

theorem badAmount_eq_none_iff :
    r.badAmount = none ↔ ∀ a ∈ r.amount, a.isFinite = true ∧ 0.0 ≤ a := by
  rw [Request.badAmount, Option.filter_eq_none_iff]
  refine forall₂_congr fun a _ => ?_
  rw [Bool.not_eq_true, amount_fit_iff]

theorem flaw_eq_none_iff : r.flaw = none ↔ c.Passes r .invalidRequest := by
  have hunit : inUnit r.confidence = true ↔ 0.0 ≤ r.confidence ∧ r.confidence ≤ 1.0 := by
    simp [inUnit]
  rw [Config.Passes, ← badAmount_eq_none_iff, ← hunit, Request.flaw]
  cases inUnit r.confidence <;> simp

theorem check_of_flaw {o : Objection} (h : r.flaw = some o) : o.check = .invalidRequest := by
  rw [Request.flaw] at h
  split at h
  · cases h
    rfl
  · obtain ⟨a, -, rfl⟩ := Option.map_eq_some_iff.mp h
    rfl

theorem threshold_isNaN (tier : Tier) : tier.threshold.isNaN = false := by
  cases tier <;> decide

theorem effectiveThreshold_isNaN (h : c.Sound) (agent : String) :
    (c.effectiveThreshold agent).isNaN = false := by
  have hdemand := effectiveThreshold_demands c agent
  generalize c.effectiveThreshold agent = x at hdemand ⊢
  cases hdemand with
  | flat => exact (isNaN_of_le h.threshold.1).2
  | custom ht hx =>
      have hmem := List.mem_map_of_mem (f := Prod.snd) (Table.mem_of_valueIn hx)
      exact (isNaN_of_le (h.custom _ hmem).1).2
  | known | unknown => exact threshold_isNaN _

theorem excess_eq_none_iff (h : c.Sound) (hf : r.flaw = none) :
    c.excess r = none ↔ ∀ a ∈ r.amount, a ≤ c.maxAmount := by
  have hfit := (flaw_eq_none_iff (c := c)).mp hf
  rw [Config.excess, Option.map_eq_none_iff, Option.filter_eq_none_iff]
  refine forall₂_congr fun a ha => ?_
  rw [decide_eq_true_eq]
  exact not_lt_iff_le (isNaN_of_le h.amount).2 (isNaN_of_isFinite (hfit.2 a ha).1)

theorem check_of_excess {o : Objection} (h : c.excess r = some o) : o.check = .amountTooHigh := by
  obtain ⟨a, -, rfl⟩ := Option.map_eq_some_iff.mp h
  rfl

theorem assistObjection_check (h : c.Sound) (hf : r.flaw = none) (hm : c.mode = .assist) :
    (c.assistObjection r).map Objection.check =
      [Check.agentNotAllowed, .confidenceTooLow, .amountTooHigh].find? fun k => ¬ c.Passes r k := by
  have hnumber := (isNaN_of_le ((flaw_eq_none_iff (c := c)).mp hf).1.1).2
  have hlow := not_lt_iff_le hnumber (effectiveThreshold_isNaN h r.agent)
  rw [Config.assistObjection]
  by_cases hagent : r.agent ∈ c.allowed
  · have hfirst : c.Passes r .agentNotAllowed := fun _ => hagent
    rw [if_neg (not_not.mpr hagent), List.find?_cons_of_neg (by simpa using hfirst)]
    by_cases hc : r.confidence < c.effectiveThreshold r.agent
    · have hsecond : ¬ c.Passes r .confidenceTooLow := fun hp => hlow.mpr (hp hm) hc
      rw [List.find?_cons_of_pos (by simpa using hsecond)]
      simp only [if_pos hc, Option.map_some, Objection.check]
    · have hsecond : c.Passes r .confidenceTooLow := fun _ => hlow.mp hc
      rw [List.find?_cons_of_neg (by simpa using hsecond)]
      simp only [if_neg hc]
      cases hx : c.excess r with
      | none =>
          have hthird : c.Passes r .amountTooHigh := fun _ => (excess_eq_none_iff h hf).mp hx
          rw [List.find?_cons_of_neg (by simpa using hthird)]
          rfl
      | some o =>
          have hthird : ¬ c.Passes r .amountTooHigh := by
            intro hp
            rw [(excess_eq_none_iff h hf).mpr (hp hm)] at hx
            cases hx
          rw [List.find?_cons_of_pos (by simpa using hthird), Option.map_some, check_of_excess hx]
  · have hfirst : ¬ c.Passes r .agentNotAllowed := fun hp => hagent (hp hm)
    rw [if_pos hagent, List.find?_cons_of_pos (by simpa using hfirst)]
    rfl

theorem deniedBy_eq_find? (h : c.Sound) (r : Request) :
    (c.decide r).deniedBy = Check.order.find? fun k => ¬ c.Passes r k := by
  change (c.objection r).map Objection.check = _
  rw [Config.objection, Check.order]
  cases hf : r.flaw with
  | some o =>
      have hfirst : ¬ c.Passes r .invalidRequest := by
        rw [← flaw_eq_none_iff, hf]
        nofun
      rw [List.find?_cons_of_pos (by simpa using hfirst)]
      exact congrArg some (check_of_flaw hf)
  | none =>
      have hfirst : c.Passes r .invalidRequest := flaw_eq_none_iff.mp hf
      rw [List.find?_cons_of_neg (by simpa using hfirst)]
      cases hm : c.mode with
      | audit =>
          have hsecond : ¬ c.Passes r .auditMode := fun hp => hp hm
          rw [List.find?_cons_of_pos (by simpa using hsecond)]
          rfl
      | autonomous =>
          have hall : ∀ k ∈ [Check.auditMode, .agentNotAllowed, .confidenceTooLow, .amountTooHigh],
              c.Passes r k := by
            simp [Config.Passes, hm]
          rw [List.find?_eq_none.mpr fun k hk => by simpa using hall k hk]
          rfl
      | assist =>
          have hsecond : c.Passes r .auditMode := by
            rw [Config.Passes, hm]
            nofun
          rw [List.find?_cons_of_neg (by simpa using hsecond)]
          exact assistObjection_check h hf hm

theorem deniedBy_eq_none_iff : (c.decide r).deniedBy = none ↔ (c.decide r).approved = true := by
  change (c.objection r).map Objection.check = none ↔ (c.objection r).isNone = true
  rw [Option.map_eq_none_iff, Option.isNone_iff_eq_none]

theorem passes_all_iff : (∀ k ∈ Check.order, c.Passes r k) ↔
    (0.0 ≤ r.confidence ∧ r.confidence ≤ 1.0) ∧
      (∀ a ∈ r.amount, a.isFinite = true ∧ 0.0 ≤ a) ∧
      (c.mode = .autonomous ∨ c.mode = .assist ∧ r.agent ∈ c.allowed ∧
        c.effectiveThreshold r.agent ≤ r.confidence ∧ ∀ a ∈ r.amount, a ≤ c.maxAmount) := by
  simp only [Check.order, List.forall_mem_cons, Config.Passes, and_assoc]
  cases c.mode <;> simp

/-- What a gate decides, whatever was done with it before: a request goes ahead just if it is
valid and the mode of the tenant lets it, and otherwise the first check that fails is named. -/
theorem decision_of_run (ops : List Gate.Op) (tenant : String) (r : Request) :
    let g := Gate.run ops
    let c := g.config tenant
    let d := g.decide tenant r
    c.Demands r.agent (g.effectiveThreshold tenant r.agent) ∧
    (d.approved = true ↔
      (0.0 ≤ r.confidence ∧ r.confidence ≤ 1.0) ∧
      (∀ a ∈ r.amount, a.isFinite = true ∧ 0.0 ≤ a) ∧
      (c.mode = .autonomous ∨ c.mode = .assist ∧ r.agent ∈ c.allowed ∧
        g.effectiveThreshold tenant r.agent ≤ r.confidence ∧
        ∀ a ∈ r.amount, a ≤ c.maxAmount)) ∧
    (d.deniedBy = none ↔ d.approved = true) ∧
    ∀ k, d.deniedBy = some k ↔ ∃ before after,
      [.invalidRequest, .auditMode, .agentNotAllowed, .confidenceTooLow, .amountTooHigh] =
        before ++ k :: after ∧ (∀ j ∈ before, c.Passes r j) ∧ ¬ c.Passes r k := by
  intro g c d
  have hsound : c.Sound := Gate.config_sound (Gate.run_sound ops) tenant
  have hfirst : d.deniedBy = Check.order.find? fun k => ¬ c.Passes r k :=
    deniedBy_eq_find? hsound r
  refine ⟨effectiveThreshold_demands c r.agent, ?_, deniedBy_eq_none_iff, ?_⟩
  · refine (deniedBy_eq_none_iff.symm.trans ?_).trans passes_all_iff
    change d.deniedBy = none ↔ _
    rw [hfirst, List.find?_eq_none]
    simp
  · intro k
    rw [hfirst, List.find?_eq_some_iff_append]
    simp only [decide_eq_true_eq, Bool.not_eq_eq_eq_not, Bool.not_true, decide_eq_false_iff_not,
      not_not]
    constructor
    · rintro ⟨hk, before, after, horder, hbefore⟩
      exact ⟨before, after, horder, hbefore, hk⟩
    · rintro ⟨before, after, horder, hbefore, hk⟩
      exact ⟨hk, before, after, horder, hbefore⟩

end Parley.Policy
