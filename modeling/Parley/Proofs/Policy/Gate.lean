import Parley.Policy.Gate
import Parley.Proofs.Decimal.Order

namespace Parley.Policy

open Decimal

structure Config.Sound (c : Config) : Prop where
  threshold : 0.0 ≤ c.threshold ∧ c.threshold ≤ 1.0
  amount : 0.0 ≤ c.maxAmount
  custom : ∀ x ∈ c.custom.values, 0.0 ≤ x ∧ x ≤ 1.0

namespace Config

theorem checkThreshold_eq_ok_iff {x : Float} :
    checkThreshold x = .ok () ↔ 0.0 ≤ x ∧ x ≤ 1.0 := by
  by_cases h : inUnit x = true <;> simp_all [checkThreshold, inUnit]

theorem checkThresholds_eq_ok_iff {xs : List Float} :
    checkThresholds xs = .ok () ↔ ∀ x ∈ xs, 0.0 ≤ x ∧ x ≤ 1.0 := by
  induction xs with
  | nil => simp [checkThresholds]
  | cons x xs ih =>
      rw [List.forall_mem_cons, ← ih, ← checkThreshold_eq_ok_iff, checkThresholds]
      cases checkThreshold x <;> simp

theorem amount_unfit_iff {x : Float} : (x.isNaN || x < 0.0) = false ↔ 0.0 ≤ x := by
  have hzero : (0.0 : Float).isNaN = false := by decide
  rw [Bool.or_eq_false_iff, decide_eq_false_iff_not]
  constructor
  · rintro ⟨hx, hlt⟩
    exact (not_lt_iff_le hx hzero).mp hlt
  · intro h
    have hx := (isNaN_of_le h).2
    exact ⟨hx, (not_lt_iff_le hx hzero).mpr h⟩

theorem check_eq_ok_iff {c : Config} : c.check = .ok () ↔ c.Sound := by
  have hsound : c.Sound ↔ checkThreshold c.threshold = .ok () ∧
      (c.maxAmount.isNaN || c.maxAmount < 0.0) = false ∧
      checkThresholds c.custom.values = .ok () := by
    rw [checkThreshold_eq_ok_iff, amount_unfit_iff, checkThresholds_eq_ok_iff]
    exact ⟨fun h => ⟨h.threshold, h.amount, h.custom⟩, fun ⟨ht, ha, hc⟩ => ⟨ht, ha, hc⟩⟩
  rw [hsound, check]
  cases checkThreshold c.threshold with
  | error f => simp
  | ok =>
      cases c.maxAmount.isNaN || c.maxAmount < 0.0 <;> simp

theorem standard_sound : standard.Sound := by
  refine ⟨by decide, by decide, List.forall_mem_nil _⟩

end Config

namespace Gate

def Sound (g : Gate) : Prop := ∀ e ∈ g.configs.entries, e.2.Sound

variable {g : Gate}

theorem checkAll_eq_ok_iff {entries : List (String × Config)} :
    checkAll entries = .ok () ↔ ∀ e ∈ entries, e.2.Sound := by
  induction entries with
  | nil => simp [checkAll]
  | cons e entries ih =>
      rw [List.forall_mem_cons, ← ih, ← Config.check_eq_ok_iff, checkAll]
      cases e.2.check <;> simp

theorem config_sound (h : g.Sound) (tenant : String) : (g.config tenant).Sound := by
  rw [config]
  cases hf : g.configs.find? tenant with
  | none => exact Config.standard_sound
  | some c => exact h (tenant, c) (Table.mem_of_valueIn hf)

theorem empty_sound : empty.Sound := List.forall_mem_nil _

theorem put_sound (h : g.Sound) (tenant : String) {c : Config} (hc : c.Sound) :
    (g.put tenant c).Sound := by
  intro e he
  rcases Table.mem_setIn he with rfl | he
  · exact hc
  · exact h e he

theorem step_sound (h : g.Sound) {op : Op} {g' : Gate} (hs : g.step op = .ok g') : g'.Sound := by
  cases op with
  | setConfig tenant c =>
      rw [step] at hs
      split at hs
      · cases hs
      · rename_i hok
        cases hs
        exact put_sound h tenant (Config.check_eq_ok_iff.mp hok)
  | setMode tenant mode =>
      cases hs
      have hc := config_sound h tenant
      exact put_sound h tenant ⟨hc.threshold, hc.amount, hc.custom⟩
  | setThreshold tenant threshold =>
      rw [step] at hs
      split at hs
      · cases hs
      · rename_i hok
        cases hs
        have hc := config_sound h tenant
        exact put_sound h tenant ⟨Config.checkThreshold_eq_ok_iff.mp hok, hc.amount, hc.custom⟩
  | load configs =>
      rw [step] at hs
      split at hs
      · cases hs
      · rename_i hok
        cases hs
        exact checkAll_eq_ok_iff.mp hok

theorem after_sound (h : g.Sound) (op : Op) : (g.after op).Sound := by
  rw [after]
  cases hs : g.step op with
  | error e => exact h
  | ok g' => exact step_sound h hs

theorem foldl_after_sound (h : g.Sound) (ops : List Op) : (ops.foldl after g).Sound := by
  induction ops generalizing g with
  | nil => exact h
  | cons op ops ih => exact ih (after_sound h op)

theorem run_sound (ops : List Op) : (run ops).Sound :=
  foldl_after_sound empty_sound ops

end Gate

end Parley.Policy
