import Mathlib.Logic.Function.Basic
import Parley.Proofs.Policy.Gate

namespace Parley.Policy.Gate

def Op.Fit : Op → Prop
  | .setConfig _ c => c.Sound
  | .setMode _ _ => True
  | .setThreshold _ threshold => 0.0 ≤ threshold ∧ threshold ≤ 1.0
  | .load configs => ∀ e ∈ configs.entries, e.2.Sound

/-- What a gate shows once a change is made to another one. The part of the policy that a change
does not name is the tenant's own, or the standard one if the tenant had none. -/
def Op.Made (g g' : Gate) : Op → Prop
  | .setConfig tenant c => g'.configs.find? = Function.update g.configs.find? tenant (some c)
  | .setMode tenant mode =>
    g'.configs.find? = Function.update g.configs.find? tenant
      (some { (g.configs.find? tenant).getD .standard with mode })
  | .setThreshold tenant threshold =>
    g'.configs.find? = Function.update g.configs.find? tenant
      (some { (g.configs.find? tenant).getD .standard with threshold })
  | .load configs => g'.configs = configs

variable {g g' : Gate} {op : Op}

theorem find?_put (tenant : String) (c : Config) :
    (g.put tenant c).configs.find? = Function.update g.configs.find? tenant (some c) := by
  funext other
  rw [put, Table.find?_set, Function.update_apply]

theorem step_of_fit (h : op.Fit) : ∃ g', g.step op = .ok g' ∧ op.Made g g' := by
  cases op with
  | setConfig tenant c =>
      refine ⟨g.put tenant c, ?_, find?_put tenant c⟩
      rw [step, Config.check_eq_ok_iff.mpr h]
  | setMode tenant mode => exact ⟨_, rfl, find?_put tenant _⟩
  | setThreshold tenant threshold =>
      refine ⟨g.put tenant { g.config tenant with threshold }, ?_, find?_put tenant _⟩
      rw [step, Config.checkThreshold_eq_ok_iff.mpr h]
  | load configs =>
      refine ⟨⟨configs⟩, ?_, rfl⟩
      rw [step, checkAll_eq_ok_iff.mpr h]

theorem fit_of_step (h : g.step op = .ok g') : op.Fit := by
  cases op with
  | setConfig tenant c =>
      rw [step] at h
      split at h
      · cases h
      · rename_i hc
        exact Config.check_eq_ok_iff.mp hc
  | setMode tenant mode => trivial
  | setThreshold tenant threshold =>
      rw [step] at h
      split at h
      · cases h
      · rename_i hc
        exact Config.checkThreshold_eq_ok_iff.mp hc
  | load configs =>
      rw [step] at h
      split at h
      · cases h
      · rename_i hc
        exact checkAll_eq_ok_iff.mp hc

theorem run_concat (ops : List Op) (op : Op) : run (ops ++ [op]) = (run ops).after op := by
  rw [run, run, List.foldl_append, List.foldl_cons, List.foldl_nil]

/-- Every change of every history is made in full or not at all, and the policies that are set
pass their check after it. -/
theorem changes_all_or_nothing (ops : List Op) (op : Op) :
    (∀ e ∈ (run (ops ++ [op])).configs.entries, e.2.check = .ok ()) ∧
      match (run ops).step op with
      | .error _ => ¬ op.Fit ∧ run (ops ++ [op]) = run ops
      | .ok g => op.Fit ∧ op.Made (run ops) g ∧ run (ops ++ [op]) = g := by
  constructor
  · intro e he
    exact Config.check_eq_ok_iff.mpr (run_sound _ e he)
  · rw [run_concat, after]
    cases h : (run ops).step op with
    | error e =>
        refine ⟨fun hfit => ?_, rfl⟩
        obtain ⟨g', hg, -⟩ := step_of_fit (g := run ops) hfit
        rw [h] at hg
        cases hg
    | ok g' =>
        have hfit := fit_of_step h
        obtain ⟨g₁, hg, hmade⟩ := step_of_fit (g := run ops) hfit
        rw [h] at hg
        cases hg
        exact ⟨hfit, hmade, rfl⟩

/-- A snapshot with one policy that cannot be leaves what was set before it. -/
example :
    run [.setMode "t1" .autonomous,
      .load ⟨[("t2", .standard), ("t1", { Config.standard with threshold := 1.5 })]⟩] =
    run [.setMode "t1" .autonomous] := by
  rfl

end Parley.Policy.Gate
